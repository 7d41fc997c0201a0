/-
Hash slots: `HashSlotCalculator`.

The slot of a key is its CRC-16 modulo 16384, read byte by byte off a table.

* `calculateWithTag_of_hasTag` — the slot of a key with a hash tag is that of the tag;
* `calculate_iff` — the slot of a key is right exactly when the faults of the entries
  looked up for it cancel out in the low 14 bits.
-/
import AstraDB.Crc
import AstraDB.CRLF

namespace HashSlotCalculator

def kHashSlotCount : ℕ := 16384

def crc16Table : List (BitVec 16) :=
  [0x0000, 0x1021, 0x2042, 0x3063, 0x4084, 0x50a5, 0x60c6, 0x70e7, 0x8108, 0x9129,
   0xa14a, 0xb16b, 0xc18c, 0xd1ad, 0xe1ce, 0xf1ef, 0x1231, 0x0210, 0x3273, 0x2252,
   0x52b5, 0x4294, 0x72f7, 0x62d6, 0x9339, 0x8318, 0xb37b, 0xa35a, 0xd3bd, 0xc39c,
   0xf3ff, 0xe3de, 0x2462, 0x3443, 0x0420, 0x1401, 0x64e6, 0x74c7, 0x44a4, 0x5485,
   0xa56a, 0xb54b, 0x8528, 0x9509, 0xe5ee, 0xf5cf, 0xc5ac, 0xd58d, 0x3653, 0x2672,
   0x1611, 0x0630, 0x76d7, 0x66f6, 0x5695, 0x46b4, 0xb75b, 0xa77a, 0x9719, 0x8738,
   0xf7df, 0xe7fe, 0xd79d, 0xc7bc, 0x48c4, 0x58e5, 0x6886, 0x78a7, 0x0840, 0x1861,
   0x2802, 0x3823, 0xc9cc, 0xd9ed, 0xe98e, 0xf9af, 0x8948, 0x9969, 0xa90a, 0xb92b,
   0x5af5, 0x4ad4, 0x7ab7, 0x6a96, 0x1a71, 0x0a50, 0x3a33, 0x2a12, 0xdbfd, 0xcbdc,
   0xfbbf, 0xeb9e, 0x9b79, 0x8b58, 0xbb3b, 0xab1a, 0x6ca6, 0x7c87, 0x4ce4, 0x5cc5,
   0x2c22, 0x3c03, 0x0c60, 0x1c41, 0xedae, 0xfd8f, 0xcdec, 0xddcd, 0xad2a, 0xbd0b,
   0x8d68, 0x9d49, 0x7e97, 0x6eb6, 0x5ed5, 0x4ef4, 0x3e13, 0x2e32, 0x1e51, 0x0e70,
   0xff9f, 0xefbe, 0xdfdd, 0xcffc, 0xbf1b, 0xaf3a, 0x9f59, 0x8f78, 0x9188, 0x81a9,
   0xb1ca, 0xa1eb, 0xd10c, 0xc12d, 0xf14e, 0xe16f, 0x1080, 0x00a1, 0x30c2, 0x20e3,
   0x5004, 0x4025, 0x7046, 0x6067, 0x83b9, 0x9398, 0xa3fb, 0xb3da, 0xc33d, 0xd31c,
   0xe37f, 0xf35e, 0x02b1, 0x1290, 0x22f3, 0x32d2, 0x4235, 0x5214, 0x6277, 0x7256,
   0xb5ea, 0xa5cb, 0x95a8, 0x8589, 0xf56e, 0xe54f, 0xd52c, 0xc50d, 0x34e2, 0x24c3,
   0x14a0, 0x0481, 0x7466, 0x6447, 0x5424, 0x4405, 0xa7db, 0xb7fa, 0x8799, 0x97b8,
   0xe75f, 0xf77e, 0xc71d, 0xd73c, 0x26d3, 0x36f2, 0x0691, 0x16b0, 0x6657, 0x7676,
   0x4615, 0x5634, 0xd94c, 0xc96d, 0xf90e, 0xe92f, 0x99c8, 0x89e9, 0xb98a, 0xa9ab,
   0x5844, 0x4865, 0x7806, 0x6827, 0x18c0, 0x08e1, 0x3882, 0x28a3, 0x5b7d, 0x4b5c,
   0x7b3f, 0x6b1e, 0x1bf9, 0x0bd8, 0x3bbb, 0x2b9a, 0xad07, 0xbd26, 0x8d45, 0x9d64,
   0xed83, 0xfda2, 0xcde1, 0xddc0, 0xad6f, 0xbd4e, 0x8d29, 0x9d08, 0xedef, 0xfdce,
   0xcda9, 0xdd88, 0x6966, 0x7947, 0x4924, 0x5905, 0x29e2, 0x39c3, 0x09a0, 0x1981,
   0x9b5e, 0x8b7f, 0xbb1c, 0xab3d, 0xdbda, 0xcbfb, 0xfb98, 0xebb9, 0x6a56, 0x7a77,
   0x4a14, 0x5a35, 0x2ad2, 0x3af3, 0x0a90, 0x1ab1]

def lookup (i : BitVec 8) : BitVec 16 := crc16Table.getD i.toNat 0

/-- The body of the loop of `CRC16`. -/
def crc16Step (crc : BitVec 16) (byte : UInt8) : BitVec 16 :=
  crc <<< 8 ^^^ lookup ((crc >>> 8).setWidth 8 ^^^ byte.toBitVec)

def crc16 (data : Bytes) : BitVec 16 := data.foldl crc16Step 0

def calculate (key : Bytes) : ℕ := (crc16 key).toNat % kHashSlotCount

/-- The slot of what is between the first `{` and the first `}` behind it, if that is not
empty, and else of the key. -/
def calculateWithTag (key : Bytes) : ℕ :=
  match key.idxOf? '{'.toUInt8 with
  | none => calculate key
  | some tagStart =>
    let remaining := key.drop (tagStart + 1)
    match remaining.idxOf? '}'.toUInt8 with
    | some (n + 1) => calculate (remaining.take (n + 1))
    | _ => calculate key

/-- `tag` stands between the first `{` of the key and the first `}` behind it. -/
def HasTag (tag key : Bytes) : Prop :=
  tag ≠ [] ∧ '}'.toUInt8 ∉ tag ∧ ∃ before after, '{'.toUInt8 ∉ before ∧
    key = before ++ '{'.toUInt8 :: (tag ++ '}'.toUInt8 :: after)

theorem idxOf?_of_notMem {c : UInt8} {before : Bytes} (hc : c ∉ before) (after : Bytes) :
    (before ++ c :: after).idxOf? c = some before.length := by
  induction before with
  | nil => exact List.findIdx?_cons.trans (if_pos (beq_self_eq_true c))
  | cons b before ih =>
    rw [List.mem_cons, not_or] at hc
    rw [List.cons_append, List.idxOf?_cons, if_neg (mt eq_of_beq (Ne.symm hc.1)), ih hc.2]
    rfl

theorem calculateWithTag_of_hasTag {tag key : Bytes} (h : HasTag tag key) :
    calculateWithTag key = calculate tag := by
  obtain ⟨hne, htag, before, after, hbefore, rfl⟩ := h
  obtain ⟨n, hn⟩ := Nat.exists_eq_add_one_of_ne_zero (mt List.length_eq_zero_iff.mp hne)
  rw [calculateWithTag, idxOf?_of_notMem hbefore]
  dsimp only
  rw [List.drop_length_add_append, List.drop_one, List.tail_cons, idxOf?_of_notMem htag, hn]
  dsimp only
  rw [← hn, List.take_left]

/-- CRC-16/XMODEM, bit by bit. -/
def crcXmodem (data : Bytes) : BitVec 16 := Crc.fold 0x1021 0 (data.map UInt8.toBitVec)

theorem crc16_eq (data : Bytes) : crc16 data = Crc.tableFold lookup 0 (data.map UInt8.toBitVec) := by
  rw [crc16, Crc.tableFold, List.foldl_map]
  rfl

/-- By how much the CRC of a string is off. -/
def deviation (data : Bytes) : BitVec 16 :=
  Crc.deviation 0x1021 lookup 0 (data.map UInt8.toBitVec)

theorem fault_eq_zero_iff : ∀ i : BitVec 8, Crc.fault 0x1021 lookup i = 0 ↔ i.toNat < 208 := by
  decide +kernel

theorem toNat_mod_eq_iff (a b : BitVec 16) : a.toNat % kHashSlotCount = b.toNat % kHashSlotCount ↔
    a.setWidth 14 = b.setWidth 14 := by
  rw [BitVec.toNat_eq, BitVec.toNat_setWidth, BitVec.toNat_setWidth]
  rfl

theorem calculate_iff (key : Bytes) :
    calculate key = (crcXmodem key).toNat % kHashSlotCount ↔
      (deviation key).toNat % kHashSlotCount = 0 := by
  have hzero : (deviation key).toNat % kHashSlotCount = 0 ↔ (deviation key).setWidth 14 = 0#14 :=
    toNat_mod_eq_iff (deviation key) 0
  rw [calculate, toNat_mod_eq_iff, hzero, crc16_eq, Crc.tableFold_eq 0x1021 lookup (by decide),
    BitVec.setWidth_xor]
  have hcancel := BitVec.xor_right_inj (x := (deviation key).setWidth 14) (y := 0#14)
    ((crcXmodem key).setWidth 14)
  rw [BitVec.xor_zero] at hcancel
  exact hcancel

/-- The check string of the polynomial. -/
theorem calculate_wrong : calculate (ascii "123456789") = 12965 ∧
    (crcXmodem (ascii "123456789")).toNat % kHashSlotCount = 12739 := by
  decide +kernel

end HashSlotCalculator
