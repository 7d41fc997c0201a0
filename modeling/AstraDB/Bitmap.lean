/-
Bitmaps: the commands on strings of bits.

The first bit of a byte is its most significant one.  Offsets and indices are `int64_t`; nothing
is computed from them here that could overflow, since a string has fewer than `2^60` bytes, and
so they are integers.

* `bitmap_laws` — what the commands read after what they have written.
-/
import AstraDB.Bits
import AstraDB.CommandRegistry
import AstraDB.Database
import AstraDB.Slices
import Mathlib.Data.List.GetD

open Slices List

namespace Bitmap

/-! ### Bits -/

/-- The loop of `PopCount`, of at most so many rounds. -/
def popCountLoop : ℕ → UInt8 → ℕ → ℕ
  | 0, _, count => count
  | rounds + 1, byte, count =>
    if byte = 0 then count else popCountLoop rounds (byte >>> 1) (count + (byte &&& 1).toNat)

def popCount (byte : UInt8) : ℕ := popCountLoop 8 byte 0

variable (bitmap : Bytes)

def ensureBitmapSize (bitOffset : ℤ) : Bytes :=
  let requiredBytes := bitOffset / 8 + 1
  if bitmap.length < requiredBytes then
    bitmap ++ replicate (requiredBytes.toNat - bitmap.length) 0
  else bitmap

/-- `(c >> bit_in_byte) & 1`; a `char` is signed. -/
def charBit (c : UInt8) (bitInByte : ℕ) : Bool :=
  (c.toInt8.toInt32 >>> Int32.ofNat bitInByte) &&& 1 ≠ 0

def getBit (offset : ℤ) : Bool :=
  if offset < 0 then false
  else
    let byteOffset := offset / 8
    let bitInByte := 7 - offset % 8
    if bitmap.length ≤ byteOffset then false
    else charBit (bitmap.getD byteOffset.toNat 0) bitInByte.toNat

def setBit (offset : ℤ) (value : Bool) : Bytes :=
  if offset < 0 then bitmap
  else
    let bitmap := ensureBitmapSize bitmap offset
    let byteOffset := offset / 8
    let bitInByte := 7 - offset % 8
    bitmap.modify byteOffset.toNat fun byte => Bits.setBit byte bitInByte.toNat value

/-! ### Ranges of bytes -/

/-- The clipping of `BITCOUNT` and `BITPOS`: the first byte, and the one behind the last. -/
def clip (len start stop : ℤ) : ℕ × ℕ :=
  let start := if start < 0 then len + start else start
  let stop := if stop < 0 then len + stop else stop
  let start := if start < 0 then 0 else start
  let stop := if len ≤ stop then len - 1 else stop
  -- `i <= end && i < len`
  (start.toNat, (min (stop + 1) len).toNat)

def bitCount (start stop : Int64) (bitmap : Bytes) : ℕ :=
  let (first, behind) := clip bitmap.length start.toInt stop.toInt
  Loops.forUp first behind (fun i count => count + popCount (bitmap.getD i 0)) 0

/-- The inner loop of `BITPOS`; here the byte is unsigned. -/
def firstBit (target : Bool) (byte : UInt8) : Option ℕ :=
  (range 8).find? fun bitIdx => ((byte >>> UInt8.ofNat (7 - bitIdx)) &&& 1 ≠ 0) == target

def bitPos (target : Bool) (start stop : Int64) (bitmap : Bytes) : ℤ :=
  let (first, behind) := clip bitmap.length start.toInt stop.toInt
  let found := (List.range' first (behind - first)).findSome? fun byteIdx =>
    (firstBit target (bitmap.getD byteIdx 0)).map (byteIdx * 8 + ·)
  match found with
  | some position => position
  | none => -1

/-! ### Setting bits -/

theorem charBit_eq (c : UInt8) {k : ℕ} (hk : k < 8) : charBit c k = c.toNat.testBit k := by
  rw [Bool.eq_iff_iff, ← Bits.shiftRight_and_one_ne_zero_iff c hk]
  exact decide_eq_true_iff

theorem getBit_eq {p : ℤ} (hp : 0 ≤ p) :
    getBit bitmap p = (bitmap.getD (p / 8).toNat 0).toNat.testBit (7 - p % 8).toNat := by
  rw [getBit, if_neg (Int.not_lt.mpr hp)]
  dsimp only
  split
  · next hlen =>
    rw [getD_eq_default _ _ (by omega)]
    exact (Nat.zero_testBit _).symm
  · exact charBit_eq _ (by omega)

theorem getBit_of_neg {p : ℤ} (hp : p < 0) : getBit bitmap p = false := by
  rw [getBit, if_pos hp]

theorem getBit_of_length_le {p : ℤ} (hp : 8 * bitmap.length ≤ p) : getBit bitmap p = false := by
  rw [getBit_eq bitmap (by omega), getD_eq_default _ _ (by omega)]
  exact Nat.zero_testBit _

theorem length_ensureBitmapSize (o : ℤ) :
    ((ensureBitmapSize bitmap o).length : ℤ) = max (bitmap.length : ℤ) (o / 8 + 1) := by
  rw [ensureBitmapSize]
  split
  · rw [length_append, length_replicate]
    omega
  · omega

theorem getD_append_zeros (n i : ℕ) : (bitmap ++ replicate n 0).getD i 0 = bitmap.getD i 0 := by
  by_cases hi : i < bitmap.length
  · rw [getD_append _ _ _ _ hi]
  · rw [getD_append_right _ _ _ _ (Nat.le_of_not_lt hi), getD_eq_getElem?_getD,
      List.getElem?_replicate, getD_eq_default _ _ (Nat.le_of_not_lt hi)]
    split <;> rfl

theorem getD_ensureBitmapSize (o : ℤ) (i : ℕ) :
    (ensureBitmapSize bitmap o).getD i 0 = bitmap.getD i 0 := by
  rw [ensureBitmapSize]
  split
  · exact getD_append_zeros bitmap _ i
  · rfl

theorem length_setBit {o : ℤ} (ho : 0 ≤ o) (value : Bool) :
    ((setBit bitmap o value).length : ℤ) = max (bitmap.length : ℤ) (o / 8 + 1) := by
  rw [setBit, if_neg (Int.not_lt.mpr ho)]
  dsimp only
  rw [length_modify, length_ensureBitmapSize]

theorem getD_modify {f : UInt8 → UInt8} {l : Bytes} {i : ℕ} (hi : i < l.length) (j : ℕ) :
    (l.modify i f).getD j 0 = if i = j then f (l.getD j 0) else l.getD j 0 := by
  rw [getD_eq_getElem?_getD, List.getElem?_modify, getD_eq_getElem?_getD]
  by_cases hij : i = j
  · subst hij
    rw [if_pos rfl, List.getElem?_eq_getElem hi]
    simp
  · simp [hij]

theorem getBit_setBit (o : ℤ) (value : Bool) (p : ℤ) (ho : 0 ≤ o) :
    getBit (setBit bitmap o value) p = if p = o then value else getBit bitmap p := by
  rcases Int.lt_or_le p 0 with hp | hp
  · rw [getBit_of_neg _ hp, getBit_of_neg _ hp, if_neg (by omega)]
  · have hlength := length_ensureBitmapSize bitmap o
    rw [getBit_eq _ hp, getBit_eq _ hp, setBit, if_neg (Int.not_lt.mpr ho)]
    dsimp only
    rw [getD_modify (by omega), getD_ensureBitmapSize]
    split
    · rw [Bits.testBit_setBit _ (by omega) (by omega)]
      refine if_congr ?_ rfl rfl
      omega
    · next hbyte =>
      rw [if_neg]
      rintro rfl
      exact hbyte rfl

/-! ### Counting and finding -/

theorem clip_eq (n : ℕ) (start stop : ℤ) : clip n start stop =
    ((max (resolve n start) 0).toNat, (min (resolve n stop) (n - 1) + 1).toNat) := by
  have hstart := resolve_cases n start
  have hstop := resolve_cases n stop
  rw [clip]
  refine Prod.ext ?_ ?_
  · dsimp only
    split_ifs <;> omega
  · dsimp only
    split_ifs <;> omega

theorem popCountLoop_eq (n : ℕ) (byte : UInt8) (count : ℕ) : popCountLoop n byte count =
    count + ∑ k ∈ Finset.range n, (byte.toNat.testBit k).toNat := by
  induction n generalizing byte count with
  | zero => rfl
  | succ n ih =>
    rw [popCountLoop, Finset.sum_range_succ']
    split
    · next h => simp [h]
    · rw [ih]
      have hlow : (byte &&& 1).toNat = (byte.toNat.testBit 0).toNat := by
        rw [UInt8.toNat_and, show (1 : UInt8).toNat = 1 from rfl, Nat.and_one_is_mod,
          Nat.toNat_testBit, Nat.pow_zero, Nat.div_one]
      have hshift : ∀ k, (byte >>> 1).toNat.testBit k = byte.toNat.testBit (k + 1) := by
        intro k
        rw [UInt8.toNat_shiftRight, show (1 : UInt8).toNat % 8 = 1 from rfl, Nat.testBit_shiftRight,
          Nat.add_comm]
      simp only [hlow, hshift]
      omega

theorem getBit_inByte (i : ℕ) {k : ℕ} (hk : k < 8) :
    getBit bitmap (8 * i + k : ℕ) = (bitmap.getD i 0).toNat.testBit (7 - k) := by
  have hbyte : (((8 * i + k : ℕ) : ℤ) / 8).toNat = i := by omega
  have hbit : (7 - ((8 * i + k : ℕ) : ℤ) % 8).toNat = 7 - k := by omega
  rw [getBit_eq bitmap (by omega), hbyte, hbit]

theorem popCount_eq (i : ℕ) : popCount (bitmap.getD i 0) =
    ∑ p ∈ Finset.Ico (8 * i) (8 * (i + 1)), (getBit bitmap p).toNat := by
  rw [popCount, popCountLoop_eq, Nat.zero_add, Finset.sum_Ico_eq_sum_range,
    show 8 * (i + 1) - 8 * i = 8 by omega, ← Finset.sum_range_reflect]
  refine Finset.sum_congr rfl fun k hk => ?_
  rw [getBit_inByte bitmap i (Finset.mem_range.mp hk)]

theorem forUp_popCount {first behind : ℕ} (h : first ≤ behind) :
    Loops.forUp first behind (fun i count => count + popCount (bitmap.getD i 0)) 0 =
      ∑ p ∈ Finset.Ico (8 * first) (8 * behind), (getBit bitmap p).toNat := by
  refine Loops.forUp_induct (P := fun i count => count =
    ∑ p ∈ Finset.Ico (8 * first) (8 * i), (getBit bitmap p).toNat) h ?_ ?_
  · rw [Finset.Ico_self, Finset.sum_empty]
  · rintro i _ hi _ rfl
    rw [popCount_eq, Finset.sum_Ico_consecutive _ (by omega) (by omega)]

/-- The positions of the bits in the bytes of a range, which is clipped at both ends. -/
def positions (n : ℕ) (start stop : ℤ) : Finset ℕ :=
  Finset.Ico (8 * (max (resolve n start) 0).toNat) (8 * (min (resolve n stop) (n - 1) + 1).toNat)

theorem bitCount_eq (start stop : Int64) (bitmap : Bytes) : bitCount start stop bitmap =
    ((positions bitmap.length start.toInt stop.toInt).filter
      fun p : ℕ => getBit bitmap p).card := by
  rw [bitCount, clip_eq, Finset.card_filter, positions]
  dsimp only
  generalize (max (resolve bitmap.length start.toInt) 0).toNat = first
  generalize (min (resolve bitmap.length stop.toInt) (bitmap.length - 1) + 1).toNat = behind
  rcases Nat.le_total first behind with h | h
  · rw [forUp_popCount bitmap h]
    refine Finset.sum_congr rfl fun p _ => ?_
    cases getBit bitmap p <;> rfl
  · rw [Loops.forUp_of_le h, Finset.Ico_eq_empty (by omega), Finset.sum_empty]

theorem flatMap_range' (a n : ℕ) : ((List.range' a n).flatMap fun i => (range 8).map (i * 8 + ·)) =
      List.range' (8 * a) (8 * n) := by
  induction n generalizing a with
  | zero => rfl
  | succ n ih =>
    rw [range'_succ, flatMap_cons, ih, range_eq_range', map_add_range',
      Nat.mul_comm a 8, show 8 * (a + 1) = 8 * a + 1 * 8 by omega, Nat.add_zero, range'_append]
    congr 1
    omega

theorem firstBit_eq (target : Bool) (bitmap : Bytes) (i : ℕ) :
    (firstBit target (bitmap.getD i 0)).map (i * 8 + ·) =
      ((range 8).map (i * 8 + ·)).find? fun p : ℕ => getBit bitmap p == target := by
  rw [List.find?_map, firstBit]
  congr 1
  refine List.find?_congr fun k hk => ?_
  have hk := mem_range.mp hk
  rw [Function.comp_apply, Nat.mul_comm i 8, getBit_inByte bitmap i hk]
  congr 1
  rw [Bool.eq_iff_iff, decide_eq_true_iff]
  exact Bits.shiftRight_and_one_ne_zero_iff' _ (by omega)

/-- The least position in the range with this bit, or `-1`. -/
def IsFirst (range : Finset ℕ) (target : Bool) (position : ℤ) : Prop :=
  (∃ p : ℕ, position = p ∧ IsLeast {p | p ∈ range ∧ getBit bitmap p = target} p) ∨
    position = -1 ∧ ∀ p ∈ range, getBit bitmap p ≠ target

theorem bitPos_spec (target : Bool) (start stop : Int64) (bitmap : Bytes) :
    IsFirst bitmap (positions bitmap.length start.toInt stop.toInt) target
      (bitPos target start stop bitmap) := by
  -- byte by byte, the first position in the range is found
  unfold bitPos
  simp only [firstBit_eq]
  rw [← List.find?_flatMap, flatMap_range', clip_eq, positions]
  dsimp only
  generalize (max (resolve bitmap.length start.toInt) 0).toNat = first
  generalize (min (resolve bitmap.length stop.toInt) (bitmap.length - 1) + 1).toNat = behind
  have hmem : ∀ p, p ∈ Finset.Ico (8 * first) (8 * behind) ↔
      8 * first ≤ p ∧ p < 8 * first + 8 * (behind - first) := by
    intro p
    rw [Finset.mem_Ico]
    omega
  split
  · next position hfind =>
    obtain ⟨hbit, hrange, hbefore⟩ := List.find?_range'_eq_some.mp hfind
    rw [mem_range'_1] at hrange
    refine .inl ⟨position, rfl, ⟨(hmem position).mpr hrange, eq_of_beq hbit⟩, ?_⟩
    rintro p ⟨hp, hbit'⟩
    by_contra hlt
    have hfalse := hbefore p ((hmem p).mp hp).1 (Nat.lt_of_not_le hlt)
    rw [hbit', beq_self_eq_true] at hfalse
    exact absurd hfalse (by decide)
  · next hfind =>
    refine .inr ⟨rfl, fun p hp hbit => ?_⟩
    have hfalse := List.find?_range'_eq_none.mp hfind p ((hmem p).mp hp).1 ((hmem p).mp hp).2
    rw [hbit, beq_self_eq_true] at hfalse
    exact absurd hfalse (by decide)

/-! ### The commands -/

section Commands

variable (env : DatabaseEnv)

def wrongNumber (name : String) : CommandResult :=
  .ofError (ascii "ERR wrong number of arguments for '" ++ ascii name ++ ascii "' command")

def notInteger : CommandResult := .ofError (ascii "ERR value is not an integer or out of range")

def integer (n : ℤ) : CommandResult := .ofResponse (.ofInteger (Int64.ofInt n))

/-- The indices at the end of the arguments. -/
def rangeArgs (bitmap : Bytes) : List CommandArg → Option (Int64 × Int64)
  | [] => some (0, Int64.ofNat bitmap.length - 1)
  | [start] => do
    let start ← env.simpleAtoi start.value
    some (start, Int64.ofNat bitmap.length - 1)
  | start :: stop :: _ => do
    let start ← env.simpleAtoi start.value
    let stop ← env.simpleAtoi stop.value
    some (start, stop)

variable (args : List CommandArg)

def handleBitCount (db : Store env) : CommandResult × Store env :=
  match args with
  | [] => (wrongNumber "bitcount", db)
  | key :: range =>
    if 2 < range.length then (wrongNumber "bitcount", db)
    else
      let (value, db) := db.onKey key.value Stored.get
      match value with
      | none => (integer 0, db)
      | some bitmap =>
        match rangeArgs env bitmap range with
        | none => (notInteger, db)
        | some (start, stop) => (integer (bitCount start stop bitmap), db)

/-- Without a value, a zero is found at once. -/
def handleBitPos (db : Store env) : CommandResult × Store env :=
  match args with
  | key :: bit :: range =>
    if 2 < range.length then (wrongNumber "bitpos", db)
    else
      match env.simpleAtoi bit.value with
      | none => (notInteger, db)
      | some bitValue =>
        if bitValue ≠ 0 ∧ bitValue ≠ 1 then
          (.ofError (ascii "ERR bit value must be 0 or 1"), db)
        else
          let (value, db) := db.onKey key.value Stored.get
          match value with
          | none => (integer (if bitValue = 1 then -1 else 0), db)
          | some bitmap =>
            match rangeArgs env bitmap range with
            | none => (notInteger, db)
            | some (start, stop) => (integer (bitPos (bitValue = 1) start stop bitmap), db)
  | _ => (wrongNumber "bitpos", db)

def handleGetBit (db : Store env) : CommandResult × Store env :=
  match args with
  | [key, offset] =>
    match env.simpleAtoi offset.value with
    | none => (.ofError (ascii "ERR offset is not an integer or out of range"), db)
    | some offset =>
      if offset < 0 then (.ofError (ascii "ERR offset is out of range"), db)
      else
        let (value, db) := db.onKey key.value Stored.get
        (integer (value.elim 0 fun bitmap => if getBit bitmap offset.toInt then 1 else 0), db)
  | _ => (wrongNumber "getbit", db)

/-- `victims` are the keys that are evicted meanwhile. -/
def handleSetBit (victims : List (Bytes × KeyType)) (db : Store env) : CommandResult × Store env :=
  match args with
  | [key, offset, bit] =>
    match env.simpleAtoi offset.value with
    | none => (.ofError (ascii "ERR offset is not an integer or out of range"), db)
    | some offset =>
      match env.simpleAtoi bit.value with
      | none => (notInteger, db)
      | some bitValue =>
        if offset < 0 ∨ bitValue ≠ 0 ∧ bitValue ≠ 1 then
          (.ofError (ascii "ERR offset or value is out of range"), db)
        else
          let (value, db) := db.onKey key.value Stored.get
          let bitmap := setBit (value.getD []) offset.toInt (bitValue = 1)
          (.ofResponse (.ofInteger bitValue), db.set key.value bitmap victims)
  | _ => (wrongNumber "setbit", db)

variable {env}

theorem handleGetBit_handleSetBit {db : Store env} {key offset bit position : CommandArg}
    {bitmap : Bytes} {o b p : Int64} (hdb : (db key.value).data .strings = some bitmap)
    (hoffset : env.simpleAtoi offset.value = some o) (ho : ¬ o < 0)
    (hbit : env.simpleAtoi bit.value = some b) (hb : b = 0 ∨ b = 1)
    (hposition : env.simpleAtoi position.value = some p) (hp : ¬ p < 0)
    {victims : List (Bytes × KeyType)} (hkey : key.value ∉ victims.map Prod.fst) :
    (handleGetBit env [key, position]
        (handleSetBit env [key, offset, bit] victims db).2).1 =
      if p = o then .ofResponse (.ofInteger b)
      else (handleGetBit env [key, position] db).1 := by
  have hvalid : ¬ (o < 0 ∨ b ≠ 0 ∧ b ≠ 1) := by
    rintro (h | ⟨h0, h1⟩)
    · exact ho h
    · exact hb.elim h0 h1
  have hset : ((handleSetBit env [key, offset, bit] victims db).2 key.value).data .strings =
      some (setBit bitmap o.toInt (b = 1)) := by
    rw [handleSetBit, hoffset]
    dsimp only
    rw [hbit]
    dsimp only
    rw [if_neg hvalid, Store.get_of_data hdb]
    exact Store.data_set hkey _ _
  have hnonneg : (0 : Int64).toInt ≤ o.toInt := Int.not_lt.mp (mt Int64.lt_iff_toInt_lt.mpr ho)
  rw [handleGetBit, hposition]
  dsimp only
  rw [if_neg hp, Store.get_of_data hset, handleGetBit, hposition]
  dsimp only
  rw [if_neg hp, Store.get_of_data hdb]
  dsimp only [Option.elim_some]
  rw [getBit_setBit _ _ _ _ hnonneg]
  by_cases hpo : p = o
  · rw [if_pos (congrArg Int64.toInt hpo), if_pos hpo]
    rcases hb with rfl | rfl <;> rfl
  · rw [if_neg (mt Int64.toInt_inj.mp hpo), if_neg hpo]

end Commands

/-! ### The laws -/

/-- **Bitmaps.**  `SETBIT` changes one bit, and no other; what `BITCOUNT` counts and `BITPOS`
finds are the bits of the bytes in the clipped range. -/
theorem bitmap_laws (bitmap : Bytes) :
    (∀ o : ℤ, 0 ≤ o → ∀ b,
      getBit (setBit bitmap o b) o = b ∧
      (∀ p, p ≠ o → getBit (setBit bitmap o b) p = getBit bitmap p) ∧
      ((setBit bitmap o b).length : ℤ) = max (bitmap.length : ℤ) (o / 8 + 1)) ∧
    (∀ p : ℤ, 8 * bitmap.length ≤ p → getBit bitmap p = false) ∧
    ∀ start stop : Int64,
      let range := positions bitmap.length start.toInt stop.toInt
      bitCount start stop bitmap = (range.filter fun p : ℕ => getBit bitmap p).card ∧
      ∀ b, IsFirst bitmap range b (bitPos b start stop bitmap) := by
  refine ⟨fun o ho b => ⟨?_, fun p hp => ?_, length_setBit bitmap ho b⟩,
    fun p => getBit_of_length_le bitmap,
    fun start stop => ⟨bitCount_eq start stop bitmap, fun b => bitPos_spec b start stop bitmap⟩⟩
  · rw [getBit_setBit _ _ _ _ ho, if_pos rfl]
  · rw [getBit_setBit _ _ _ _ ho, if_neg hp]

theorem bitmap_laws_sample : getBit (setBit [0x80] 11 true) 11 = true ∧
    getBit (setBit [0x80] 11 true) 0 = true ∧ (setBit [0x80] 11 true).length = 2 := by
  obtain ⟨hself, hother, hlength⟩ := (bitmap_laws [0x80]).1 11 (by decide) true
  refine ⟨hself, (hother 0 (by decide)).trans (by decide), ?_⟩
  exact Int.ofNat_inj.mp (hlength.trans (by decide))

end Bitmap
