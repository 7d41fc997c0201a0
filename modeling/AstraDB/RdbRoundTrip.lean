/-
The round trip of snapshot files.

* `load_save` — the file of any calls with readable strings: the callback gets the entries, in order,
  each with its database.
-/
import AstraDB.RdbLayout

open Endian SourceReader Rdb RdbWriter RdbLayout List Nat

namespace RdbReader

theorem or_tag {m : ℕ} (hm : m < 0x4000) : m ||| 0x4000 = m + 0x4000 := by
  have h := Nat.two_pow_add_eq_or_of_lt (i := 14) hm 1
  rw [Nat.or_comm, show 0x4000 = 2 ^ 14 * 1 from rfl, ← h, add_comm]

theorem two_bytes {len : UInt64} (hlen : len < 0x4000) :
    let v := len.toUInt16 ||| 0x4000
    ¬ (v >>> 8).toUInt8 < 0x40 ∧ (v >>> 8).toUInt8 < 0x80 ∧
      (((v >>> 8).toUInt8.toUInt16 <<< 8 ||| v.toUInt8.toUInt16) &&& 0x3FFF).toUInt64 = len := by
  have hlen : len.toNat < 0x4000 := UInt64.lt_iff_toNat_lt.mp hlen
  intro v
  have hv : v.toNat = len.toNat + 0x4000 := by
    rw [UInt16.toNat_or, UInt64.toNat_toUInt16, mod_eq_of_lt (by omega)]
    exact or_tag hlen
  have hhigh : (v >>> 8).toUInt8.toNat = (len.toNat + 0x4000) / 256 := by
    rw [UInt16.toNat_toUInt8, UInt16.toNat_shiftRight, hv, shiftRight_eq_div_pow]
    show (len.toNat + 0x4000) / 2 ^ 8 % 2 ^ 8 = _
    omega
  have hlow : v.toUInt8.toNat = len.toNat % 256 := by
    rw [UInt16.toNat_toUInt8, hv]
    omega
  refine ⟨?_, ?_, ?_⟩
  · rw [UInt8.lt_iff_toNat_lt, hhigh]
    show ¬ _ < 0x40
    omega
  · rw [UInt8.lt_iff_toNat_lt, hhigh]
    show _ < 0x80
    omega
  · apply UInt64.toNat_inj.mp
    rw [UInt16.toNat_toUInt64, UInt16.toNat_and, UInt16.toNat_or, UInt16.toNat_shiftLeft,
      UInt8.toNat_toUInt16, UInt8.toNat_toUInt16, hhigh, hlow, shiftLeft_eq]
    show ((len.toNat + 0x4000) / 256 * 2 ^ 8 % 2 ^ 16 ||| len.toNat % 256) &&& (2 ^ 14 - 1) = _
    rw [mod_eq_of_lt (by omega), mul_comm,
      ← two_pow_add_eq_or_of_lt (i := 8) (mod_lt _ (by decide)),
      and_two_pow_sub_one_eq_mod]
    omega

theorem length_of_lt {len : UInt64} (hlen : len < 0x4000) : Length (writeLength len) len := by
  by_cases hsmall : len < 0x40
  · have hbyte : len.toUInt8.toNat = len.toNat :=
      mod_eq_of_lt (lt_trans (UInt64.lt_iff_toNat_lt.mp hsmall) (by decide))
    have hone := @Length.one len.toUInt8 (UInt8.lt_iff_toNat_lt.mpr
      (hbyte ▸ UInt64.lt_iff_toNat_lt.mp hsmall))
    rw [show len.toUInt8.toUInt64 = len from UInt64.toNat_inj.mp hbyte] at hone
    rw [writeLength, if_pos hsmall]
    exact hone
  · rw [writeLength, if_neg hsmall, if_pos hlen]
    obtain ⟨hlow, hhigh, hvalue⟩ := two_bytes hlen
    have htwo := @Length.two _ (len.toUInt16 ||| 0x4000).toUInt8 hlow hhigh
    rw [hvalue] at htwo
    exact htwo

/-- The strings that `ReadString` reads back. -/
def Readable (str : Bytes) : Prop := str ≠ [] ∧ str.length < 16384

instance (str : Bytes) : Decidable (Readable str) := inferInstanceAs (Decidable (_ ∧ _))

theorem str_of_readable {str : Bytes} (hstr : Readable str) : Str (writeString str) str := by
  obtain ⟨hne, hlength⟩ := hstr
  have htoNat : (UInt64.ofNat str.length).toNat = str.length :=
    UInt64.toNat_ofNat_of_lt' (lt_trans hlength (by decide))
  refine Str.data (length_of_lt ?_) (fun h => ?_) htoNat.symm
  · rw [UInt64.lt_iff_toNat_lt, htoNat]
    exact hlength
  · rw [h] at htoNat
    exact hne (length_eq_zero_iff.mp htoNat.symm)

/-- The entries that are read back. -/
def Sound (kv : RdbKeyValue) : Prop :=
  Readable kv.key ∧ Readable kv.value ∧ (0 ≤ kv.expireMs ∨
    kv.expireMs = -1 ∧ kv.type ∉ [opcodeEof, opcodeSelectDb, opcodeExpireTimeMs, opcodeResizeDb, opcodeAux])

instance (kv : RdbKeyValue) : Decidable (Sound kv) := inferInstanceAs (Decidable (_ ∧ _))

theorem section_of_sound {kv : RdbKeyValue} (h : Sound kv) :
    ∃ opcode rest, writeKv kv = [opcode] :: rest ∧ opcode ≠ opcodeEof ∧ opcode ≠ opcodeAux ∧
      ∀ currentDb, Section currentDb opcode rest (currentDb, some kv) := by
  obtain ⟨hkey, hvalue, hexpire⟩ := h
  have hkv : KeyValue kv.type kv.expireMs (writeString kv.key ++ writeString kv.value) (some kv) :=
    KeyValue.entry (str_of_readable hkey) hkey.1 (str_of_readable hvalue) hvalue.1
  by_cases hpos : 0 ≤ kv.expireMs
  · -- an entry that expires comes after its time
    have hexp : (UInt64.ofNat (ofLittleEndian
        (littleEndian 8 kv.expireMs.toUInt64.toNat))).toInt64 = kv.expireMs := by
      rw [ofLittleEndian_littleEndian, mod_eq_of_lt
        (show _ < 256 ^ 8 from UInt64.toNat_lt _), UInt64.ofNat_toNat, Int64.toInt64_toUInt64]
    rw [writeKv, if_pos hpos]
    exact ⟨opcodeExpireTimeMs, _, rfl, by decide, by decide, fun currentDb =>
      Section.expireTime (length_littleEndian 8 _) (hexp.symm ▸ hkv)⟩
  · -- the other ones begin with their type, in the place of an opcode
    obtain ⟨hminus, htype⟩ := hexpire.resolve_left hpos
    simp only [mem_cons, not_mem_nil, or_false, not_or] at htype
    obtain ⟨heof, hselect, hexpireTime, hresize, haux⟩ := htype
    rw [writeKv, if_neg hpos]
    exact ⟨kv.type, _, rfl, heof, haux, fun currentDb =>
      Section.type hselect hresize hexpireTime (hminus ▸ hkv)⟩

end RdbReader

/-- An entry of one of the types of values, as long as the lengths of two bytes allow. -/
@[mk_iff]
structure RdbKeyValue.Valid (kv : RdbKeyValue) : Prop where
  type : kv.type ≤ 4
  key : RdbReader.Readable kv.key
  value : RdbReader.Readable kv.value
  expireMs : kv.expireMs = -1 ∨ 0 ≤ kv.expireMs

instance (kv : RdbKeyValue) : Decidable kv.Valid :=
  decidable_of_iff _ (RdbKeyValue.valid_iff kv).symm

namespace RdbWriter

def Call.Valid : Call → Prop
  | .selectDb dbNum => 0 ≤ dbNum ∧ dbNum < 16384
  | .resizeDb dbSize expiresSize => dbSize < 16384 ∧ expiresSize < 16384
  | .writeKv kv => kv.Valid

instance : (call : Call) → Decidable call.Valid
  | .selectDb _ => inferInstanceAs (Decidable (_ ∧ _))
  | .resizeDb _ _ => inferInstanceAs (Decidable (_ ∧ _))
  | .writeKv kv => inferInstanceAs (Decidable kv.Valid)

/-- The calls of the callback of `Load` that correspond to these. -/
def deliveries : Int32 → List Call → List RdbDelivery
  | _, [] => []
  | _, .selectDb dbNum :: calls => deliveries dbNum calls
  | currentDb, .resizeDb _ _ :: calls => deliveries currentDb calls
  | currentDb, .writeKv kv :: calls => (currentDb, kv) :: deliveries currentDb calls

end RdbWriter

theorem toUInt64_lt_of_lt {n : Int32} (hle : 0 ≤ n) (hlt : n < 16384) :
    n.toInt64.toUInt64 < 0x4000 := by
  have hle : 0 ≤ n.toInt := Int32.le_iff_toInt_le.mp hle
  have hlt : n.toInt < 16384 := Int32.lt_iff_toInt_lt.mp hlt
  have hle64 : 0 ≤ n.toInt64 := by
    rw [Int64.le_iff_toInt_le, Int32.toInt_toInt64]
    exact hle
  rw [UInt64.lt_iff_toNat_lt, Int64.toNat_toUInt64_of_le hle64, Int64.toNatClampNeg,
    Int32.toInt_toInt64]
  show n.toInt.toNat < 0x4000
  omega

theorem toInt32_toUInt64 (n : Int32) : n.toInt64.toUInt64.toUInt32.toInt32 = n := by
  apply Int32.toBitVec_inj.mp
  show (n.toBitVec.signExtend 64).setWidth 32 = n.toBitVec
  apply BitVec.eq_of_getLsbD_eq
  intro i hi
  rw [BitVec.getLsbD_setWidth, BitVec.getLsbD_signExtend]
  simp [hi, lt_trans hi (by decide : 32 < 64)]

namespace RdbReader

theorem sound_of_valid {kv : RdbKeyValue} (h : kv.Valid) : Sound kv := by
  have hne : ∀ opcode : UInt8, 4 < opcode → kv.type ≠ opcode :=
    fun opcode hlt h' => UInt8.not_lt.mpr h.type (h' ▸ hlt)
  refine ⟨h.key, h.value, h.expireMs.symm.imp_right fun hminus => ⟨hminus, ?_⟩⟩
  simp only [mem_cons, not_mem_nil, or_false, not_or]
  exact ⟨hne _ (by decide), hne _ (by decide), hne _ (by decide), hne _ (by decide),
    hne _ (by decide)⟩

theorem section_of_valid {call : Call} (hcall : call.Valid) :
    ∃ opcode rest, call.writes = [opcode] :: rest ∧ opcode ≠ opcodeEof ∧ opcode ≠ opcodeAux ∧
      ∀ currentDb, Section currentDb opcode rest (call.currentDb currentDb, call.entry) := by
  cases call with
  | selectDb dbNum =>
    refine ⟨opcodeSelectDb, _, rfl, by decide, by decide, fun currentDb => ?_⟩
    have h : Section currentDb _ _ _ :=
      Section.selectDb (length_of_lt (toUInt64_lt_of_lt hcall.1 hcall.2))
    rw [toInt32_toUInt64] at h
    exact h
  | resizeDb dbSize expiresSize =>
    exact ⟨opcodeResizeDb, _, rfl, by decide, by decide, fun currentDb =>
      Section.resizeDb (length_of_lt hcall.1) (length_of_lt hcall.2)⟩
  | writeKv kv => exact section_of_sound (sound_of_valid hcall)

variable {calls : List Call} (env : RdbEnv)

theorem sections_of_valid (hcalls : ∀ call ∈ calls, call.Valid) :
    ∃ opcode rest, calls.flatMap Call.writes ++ [[opcodeEof]] = [opcode] :: rest ∧
      opcode ≠ opcodeAux ∧
        ∀ currentDb, Sections currentDb opcode rest (deliveries currentDb calls) := by
  induction calls with
  | nil => exact ⟨opcodeEof, [], rfl, by decide, fun _ => Sections.eof⟩
  | cons call calls ih =>
    obtain ⟨next, rest, hnext, -, hsections⟩ := ih fun c hc => hcalls c (mem_cons_of_mem _ hc)
    obtain ⟨opcode, chunks, hwrites, heof, haux, hsection⟩ :=
      section_of_valid (hcalls call mem_cons_self)
    refine ⟨opcode, chunks ++ [next] :: rest, ?_, haux, fun currentDb => ?_⟩
    · rw [flatMap_cons, append_assoc, hnext, hwrites]
      rfl
    · have hcons : deliveries currentDb (call :: calls) = (call.entry.map (currentDb, ·)).toList ++
          deliveries (call.currentDb currentDb) calls := by
        cases call <;> rfl
      rw [hcons]
      exact Sections.cons heof (hsection currentDb) (hsections _)

theorem readable_strCat (henv : env.WritesDecimal) (num : Int64) : Readable (env.strCat num) := by
  have hnum : num.toInt.natAbs < 10 ^ 19 := by
    have := num.le_toInt
    have := num.toInt_lt
    omega
  have hlength := Decimal.length_natText_le (by decide) hnum
  have hsign : (Decimal.sign (decide (num.toInt < 0))).length ≤ 1 := by
    rw [Decimal.sign]
    split <;> decide
  rw [henv num, Decimal.text]
  refine ⟨fun h => Decimal.natText_ne_nil _ (append_eq_nil_iff.mp h).2, ?_⟩
  rw [length_append]
  omega

theorem body_of_valid (henv : env.WritesDecimal) (hcalls : ∀ call ∈ calls, call.Valid)
    (unixSeconds : Int64) :
    ∃ chunks, writePreamble env unixSeconds ++ calls.flatMap Call.writes ++ [[opcodeEof]] =
      [magic, [version]] ++ chunks ∧ Body chunks (deliveries 0 calls) := by
  obtain ⟨opcode, rest, hwrites, hopcode, hsections⟩ := sections_of_valid hcalls
  have hver : Readable (ascii "redis-ver") ∧ Readable (ascii "6.0.0") := by decide
  have hbits : Readable (ascii "redis-bits") ∧ Readable (ascii "64") := by decide
  have hctime : Readable (ascii "ctime") := by decide
  refine ⟨_, ?_, Body.aux (str_of_readable hver.1) (str_of_readable hver.2)
    (Body.aux (str_of_readable hbits.1) (str_of_readable hbits.2)
      (Body.aux (str_of_readable hctime) (str_of_readable (readable_strCat env henv unixSeconds))
        (Body.sections hopcode (hsections 0))))⟩
  rw [append_assoc, hwrites, writePreamble]
  simp only [writeAux, append_assoc, cons_append]

theorem ofLittleEndian_crc (crc : UInt32) : ofLittleEndian (littleEndian 4 crc.toNat) = crc.toNat := by
  rw [ofLittleEndian_littleEndian, mod_eq_of_lt (show crc.toNat < 256 ^ 4 from crc.toNat_lt)]

theorem verifyChecksum_of_length {data : Bytes} (hdata : data.length = 4) (rest stale : Bytes)
    (crc : UInt32) :
    verifyChecksum ⟨data ++ rest, stale, crc⟩ =
      some (decide (ofLittleEndian data = crc.toNat), ⟨rest, stale, crc⟩) := by
  have hfill : fillNew (fun crc _ => crc) 4 ⟨data ++ rest, stale, crc⟩ =
      some (data, ⟨rest, stale, crc⟩) := by
    have h : Reads (fun (crc : UInt32) _ => crc) _ _ _ := reads_fillNew data
    rw [hdata] at h
    have h := h ⟨rest, stale, crc⟩
    rw [flatten_singleton] at h
    exact h
  rw [verifyChecksum, bind_of_some hfill]
  rfl

theorem load_of_body {fuel : ℕ} {file stale : Bytes} {s₁ s₂ s₃ : Source UInt8 UInt32}
    {delivered : List RdbDelivery} {verified : Bool}
    (hheader : readHeader env ⟨file, stale, 0⟩ = some (true, s₁))
    (hbody : readBody env fuel fuel s₁ = some (delivered, s₂))
    (hverify : verifyChecksum s₂ = some (verified, s₃)) :
    load env fuel true file stale = some (verified, delivered) := by
  rw [load, loadFile_eq, bind_of_some hheader, loadRest, if_neg (by decide), bind_of_some hbody,
    if_neg (by decide), bind_of_some hverify]
  rfl

theorem exists_load_save (henv : env.WritesDecimal) (hcalls : ∀ call ∈ calls, call.Valid)
    (unixSeconds : Int64) :
    ∃ n, ∀ fuel ≥ n, ∀ stale, load env fuel true (save env true unixSeconds calls) stale =
      some (true, deliveries 0 calls) := by
  obtain ⟨chunks, hwritten, hbody⟩ := body_of_valid env henv hcalls unixSeconds
  obtain ⟨n, hreads⟩ := reads_readBody env hbody
  refine ⟨n, fun fuel hfuel stale => ?_⟩
  -- each part finds what was written for it, and `sum` is the sum of the writer in the end
  let crc := ([magic, [version]] ++ chunks).foldl env.extendCrc32c 0
  have hfile : save env true unixSeconds calls =
      [magic, [version]].flatten ++ (chunks.flatten ++ (littleEndian 4 crc.toNat ++ [])) := by
    rw [save, hwritten, if_pos rfl]
    simp only [flatten_append, append_assoc, append_nil, crc]
  have hverify := verifyChecksum_of_length (length_littleEndian 4 crc.toNat) [] stale crc
  rw [ofLittleEndian_crc, decide_eq_true rfl] at hverify
  rw [hfile]
  exact load_of_body env (reads_readHeader env ⟨_, stale, 0⟩)
    (hreads fuel hfuel fuel hfuel ⟨_, stale, _⟩) hverify

theorem load_save (henv : env.WritesDecimal) {calls : List Call} (hcalls : ∀ call ∈ calls, call.Valid)
    (unixSeconds : Int64) :
    ∃ n, ∀ fuel ≥ n, ∀ stale, load env fuel true (save env true unixSeconds calls) stale =
      some (true, deliveries 0 calls) :=
  exists_load_save env henv hcalls unixSeconds

theorem load_save_two :
    ∃ n, ∀ fuel ≥ n, ∀ stale, load simpleRdb fuel true
        (save simpleRdb true 1700000000
          [.selectDb 3, .resizeDb 2 1, .writeKv ⟨0, ascii "k", ascii "v", -1⟩,
            .writeKv ⟨2, ascii "list", ascii "a", 5⟩]) stale =
      some (true, [(3, ⟨0, ascii "k", ascii "v", -1⟩), (3, ⟨2, ascii "list", ascii "a", 5⟩)]) :=
  load_save simpleRdb (fun _ => rfl) (by decide) 1700000000

end RdbReader
