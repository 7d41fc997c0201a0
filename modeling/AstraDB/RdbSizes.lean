/-
Snapshot entries of any size.

`ReadLength` does not know the encoding that `WriteLength` has for lengths of 15 bits and
more, and `ReadKeyValue` takes an empty string for a failed read.

* `restored_length_iff` — a length is read back if it has at most 14 bits;
* `survives_iff` — the entries that are delivered and leave what comes after them as it is.

An entry that is not of this kind is found out by counting: the strings that are read have
prefixes of at most three bytes.
-/
import AstraDB.RdbRoundTrip

open Endian SourceReader Rdb RdbWriter RdbLayout List

namespace RdbReader

variable (env : RdbEnv)

/-- `ReadLength` returns `n` on the bytes of `WriteLength(n)`, and consumes exactly these. -/
def RestoresLength (n : UInt64) : Prop :=
  ∀ rest stale sum, ∃ sum', readLength env ⟨(writeLength n).flatten ++ rest, stale, sum⟩ =
    some (n, ⟨rest, stale, sum'⟩)

/-- The loop of `Load`, from the next opcode on. -/
def readNext (fuel : ℕ) (currentDb : Int32) (delivered : List RdbDelivery) :
    RdbReader (List RdbDelivery) := do
  let opcode ← readOpcode env
  readSections env fuel opcode currentDb delivered

/-- The entry is delivered, and the loop goes on with what comes after it; also as the first
one, when the auxiliary fields are still being read. -/
structure Survives (kv : RdbKeyValue) : Prop where
  next : ∀ fuel currentDb delivered rest stale sum,
    readNext env (fuel + 1) currentDb delivered ⟨(writeKv kv).flatten ++ rest, stale, sum⟩ =
      readNext env fuel currentDb (delivered ++ [(currentDb, kv)])
        ⟨rest, stale, (writeKv kv).foldl env.extendCrc32c sum⟩
  first : ∀ auxFuel fuel rest stale sum,
    (do let opcode ← readAuxFields env (auxFuel + 1); readSections env (fuel + 1) opcode 0 [])
        ⟨(writeKv kv).flatten ++ rest, stale, sum⟩ =
      readNext env fuel 0 [(0, kv)] ⟨rest, stale, (writeKv kv).foldl env.extendCrc32c sum⟩

variable {s s' : Source UInt8 UInt32} {kv : RdbKeyValue} {opcode : UInt8}

theorem readByte_input {b : UInt8} (h : readByte env s = some (b, s')) :
    s'.input = s.input.drop 1 := by
  obtain ⟨data, s₁, hfill, hpure⟩ := exists_of_bind h
  cases hpure
  exact (fillNew_cases hfill).1

theorem readUint64_input {v : UInt64} (h : readUint64 env s = some (v, s')) :
    s'.input = s.input.drop 8 := by
  obtain ⟨data, s₁, hfill, hpure⟩ := exists_of_bind h
  cases hpure
  exact (fillNew_cases hfill).1

theorem readLength_of_length {input : Bytes} (hinput : 3 ≤ input.length) (stale : Bytes)
    (sum : UInt32) :
    ∃ len k sum', readLength env ⟨input, stale, sum⟩ = some (len, ⟨input.drop k, stale, sum'⟩) ∧
      1 ≤ k ∧ k ≤ 3 ∧ len.toNat < 65536 ∧ (k = 1 → len.toNat < 64) := by
  obtain ⟨first, second, third, rest, rfl⟩ : ∃ first second third rest,
      input = first :: second :: third :: rest := by
    match input, hinput with
    | first :: second :: third :: rest, _ => exact ⟨first, second, third, rest, rfl⟩
  rw [readLength, bind_of_some (readByte_cons env first _ stale sum)]
  split
  · next hsmall =>
    have hsmall : first.toNat < 0x40 := UInt8.lt_iff_toNat_lt.mp hsmall
    refine ⟨first.toUInt64, 1, _, rfl, by decide, by decide, ?_⟩
    rw [UInt8.toNat_toUInt64]
    omega
  · split
    · rw [bind_of_some (readByte_cons env second _ stale _)]
      exact ⟨_, 2, _, rfl, by decide, by decide, UInt16.toNat_lt _, fun h => absurd h (by decide)⟩
    · rw [bind_of_some (readByte_cons env second _ stale _)]
      split
      · rw [bind_of_some (readByte_cons env third _ stale _)]
        refine ⟨_, 3, _, rfl, by decide, by decide, ?_, fun h => absurd h (by decide)⟩
        rw [UInt64.toNat_or, UInt64.toNat_shiftLeft, UInt8.toNat_toUInt64, UInt8.toNat_toUInt64,
          Nat.shiftLeft_eq]
        have hsecond : second.toNat * 2 ^ 8 % 2 ^ 64 < 2 ^ 16 := by
          have := second.toNat_lt
          omega
        exact Nat.or_lt_two_pow hsecond (Nat.lt_trans third.toNat_lt (by decide))
      · exact ⟨0, 2, _, rfl, by decide, by decide, by decide, by decide⟩

/-- What is known of the `k` bytes of the length of a string that was read. -/
structure LengthBytes (k : ℕ) (str : Bytes) : Prop where
  pos : 1 ≤ k
  le : k ≤ 3
  length : str.length < 65536
  small : k = 1 → str.length < 64

theorem readString_of_length {input : Bytes} (hinput : 65538 ≤ input.length) (stale : Bytes)
    (sum : UInt32) :
    ∃ str k sum', readString env ⟨input, stale, sum⟩ =
      some (str, ⟨input.drop (k + str.length), stale, sum'⟩) ∧ LengthBytes k str := by
  obtain ⟨len, k, sum', hlen, hpos, hle, hlt, hsmall⟩ :=
    readLength_of_length env (show 3 ≤ input.length by omega) stale sum
  rw [readString, bind_of_some hlen]
  split
  · exact ⟨[], k, sum', rfl, hpos, hle, by decide, fun _ => by decide⟩
  · let str := (input.drop k).take len.toNat
    have hlength : str.length = len.toNat := by
      rw [length_take, length_drop]
      omega
    have hstr : input.drop k = [str].flatten ++ input.drop (k + str.length) := by
      rw [flatten_singleton, hlength, ← drop_drop, take_append_drop]
    have hfill : Reads env.extendCrc32c (fill env.extendCrc32c (replicate len.toNat 0)) [str] str :=
      reads_fill str (by rw [length_replicate, hlength])
    rw [← hlength] at hlt hsmall
    rw [hstr]
    exact ⟨str, k, _, hfill ⟨_, stale, sum'⟩, hpos, hle, hlt, hsmall⟩

/-- An entry was read from as many bytes as its strings and their lengths have. -/
structure EntryBytes (kv : RdbKeyValue) (n : ℕ) : Prop where
  key : kv.key ≠ []
  value : kv.value ≠ []
  bytes : ∃ k l, LengthBytes k kv.key ∧ LengthBytes l kv.value ∧
    n = k + kv.key.length + (l + kv.value.length)

theorem readKeyValue_of_length (hs : 200000 ≤ s.input.length) {type : UInt8} {expireMs : Int64}
    (h : readKeyValue env type expireMs s = some (some kv, s')) :
    kv.expireMs = expireMs ∧ ∃ n, EntryBytes kv n ∧ s.input.length = n + s'.input.length := by
  obtain ⟨key, k, sum₁, hkey, hk⟩ :=
    readString_of_length env (show 65538 ≤ s.input.length by omega) s.stale s.sum
  rw [readKeyValue, bind_of_some hkey] at h
  have hkle := hk.le
  have hklength := hk.length
  by_cases hkeyNil : key = []
  · rw [if_pos hkeyNil] at h
    cases h
  · have hrest : 65538 ≤ (s.input.drop (k + key.length)).length := by
      rw [length_drop]
      omega
    obtain ⟨value, l, sum₂, hvalue, hl⟩ := readString_of_length env hrest s.stale sum₁
    rw [if_neg hkeyNil, bind_of_some hvalue] at h
    split at h
    · cases h
    · next hvalueNil =>
      rw [drop_drop] at h
      cases h
      refine ⟨rfl, _, ⟨hkeyNil, hvalueNil, k, l, hk, hl, rfl⟩, ?_⟩
      have hlle := hl.le
      have hllength := hl.length
      dsimp only
      rw [length_drop]
      omega

theorem length_writeLength (n : UInt64) :
    ∃ k, (writeLength n).flatten.length = k ∧
      (k = 1 ∧ n.toNat < 64 ∨ k = 2 ∧ n.toNat < 16384 ∨ k = 9 ∧ 16384 ≤ n.toNat) := by
  rw [writeLength]
  split
  · next hsmall =>
    exact ⟨1, rfl, .inl ⟨rfl, UInt64.lt_iff_toNat_lt.mp hsmall⟩⟩
  · split
    · next hmedium =>
      exact ⟨2, rfl, .inr (.inl ⟨rfl, UInt64.lt_iff_toNat_lt.mp hmedium⟩)⟩
    · next hmedium =>
      refine ⟨9, ?_, .inr (.inr ⟨rfl, ?_⟩)⟩
      · rw [flatten_cons, flatten_singleton, length_append, length_bigEndian]
        rfl
      · exact UInt64.le_iff_toNat_le.mp (UInt64.not_lt.mp hmedium)

theorem restored_length_iff (n : UInt64) : RestoresLength env n ↔ n < 0x4000 := by
  constructor
  · intro h
    by_contra hn
    have hn : ¬ n.toNat < 16384 := fun hlt => hn (UInt64.lt_iff_toNat_lt.mpr hlt)
    obtain ⟨written, hwritten, hcases⟩ := length_writeLength n
    obtain ⟨sum', h⟩ := h [] [] 0
    rw [append_nil] at h
    obtain ⟨len, k, sum'', hread, -, hk, -⟩ :=
      readLength_of_length env (show 3 ≤ (writeLength n).flatten.length by omega) [] 0
    rw [hread] at h
    have hinput := congrArg (fun x => x.map (·.2.input.length)) h
    simp only [Option.map_some, Option.some_inj, length_drop, length_nil, hwritten] at hinput
    omega
  · intro hn rest stale sum
    exact ⟨_, (parses_readLength env).reads (length_of_lt hn) ⟨rest, stale, sum⟩⟩

theorem readNext_cons (fuel : ℕ) (currentDb : Int32) (delivered : List RdbDelivery) (opcode : UInt8)
    (rest stale : Bytes) (sum : UInt32) :
    readNext env fuel currentDb delivered ⟨opcode :: rest, stale, sum⟩ =
      readSections env fuel opcode currentDb delivered
        ⟨rest, stale, env.extendCrc32c sum [opcode]⟩ :=
  bind_of_some (readByte_cons env opcode rest stale sum)

theorem flatten_opcode (opcode : UInt8) (rest : List Bytes) (input : Bytes) :
    ([opcode] :: rest).flatten ++ input = opcode :: (rest.flatten ++ input) := rfl

theorem survives_of_sound (hkv : Sound kv) : Survives env kv := by
  obtain ⟨opcode, rest, hwrites, heof, haux, hsection⟩ := section_of_sound hkv
  -- the pass of the loop for the opcode
  have hpass : ∀ fuel currentDb delivered input stale sum,
      readSections env (fuel + 1) opcode currentDb delivered ⟨rest.flatten ++ input, stale, sum⟩ =
        readNext env fuel currentDb (delivered ++ [(currentDb, kv)])
          ⟨input, stale, rest.foldl env.extendCrc32c sum⟩ := by
    intro fuel currentDb delivered input stale sum
    have hreads := (parses_readSection env opcode currentDb).reads (hsection currentDb)
    rw [readSections, if_neg heof, bind_of_some (hreads ⟨input, stale, sum⟩)]
    rfl
  refine ⟨fun fuel currentDb delivered input stale sum => ?_, fun auxFuel fuel input stale sum => ?_⟩
  · rw [hwrites, flatten_opcode, readNext_cons, hpass]
    rfl
  · have hopcode := reads_readAuxFields_of_ne env haux auxFuel ⟨rest.flatten ++ input, stale, sum⟩
    rw [hwrites]
    exact (bind_of_some hopcode).trans (hpass _ _ _ _ _ _)

/-- The loop before the opcode of the end can only pass over the entry by reading it. -/
theorem Survives.readSection (h : Survives env kv) {rest : List Bytes}
    (hwrites : writeKv kv = [opcode] :: rest) {tail : Bytes} (htail : tail ≠ []) :
    opcode ≠ opcodeEof ∧ ∃ db s', readSection env opcode 0
        ⟨rest.flatten ++ opcodeEof :: tail, [], env.extendCrc32c 0 [opcode]⟩ =
      some ((db, some kv), s') ∧ s'.input.length = tail.length + 1 := by
  have h := h.next 1 0 [] (opcodeEof :: tail) [] 0
  rw [hwrites, flatten_opcode, readNext_cons, readNext_cons, readSections, readSections,
    if_pos rfl] at h
  split at h
  · cases h
  · next heof =>
    obtain ⟨⟨db, entry⟩, s₁, hsection, h⟩ := exists_of_bind h
    obtain ⟨next, s₂, hnext, h⟩ := exists_of_bind h
    rw [readSections] at h
    split at h
    · rw [nil_append, nil_append] at h
      obtain ⟨hentry, hs₂⟩ := Prod.mk.inj (Option.some_inj.mp h)
      have hinput : tail = s₁.input.drop 1 := by
        rw [← readByte_input env hnext, hs₂]
      have hlength := congrArg List.length hinput
      have hpos := length_pos_of_ne_nil htail
      rw [length_drop] at hlength
      cases entry with
      | none => cases hentry
      | some kv' =>
        cases hentry
        exact ⟨heof, db, s₁, hsection, by omega⟩
    · obtain ⟨⟨db', entry'⟩, s₃, -, h⟩ := exists_of_bind h
      obtain ⟨opcode', s₄, -, h⟩ := exists_of_bind h
      cases h

theorem length_writeString {k : ℕ} {str : Bytes} (hstr : LengthBytes k str) :
    ∃ l, (writeString str).flatten.length = l + str.length ∧
      (l = 1 ∧ str.length < 64 ∨ l = 2 ∧ str.length < 16384 ∨ l = 9 ∧ 16384 ≤ str.length) := by
  have htoNat : (UInt64.ofNat str.length).toNat = str.length :=
    UInt64.toNat_ofNat_of_lt' (Nat.lt_trans hstr.length (by decide))
  obtain ⟨l, hl, hcases⟩ := length_writeLength (UInt64.ofNat str.length)
  rw [htoNat] at hcases
  refine ⟨l, ?_, hcases⟩
  rw [writeString, flatten_append, flatten_singleton, length_append, hl]

theorem readSection_expire_of_length (hs : 200009 ≤ s.input.length) {db db' : Int32}
    (h : RdbReader.readSection env opcodeExpireTimeMs db s = some ((db', some kv), s')) :
    ∃ n, EntryBytes kv n ∧ s.input.length = 9 + n + s'.input.length := by
  rw [RdbReader.readSection, if_neg (by decide), if_neg (by decide), if_pos rfl] at h
  obtain ⟨exp, s₁, hexp, h⟩ := exists_of_bind h
  obtain ⟨type, s₂, htype, h⟩ := exists_of_bind h
  obtain ⟨entry, s₃, hentry, h⟩ := exists_of_bind h
  cases h
  have hs₂ : s₂.input.length = s.input.length - 9 := by
    rw [readByte_input env htype, readUint64_input env hexp, drop_drop, length_drop]
  obtain ⟨-, n, hn, hlength⟩ := readKeyValue_of_length env (by omega) hentry
  exact ⟨n, hn, by omega⟩

theorem readSection_type_of_length (hs : 200000 ≤ s.input.length)
    (hopcode : opcode ≠ opcodeExpireTimeMs) {db db' : Int32}
    (h : RdbReader.readSection env opcode db s = some ((db', some kv), s')) :
    opcode ≠ opcodeSelectDb ∧ opcode ≠ opcodeResizeDb ∧ kv.expireMs = -1 ∧
      ∃ n, EntryBytes kv n ∧ s.input.length = n + s'.input.length := by
  rw [RdbReader.readSection] at h
  by_cases hselect : opcode = opcodeSelectDb
  · rw [if_pos hselect] at h
    obtain ⟨len, s₁, -, h⟩ := exists_of_bind h
    cases h
  · rw [if_neg hselect] at h
    by_cases hresize : opcode = opcodeResizeDb
    · rw [if_pos hresize] at h
      obtain ⟨dbSize, s₁, -, h⟩ := exists_of_bind h
      obtain ⟨expiresSize, s₂, -, h⟩ := exists_of_bind h
      cases h
    · rw [if_neg hresize, if_neg hopcode] at h
      obtain ⟨entry, s₁, hentry, h⟩ := exists_of_bind h
      cases h
      exact ⟨hselect, hresize, readKeyValue_of_length env hs hentry⟩

theorem EntryBytes.readable {n : ℕ} (hkv : EntryBytes kv n)
    (hn : (writeString kv.key).flatten.length + (writeString kv.value).flatten.length = n) :
    Readable kv.key ∧ Readable kv.value := by
  obtain ⟨hkey, hvalue, k, l, hk, hl, hbytes⟩ := hkv
  obtain ⟨k', hk', hkey'⟩ := length_writeString hk
  obtain ⟨l', hl', hvalue'⟩ := length_writeString hl
  have hkle := hk.le
  have hlle := hl.le
  exact ⟨⟨hkey, by omega⟩, hvalue, by omega⟩

/-- The strings of an entry whose type was taken for the opcode of an expiry time are not
read again after such a time. -/
theorem EntryBytes.ne_add_nine {n : ℕ} (hkv : EntryBytes kv n) :
    (writeString kv.key).flatten.length + (writeString kv.value).flatten.length ≠ 9 + n := by
  obtain ⟨-, -, k, l, hk, hl, hbytes⟩ := hkv
  obtain ⟨k', hk', hkey'⟩ := length_writeString hk
  obtain ⟨l', hl', hvalue'⟩ := length_writeString hl
  have hkpos := hk.pos
  have hlpos := hl.pos
  have hkle := hk.le
  have hlle := hl.le
  have hksmall := hk.small
  have hlsmall := hl.small
  omega

/-- As the first entry it would be an auxiliary field. -/
theorem not_survives_of_aux (hwrites : writeKv kv = writeAux kv.key kv.value)
    (hkey : Readable kv.key) (hvalue : Readable kv.value) : ¬ Survives env kv := by
  intro h
  obtain ⟨n, hreads⟩ := reads_readBody env (Body.aux (str_of_readable hkey) (str_of_readable hvalue)
    (Body.sections (show opcodeEof ≠ opcodeAux by decide) Sections.eof))
  have hbody := hreads (n + 1) (Nat.le_succ n) (n + 1 + 1) (by omega) ⟨[], [], 0⟩
  have hfirst := h.first n (n + 1) [opcodeEof] [] 0
  rw [hwrites, readNext_cons, readSections, if_pos rfl] at hfirst
  rw [readBody] at hbody
  have heq := hfirst.symm.trans (by simpa [writeAux] using hbody)
  cases heq

theorem sound_of_survives (h : Survives env kv) : Sound kv := by
  obtain ⟨tail, htail⟩ : ∃ tail : Bytes, tail.length = 200010 :=
    ⟨replicate 200010 0, length_replicate⟩
  have hne : tail ≠ [] := ne_nil_of_length_pos (by omega)
  by_cases hpos : 0 ≤ kv.expireMs
  · have hwrites : writeKv kv = [opcodeExpireTimeMs] ::
        (littleEndian 8 kv.expireMs.toUInt64.toNat :: [kv.type] ::
          (writeString kv.key ++ writeString kv.value)) := by
      rw [writeKv, if_pos hpos]
      rfl
    obtain ⟨-, db, s', hsection, hs'⟩ := h.readSection env hwrites hne
    obtain ⟨n, hn, hlength⟩ := readSection_expire_of_length env (by simp [htail]; omega) hsection
    simp only [flatten_cons, flatten_append, length_append, length_cons,
      length_littleEndian, length_nil] at hlength
    obtain ⟨hkey, hvalue⟩ := hn.readable (by omega)
    exact ⟨hkey, hvalue, .inl hpos⟩
  · have hwrites : writeKv kv = [kv.type] :: (writeString kv.key ++ writeString kv.value) := by
      rw [writeKv, if_neg hpos]
      rfl
    obtain ⟨heof, db, s', hsection, hs'⟩ := h.readSection env hwrites hne
    have hinput : ((writeString kv.key ++ writeString kv.value).flatten ++ opcodeEof :: tail).length =
        (writeString kv.key).flatten.length + (writeString kv.value).flatten.length + 200011 := by
      rw [flatten_append, length_append, length_append, length_cons, htail]
    by_cases hexpireTime : kv.type = opcodeExpireTimeMs
    · rw [hexpireTime] at hsection
      obtain ⟨n, hn, hlength⟩ := readSection_expire_of_length env (by dsimp only; omega) hsection
      exact absurd (by dsimp only at hlength; omega) hn.ne_add_nine
    · obtain ⟨hselect, hresize, hexpire, n, hn, hlength⟩ :=
        readSection_type_of_length env (by dsimp only; omega) hexpireTime hsection
      obtain ⟨hkey, hvalue⟩ := hn.readable (by dsimp only at hlength; omega)
      refine ⟨hkey, hvalue, .inr ⟨hexpire, ?_⟩⟩
      simp only [mem_cons, not_mem_nil, or_false, not_or]
      refine ⟨heof, hselect, hexpireTime, hresize, fun haux => ?_⟩
      rw [haux] at hwrites
      exact not_survives_of_aux env hwrites hkey hvalue h

theorem survives_iff (kv : RdbKeyValue) : Survives env kv ↔ Sound kv :=
  ⟨sound_of_survives env, survives_of_sound env⟩

/-- The lengths and the entries that are read back. -/
theorem restores_iff :
    (∀ n, RestoresLength env n ↔ n < 0x4000) ∧ ∀ kv, Survives env kv ↔ Sound kv :=
  ⟨restored_length_iff env, survives_iff env⟩

/-- A length of 15 bits, and an entry with an empty value. -/
theorem not_restored :
    ¬ RestoresLength simpleRdb 16384 ∧ ¬ Survives simpleRdb ⟨0, ascii "k", [], -1⟩ := by
  rw [restored_length_iff, survives_iff]
  decide

end RdbReader
