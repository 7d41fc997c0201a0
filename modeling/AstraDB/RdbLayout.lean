/-
The layout of a snapshot file, as far as the opcode of the end.

* `RdbLayout` — the layout, and with it the entries of a file;
* `RdbReader.parses_readSection` — the readers of the parts have it;
* `RdbReader.sections_or_truncated`, `body_or_truncated` — a file has it, or ends too early.
-/
import AstraDB.RdbFormat

open Endian SourceReader Rdb List Layout

/-! ### The layout of a file -/

namespace RdbLayout

inductive Length : List Bytes → UInt64 → Prop
  | one {first : UInt8} (h : first < 0x40) : Length [[first]] first.toUInt64
  | two {first second : UInt8} (hle : ¬ first < 0x40) (hlt : first < 0x80) :
    Length [[first], [second]]
      ((first.toUInt16 <<< 8 ||| second.toUInt16) &&& 0x3FFF).toUInt64
  | three {first second third : UInt8} (h : ¬ first < 0x80) (hsecond : second ≠ 0x80) :
    Length [[first], [second], [third]] (second.toUInt64 <<< 8 ||| third.toUInt64)
  | special {first : UInt8} (h : ¬ first < 0x80) : Length [[first], [0x80]] 0

inductive Str : List Bytes → Bytes → Prop
  | empty {chunks : List Bytes} (h : Length chunks 0) : Str chunks []
  | data {chunks : List Bytes} {len : UInt64} {str : Bytes} (h : Length chunks len)
    (hlen : len ≠ 0) (hstr : str.length = len.toNat) : Str (chunks ++ [str]) str

/-- A key and a value; what has an empty one is no entry. -/
inductive KeyValue (type : UInt8) (expireMs : Int64) : List Bytes → Option RdbKeyValue → Prop
  | noKey {chunks : List Bytes} (h : Str chunks []) : KeyValue type expireMs chunks none
  | noValue {chunks chunks' : List Bytes} {key : Bytes} (hkey : Str chunks key) (hne : key ≠ [])
    (hvalue : Str chunks' []) : KeyValue type expireMs (chunks ++ chunks') none
  | entry {chunks chunks' : List Bytes} {key value : Bytes} (hkey : Str chunks key)
    (hne : key ≠ []) (hvalue : Str chunks' value) (hvalueNe : value ≠ []) :
    KeyValue type expireMs (chunks ++ chunks') (some ⟨type, key, value, expireMs⟩)

/-- What comes between an opcode and the next one: the database that is current then, and the
entry. -/
inductive Section (currentDb : Int32) : UInt8 → List Bytes → Int32 × Option RdbKeyValue → Prop
  | selectDb {chunks : List Bytes} {len : UInt64} (h : Length chunks len) :
    Section currentDb opcodeSelectDb chunks (len.toUInt32.toInt32, none)
  | resizeDb {chunks chunks' : List Bytes} {dbSize expiresSize : UInt64} (h : Length chunks dbSize)
    (h' : Length chunks' expiresSize) :
    Section currentDb opcodeResizeDb (chunks ++ chunks') (currentDb, none)
  | expireTime {exp : Bytes} {type : UInt8} {chunks : List Bytes} {kv : Option RdbKeyValue}
    (hexp : exp.length = 8)
    (h : KeyValue type (UInt64.ofNat (ofLittleEndian exp)).toInt64 chunks kv) :
    Section currentDb opcodeExpireTimeMs (exp :: [type] :: chunks) (currentDb, kv)
  | type {type : UInt8} {chunks : List Bytes} {kv : Option RdbKeyValue}
    (hselect : type ≠ opcodeSelectDb) (hresize : type ≠ opcodeResizeDb)
    (hexpire : type ≠ opcodeExpireTimeMs) (h : KeyValue type (-1) chunks kv) :
    Section currentDb type chunks (currentDb, kv)

/-- All that comes after an opcode, to the opcode of the end, and the entries in it. -/
inductive Sections : Int32 → UInt8 → List Bytes → List RdbDelivery → Prop
  | eof {currentDb : Int32} : Sections currentDb opcodeEof [] []
  | cons {currentDb currentDb' : Int32} {opcode next : UInt8} {chunks chunks' : List Bytes}
    {kv : Option RdbKeyValue} {entries : List RdbDelivery} (hopcode : opcode ≠ opcodeEof)
    (h : Section currentDb opcode chunks (currentDb', kv))
    (hs : Sections currentDb' next chunks' entries) :
    Sections currentDb opcode (chunks ++ [next] :: chunks')
      ((kv.map (currentDb, ·)).toList ++ entries)

/-- All that comes after the header, to the opcode of the end. -/
inductive Body : List Bytes → List RdbDelivery → Prop
  | aux {chunks chunks' chunks'' : List Bytes} {key value : Bytes} {entries : List RdbDelivery}
    (hkey : Str chunks key) (hvalue : Str chunks' value) (h : Body chunks'' entries) :
    Body ([opcodeAux] :: (chunks ++ (chunks' ++ chunks''))) entries
  | sections {opcode : UInt8} {chunks : List Bytes} {entries : List RdbDelivery}
    (hopcode : opcode ≠ opcodeAux) (h : Sections 0 opcode chunks entries) :
    Body ([opcode] :: chunks) entries

end RdbLayout

namespace RdbReader

open RdbLayout

variable (env : RdbEnv)

/-! ### The readers have these layouts -/

def byteLayout : Layout UInt8 UInt8 := fun chunks b => chunks = [[b]]

variable {chunks : List Bytes} {file : Bytes}

theorem bind_byteLayout_iff {α : Type} {M : UInt8 → Layout UInt8 α} {a : α} :
    byteLayout.bind M chunks a ↔ ∃ b chunks', chunks = [b] :: chunks' ∧ M b chunks' a := by
  constructor
  · rintro ⟨_, b, chunks, rfl, rfl, hM⟩
    exact ⟨b, chunks, rfl, hM⟩
  · rintro ⟨b, chunks, rfl, hM⟩
    exact ⟨[[b]], b, chunks, rfl, rfl, hM⟩

theorem parses_readByte : Parses env.extendCrc32c (readByte env) byteLayout := by
  refine ((parses_fillNew 1).bind fun data => parses_pure (data.headD 0)).of_iff fun chunks b => ?_
  rw [bind_pure_iff]
  constructor
  · rintro rfl
    exact ⟨[b], ⟨rfl, rfl⟩, rfl⟩
  · rintro ⟨data, ⟨rfl, hdata⟩, rfl⟩
    obtain ⟨b, rfl⟩ := length_eq_one_iff.mp hdata
    rfl

theorem reads_readByte (b : UInt8) : Reads env.extendCrc32c (readByte env) [[b]] b :=
  (parses_readByte env).reads rfl

theorem readByte_cons (b : UInt8) (rest stale : Bytes) (sum : UInt32) :
    readByte env ⟨b :: rest, stale, sum⟩ = some (b, ⟨rest, stale, env.extendCrc32c sum [b]⟩) :=
  reads_readByte env b ⟨rest, stale, sum⟩

theorem parses_readUint64 : Parses env.extendCrc32c (readUint64 env) fun chunks v =>
    ∃ exp, Layout.chunk 8 chunks exp ∧ v = UInt64.ofNat (ofLittleEndian exp) :=
  ((parses_fillNew 8).bind fun data =>
    parses_pure (UInt64.ofNat (ofLittleEndian data))).of_iff fun _ _ => bind_pure_iff.symm

theorem parses_readLength : Parses env.extendCrc32c (readLength env) Length := by
  refine ((parses_readByte env).bind fun first => parses_ite (parses_pure _)
    (parses_ite ((parses_readByte env).bind fun second => parses_pure _)
      ((parses_readByte env).bind fun second => parses_ite
        ((parses_readByte env).bind fun third => parses_pure _) (parses_pure _)))).of_iff
    fun chunks len => ?_
  rw [bind_byteLayout_iff]
  constructor
  · intro h
    cases h with
    | @one first h =>
      refine ⟨first, [], rfl, ?_⟩
      rw [if_pos h]
      exact ⟨rfl, rfl⟩
    | @two first second hle hlt =>
      refine ⟨first, [[second]], rfl, ?_⟩
      rw [if_neg hle, if_pos hlt]
      exact bind_pure_iff.mpr ⟨second, rfl, rfl⟩
    | @three first second third h hsecond =>
      refine ⟨first, [[second], [third]], rfl, ?_⟩
      rw [if_neg (mt (UInt8.lt_trans · (by decide)) h), if_neg h, bind_byteLayout_iff]
      refine ⟨second, [[third]], rfl, ?_⟩
      rw [if_pos hsecond]
      exact bind_pure_iff.mpr ⟨third, rfl, rfl⟩
    | @special first h =>
      refine ⟨first, [[0x80]], rfl, ?_⟩
      rw [if_neg (mt (UInt8.lt_trans · (by decide)) h), if_neg h, bind_byteLayout_iff]
      refine ⟨0x80, [], rfl, ?_⟩
      rw [if_neg (not_not.mpr rfl)]
      exact ⟨rfl, rfl⟩
  · rintro ⟨first, chunks, rfl, h⟩
    split at h
    · next hsmall =>
      obtain ⟨rfl, rfl⟩ := h
      exact Length.one hsmall
    · next hsmall =>
      split at h
      · next hmedium =>
        rw [bind_pure_iff] at h
        obtain ⟨second, rfl, rfl⟩ := h
        exact Length.two hsmall hmedium
      · next hmedium =>
        rw [bind_byteLayout_iff] at h
        obtain ⟨second, chunks, rfl, h⟩ := h
        split at h
        · next hsecond =>
          rw [bind_pure_iff] at h
          obtain ⟨third, rfl, rfl⟩ := h
          exact Length.three hmedium hsecond
        · next hsecond =>
          obtain ⟨rfl, rfl⟩ := h
          rw [not_not] at hsecond
          rw [hsecond]
          exact Length.special hmedium

theorem parses_readString : Parses env.extendCrc32c (readString env) Str := by
  refine ((parses_readLength env).bind fun len =>
    parses_ite (parses_pure []) (parses_fill _)).of_iff fun chunks str => ?_
  rw [bind_iff]
  constructor
  · intro h
    cases h with
    | empty h =>
      refine ⟨chunks, 0, [], (append_nil chunks).symm, h, ?_⟩
      rw [if_pos rfl]
      exact ⟨rfl, rfl⟩
    | @data chunks len str h hlen hstr =>
      refine ⟨chunks, len, [str], rfl, h, ?_⟩
      rw [if_neg hlen]
      exact ⟨rfl, by rw [hstr, length_replicate]⟩
  · rintro ⟨chunks, len, chunks', rfl, h, h'⟩
    split at h'
    · next hlen =>
      obtain ⟨rfl, rfl⟩ := h'
      rw [append_nil]
      exact Str.empty (hlen ▸ h)
    · next hlen =>
      obtain ⟨rfl, hstr⟩ := h'
      rw [length_replicate] at hstr
      exact Str.data h hlen hstr

theorem parses_readKeyValue (type : UInt8) (expireMs : Int64) :
    Parses env.extendCrc32c (readKeyValue env type expireMs) (KeyValue type expireMs) := by
  refine ((parses_readString env).bind fun key => parses_ite (parses_pure none)
    ((parses_readString env).bind fun value => parses_ite (parses_pure none)
      (parses_pure _))).of_iff fun chunks kv => ?_
  rw [bind_iff]
  constructor
  · intro h
    cases h with
    | noKey h =>
      refine ⟨chunks, [], [], (append_nil chunks).symm, h, ?_⟩
      rw [if_pos rfl]
      exact ⟨rfl, rfl⟩
    | @noValue chunks chunks' key hkey hne hvalue =>
      refine ⟨chunks, key, chunks', rfl, hkey, ?_⟩
      rw [if_neg hne, bind_iff]
      refine ⟨chunks', [], [], (append_nil chunks').symm, hvalue, ?_⟩
      rw [if_pos rfl]
      exact ⟨rfl, rfl⟩
    | @entry chunks chunks' key value hkey hne hvalue hvalueNe =>
      refine ⟨chunks, key, chunks', rfl, hkey, ?_⟩
      rw [if_neg hne, bind_iff]
      refine ⟨chunks', value, [], (append_nil chunks').symm, hvalue, ?_⟩
      rw [if_neg hvalueNe]
      exact ⟨rfl, rfl⟩
  · rintro ⟨chunks, key, chunks', rfl, hkey, h⟩
    split at h
    · next hne =>
      obtain ⟨rfl, rfl⟩ := h
      rw [append_nil]
      exact KeyValue.noKey (hne ▸ hkey)
    · next hne =>
      rw [bind_iff] at h
      obtain ⟨chunks', value, _, rfl, hvalue, h⟩ := h
      split at h
      · next hvalueNe =>
        obtain ⟨rfl, rfl⟩ := h
        rw [append_nil]
        exact KeyValue.noValue hkey hne (hvalueNe ▸ hvalue)
      · next hvalueNe =>
        obtain ⟨rfl, rfl⟩ := h
        rw [append_nil]
        exact KeyValue.entry hkey hne hvalue hvalueNe

theorem parses_readSection (opcode : UInt8) (currentDb : Int32) :
    Parses env.extendCrc32c (readSection env opcode currentDb) (Section currentDb opcode) := by
  have hlength := parses_readLength env
  refine (parses_ite (hlength.bind fun len => parses_pure (len.toUInt32.toInt32, none))
    (parses_ite (hlength.bind fun dbSize => hlength.bind fun expiresSize =>
        parses_pure (currentDb, none))
      (parses_ite ((parses_readUint64 env).bind fun exp => (parses_readByte env).bind fun type =>
          (parses_readKeyValue env type exp.toInt64).bind fun kv => parses_pure (currentDb, kv))
        ((parses_readKeyValue env opcode (-1)).bind fun kv =>
          parses_pure (currentDb, kv))))).of_iff fun chunks r => ?_
  constructor
  · intro h
    cases h with
    | @selectDb chunks len h =>
      rw [if_pos rfl, bind_pure_iff]
      exact ⟨len, h, rfl⟩
    | @resizeDb chunks chunks' dbSize expiresSize h h' =>
      rw [if_neg (by decide), if_pos rfl]
      refine ⟨chunks, dbSize, chunks', rfl, h, bind_pure_iff.mpr ⟨expiresSize, h', rfl⟩⟩
    | @expireTime exp type chunks kv hexp h =>
      rw [if_neg (by decide), if_neg (by decide), if_pos rfl]
      refine ⟨[exp], _, [type] :: chunks, rfl, ⟨exp, ⟨rfl, hexp⟩, rfl⟩, ?_⟩
      exact bind_byteLayout_iff.mpr ⟨type, chunks, rfl, bind_pure_iff.mpr ⟨kv, h, rfl⟩⟩
    | @type type chunks kv hselect hresize hexpire h =>
      rw [if_neg hselect, if_neg hresize, if_neg hexpire, bind_pure_iff]
      exact ⟨kv, h, rfl⟩
  · intro h
    split at h
    · next hselect =>
      rw [bind_pure_iff] at h
      obtain ⟨len, h, rfl⟩ := h
      rw [hselect]
      exact Section.selectDb h
    · next hselect =>
      split at h
      · next hresize =>
        rw [bind_iff] at h
        obtain ⟨chunks, dbSize, chunks', rfl, hdbSize, hrest⟩ := h
        obtain ⟨expiresSize, hexpiresSize, rfl⟩ := bind_pure_iff.mp hrest
        rw [hresize]
        exact Section.resizeDb hdbSize hexpiresSize
      · next hresize =>
        split at h
        · next hexpire =>
          rw [bind_iff] at h
          obtain ⟨_, exp, _, rfl, ⟨data, ⟨rfl, hdata⟩, rfl⟩, htype⟩ := h
          obtain ⟨type, chunks, rfl, hrest⟩ := bind_byteLayout_iff.mp htype
          obtain ⟨kv, hkv, rfl⟩ := bind_pure_iff.mp hrest
          rw [hexpire]
          exact Section.expireTime hdata hkv
        · next hexpire =>
          rw [bind_pure_iff] at h
          obtain ⟨kv, h, rfl⟩ := h
          exact Section.type hselect hresize hexpire h

/-! ### The loops -/

theorem starves_readByte (b : UInt8) : Starves (readByte env) [] b :=
  ⟨[b], fun sum => ⟨env.extendCrc32c sum [b], fun _ => rfl⟩⟩

theorem reads_sections {currentDb : Int32} {opcode : UInt8} {entries : List RdbDelivery}
    (h : Sections currentDb opcode chunks entries) :
    ∃ n, ∀ fuel ≥ n, ∀ delivered, Reads env.extendCrc32c
      (readSections env fuel opcode currentDb delivered) chunks (delivered ++ entries) := by
  induction h with
  | eof =>
    refine ⟨1, fun fuel hfuel delivered => ?_⟩
    obtain ⟨fuel, rfl⟩ := Nat.exists_eq_add_of_le' hfuel
    rw [readSections, if_pos rfl, append_nil]
    exact reads_pure _
  | @cons currentDb currentDb' opcode next chunks chunks' kv entries hopcode h hs ih =>
    obtain ⟨n, ih⟩ := ih
    refine ⟨n + 1, fun fuel hfuel delivered => ?_⟩
    obtain ⟨fuel, rfl⟩ := Nat.exists_eq_add_of_le' (Nat.le_trans (Nat.le_add_left 1 n) hfuel)
    rw [readSections, if_neg hopcode, ← append_assoc]
    refine ((parses_readSection env opcode currentDb).reads h).bind ?_
    exact Reads.bind (reads_readByte env next) (f := fun opcode => _) (ih fuel (by omega) _)

/-- The input after an opcode ends before the opcode of the end: in the section, or behind a
section. -/
inductive Truncated : Int32 → UInt8 → Bytes → Prop
  | inside {currentDb : Int32} {opcode : UInt8} {input : Bytes} {r : Int32 × Option RdbKeyValue}
    (hopcode : opcode ≠ opcodeEof) (h : Starves (readSection env opcode currentDb) input r) :
    Truncated currentDb opcode input
  | behind {currentDb : Int32} {opcode : UInt8} {chunks : List Bytes}
    {r : Int32 × Option RdbKeyValue} (hopcode : opcode ≠ opcodeEof)
    (h : Section currentDb opcode chunks r) : Truncated currentDb opcode chunks.flatten
  | cons {currentDb : Int32} {opcode next : UInt8} {chunks : List Bytes} {rest : Bytes}
    {r : Int32 × Option RdbKeyValue} (hopcode : opcode ≠ opcodeEof)
    (h : Section currentDb opcode chunks r) (hs : Truncated r.1 next rest) :
    Truncated currentDb opcode (chunks.flatten ++ next :: rest)

theorem sections_or_truncated (input : Bytes) (currentDb : Int32) (opcode : UInt8) :
    (∃ chunks entries rest, input = chunks.flatten ++ rest ∧
      Sections currentDb opcode chunks entries) ∨ Truncated env currentDb opcode input := by
  -- the section after the opcode is read, and then there is less of the input
  induction hlength : input.length using Nat.strong_induction_on
    generalizing input currentDb opcode with
  | _ length ih =>
  by_cases hopcode : opcode = opcodeEof
  · exact .inl ⟨[], [], input, rfl, hopcode ▸ Sections.eof⟩
  · rcases (parses_readSection env opcode currentDb).settled input with
      ⟨chunks, ⟨currentDb', kv⟩, rest, rfl, h⟩ | ⟨r, hstarves⟩
    · cases rest with
      | nil =>
        rw [append_nil]
        exact .inr (Truncated.behind hopcode h)
      | cons next rest =>
        have hlt : rest.length < length := by
          rw [← hlength, length_append, length_cons]
          omega
        rcases ih rest.length hlt rest currentDb' next rfl with
          ⟨chunks', entries, rest, rfl, hs⟩ | hs
        · refine .inl ⟨_, _, rest, ?_, Sections.cons hopcode h hs⟩
          rw [flatten_append, append_assoc]
          rfl
        · exact .inr (Truncated.cons hopcode h hs)
    · exact .inr (Truncated.inside hopcode hstarves)

/-- From the auxiliary fields on. -/
def readBody (auxFuel fuel : ℕ) : RdbReader (List RdbDelivery) := do
  let opcode ← readAuxFields env auxFuel
  readSections env fuel opcode 0 []

theorem readBody_succ (auxFuel fuel : ℕ) :
    readBody env (auxFuel + 1) fuel = (do
      let opcode ← readByte env
      if opcode ≠ opcodeAux then readSections env fuel opcode 0 []
      else
        let _ ← readString env
        let _ ← readString env
        readBody env auxFuel fuel) := by
  rw [readBody, readAuxFields, bind_assoc]
  refine bind_congr fun opcode => ?_
  by_cases hopcode : opcode ≠ opcodeAux
  · rw [if_pos hopcode, if_pos hopcode, ite_self, pure_bind]
  · rw [if_neg hopcode, if_neg hopcode, if_neg (not_not.mp hopcode ▸ by decide), bind_assoc]
    refine bind_congr fun key => ?_
    rw [bind_assoc]
    rfl

theorem reads_readAuxFields_of_ne {opcode : UInt8} (hopcode : opcode ≠ opcodeAux) (fuel : ℕ) :
    Reads env.extendCrc32c (readAuxFields env (fuel + 1)) [[opcode]] opcode := by
  refine Reads.bind (reads_readByte env opcode) (f := fun opcode => _) (?_ : Reads _ _ [] _)
  rw [if_pos hopcode, ite_self]
  exact reads_pure opcode

theorem reads_readBody {entries : List RdbDelivery} (h : Body chunks entries) :
    ∃ n, ∀ auxFuel ≥ n, ∀ fuel ≥ n,
      Reads env.extendCrc32c (readBody env auxFuel fuel) chunks entries := by
  induction h with
  | @aux chunks chunks' chunks'' key value entries hkey hvalue h ih =>
    obtain ⟨n, ih⟩ := ih
    refine ⟨n + 1, fun auxFuel haux fuel hfuel => ?_⟩
    obtain ⟨auxFuel, rfl⟩ := Nat.exists_eq_add_of_le' (Nat.le_trans (Nat.le_add_left 1 n) haux)
    rw [readBody_succ]
    refine Reads.bind (reads_readByte env opcodeAux) (f := fun opcode => _)
      (?_ : Reads _ _ (chunks ++ (chunks' ++ chunks'')) _)
    rw [if_neg (not_not.mpr rfl)]
    exact ((parses_readString env).reads hkey).bind
      (((parses_readString env).reads hvalue).bind (ih auxFuel (by omega) fuel (by omega)))
  | @sections opcode chunks entries hopcode h =>
    obtain ⟨n, hreads⟩ := reads_sections env h
    refine ⟨n + 1, fun auxFuel haux fuel hfuel => ?_⟩
    obtain ⟨auxFuel, rfl⟩ := Nat.exists_eq_add_of_le' (Nat.le_trans (Nat.le_add_left 1 n) haux)
    exact (reads_readAuxFields_of_ne env hopcode auxFuel).bind (hreads fuel (by omega) [])

/-- All that comes after the header, if it ends before the opcode of the end. -/
inductive TruncatedBody : Bytes → Prop
  | nil : TruncatedBody []
  | sections {opcode : UInt8} {input : Bytes} (hopcode : opcode ≠ opcodeAux)
    (h : Truncated env 0 opcode input) : TruncatedBody (opcode :: input)
  | inKey {input key : Bytes} (hkey : Starves (readString env) input key) :
    TruncatedBody (opcodeAux :: input)
  | inValue {chunks : List Bytes} {key input value : Bytes} (hkey : Str chunks key)
    (hvalue : Starves (readString env) input value) :
    TruncatedBody (opcodeAux :: (chunks.flatten ++ input))
  | aux {chunks chunks' : List Bytes} {key value input : Bytes} (hkey : Str chunks key)
    (hvalue : Str chunks' value) (h : TruncatedBody input) :
    TruncatedBody (opcodeAux :: (chunks.flatten ++ (chunks'.flatten ++ input)))

theorem body_or_truncated (input : Bytes) :
    (∃ chunks entries rest, input = chunks.flatten ++ rest ∧ Body chunks entries) ∨
      TruncatedBody env input := by
  induction hlength : input.length using Nat.strong_induction_on generalizing input with
  | _ length ih =>
  cases input with
  | nil => exact .inr TruncatedBody.nil
  | cons opcode input =>
    by_cases hopcode : opcode ≠ opcodeAux
    · rcases sections_or_truncated env input 0 opcode with ⟨chunks, entries, rest, rfl, h⟩ | h
      · exact .inl ⟨[opcode] :: chunks, entries, rest, rfl, Body.sections hopcode h⟩
      · exact .inr (TruncatedBody.sections hopcode h)
    · rw [not_not.mp hopcode]
      have hstr := parses_readString env
      rcases hstr.settled input with ⟨chunks, key, rest, rfl, hkey⟩ | ⟨key, hkey⟩
      · rcases hstr.settled rest with ⟨chunks', value, rest, rfl, hvalue⟩ | ⟨value, hvalue⟩
        · have hlt : rest.length < length := by
            rw [← hlength, length_cons, length_append, length_append]
            omega
          rcases ih rest.length hlt rest rfl with ⟨chunks'', entries, rest, rfl, h⟩ | h
          · refine .inl ⟨_, entries, rest, ?_, Body.aux hkey hvalue h⟩
            simp
          · exact .inr (TruncatedBody.aux hkey hvalue h)
        · exact .inr (TruncatedBody.inValue hkey hvalue)
      · exact .inr (TruncatedBody.inKey hkey)

/-! ### The header -/

def header : Bytes := magic ++ [version]

theorem reads_readHeader : Reads env.extendCrc32c (readHeader env) [magic, [version]] true := by
  refine Reads.bind (reads_fillNew magic) (f := fun data => _) (?_ : Reads _ _ [[version]] _)
  rw [if_neg (not_not.mpr rfl)]
  exact (reads_readByte env version).bind (reads_pure true)

theorem prefix_of_short (h : file <+: header) (hshort : ¬ header <+: file) : file <+: magic := by
  rcases prefix_concat_iff.mp h with heq | hlt
  · exact absurd (heq ▸ prefix_rfl) hshort
  · exact hlt

theorem readHeader_true {stale : Bytes} {sum : UInt32} {s : Source UInt8 UInt32}
    (h : readHeader env ⟨file, stale, sum⟩ = some (true, s)) :
    file <+: header ∨ header <+: file := by
  obtain ⟨data, s₁, hfill, h⟩ := exists_of_bind h
  split at h
  · cases h
  · next hmagic =>
    obtain ⟨v, s₂, hv, h⟩ := exists_of_bind h
    have hversion : v = version := of_decide_eq_true (Prod.mk.inj (Option.some_inj.mp h)).1
    obtain ⟨hinput, htake⟩ := fillNew_cases hfill
    rw [not_not.mp hmagic] at htake
    dsimp only at htake
    by_cases hlength : file.length ≤ 5
    · rw [take_of_length_le hlength] at htake
      exact .inl (htake.trans (prefix_append _ _))
    · have hmagic : file.take 5 = magic := by
        refine htake.eq_of_length ?_
        rw [length_take, Nat.min_eq_left (by omega)]
        rfl
      obtain ⟨b, rest, hrest⟩ : ∃ b rest, file.drop 5 = b :: rest :=
        exists_cons_of_length_pos (by rw [length_drop]; omega)
      obtain ⟨input, stale', sum'⟩ := s₁
      dsimp only at hinput
      rw [hinput, hrest, readByte_cons] at hv
      cases hv
      refine .inr ⟨rest, ?_⟩
      rw [← take_append_drop 5 file, hmagic, hrest, hversion, header, append_assoc]
      rfl

theorem starves_readHeader (hfile : file <+: magic) : Starves (readHeader env) file true := by
  obtain ⟨draws, hdraws⟩ := hfile
  have hfill : Starves (fillNew env.extendCrc32c magic.length) file magic := by
    rw [← hdraws]
    exact starves_fillNew file draws
  refine Starves.bind hfill ?_
  rw [if_neg (not_not.mpr rfl)]
  exact (starves_readByte env version).bind (starves_pure true)

/-! ### The whole file -/

/-- What `Load` does after the header was read. -/
def loadRest (verify : Bool) (fuel : ℕ) (ok : Bool) : RdbReader (Bool × List RdbDelivery) :=
  if !ok then pure (false, [])
  else do
    let delivered ← readBody env fuel fuel
    if !verify then pure (true, delivered)
    else
      let verified ← verifyChecksum
      pure (verified, delivered)

theorem loadFile_eq (fuel : ℕ) (verify : Bool) :
    loadFile env fuel verify = readHeader env >>= loadRest env verify fuel := by
  refine bind_congr fun ok => ?_
  rw [loadRest, readBody]
  simp only [bind_assoc]

end RdbReader
