/-
Snapshot files that `Load` refuses.

* `PersistenceManager.noEffect_iff` — the files of which `LoadRdb` delivers nothing if it fails.

The entries are handed to the callback before the checksum is compared.  A file that ends
too early goes on with what is left in the variables, which may well be an entry.
-/
import AstraDB.RdbSizes
import AstraDB.Snapshot

open Endian SourceReader Rdb RdbWriter Nat List

namespace RdbReader

open RdbLayout

variable (env : RdbEnv)

theorem starves_readString : Starves (readString env) [] [0] := by
  have hlen : Starves (readLength env) [] 1 := by
    refine (starves_readByte env 1).bind ?_
    rw [if_pos (by decide)]
    exact starves_pure 1
  refine hlen.bind ?_
  rw [if_neg (by decide)]
  exact ⟨[], fun sum => ⟨env.extendCrc32c sum [0], fun _ => rfl⟩⟩

/-- Behind the end of the file there may be an entry. -/
theorem starves_readSections (fuel : ℕ) (currentDb : Int32) (delivered : List RdbDelivery) :
    Starves (readSections env (fuel + 2) 0 currentDb delivered) []
      (delivered ++ [(currentDb, ⟨0, [0], [0], -1⟩)]) := by
  have hkv : Starves (readKeyValue env 0 (-1)) [] (some ⟨0, [0], [0], -1⟩) := by
    refine (starves_readString env).bind ?_
    rw [if_neg (by decide)]
    refine (starves_readString env).bind ?_
    rw [if_neg (by decide)]
    exact starves_pure _
  rw [readSections, if_neg (by decide)]
  have hsection : Starves (readSection env 0 currentDb) [] (currentDb, some ⟨0, [0], [0], -1⟩) :=
    hkv.bind (starves_pure _)
  exact hsection.bind ((starves_readByte env opcodeEof).bind (starves_pure _))

/-- With enough fuel, the loop comes to the end of the input and can be made to deliver
something more. -/
def Steers (p : ℕ → List RdbDelivery → RdbReader (List RdbDelivery)) (input : Bytes) : Prop :=
  ∃ n, ∀ fuel ≥ n, ∀ delivered, ∃ entries, entries ≠ [] ∧
    Starves (p fuel delivered) input (delivered ++ entries)

theorem steers_readNext_nil (currentDb : Int32) : Steers (readNext env · currentDb) [] := by
  refine ⟨2, fun fuel hfuel delivered => ?_⟩
  obtain ⟨fuel, rfl⟩ := Nat.exists_eq_add_of_le' hfuel
  exact ⟨_, cons_ne_nil _ [],
    (starves_readByte env 0).bind (starves_readSections env fuel currentDb delivered)⟩

variable {rest : Bytes} {currentDb : Int32} {opcode : UInt8} {input : Bytes} {fuel fuel' : ℕ}
  {s : Source UInt8 UInt32} {file : Bytes} {entries : List RdbDelivery}

theorem steers_readNext_cons (h : Steers (readSections env · opcode currentDb) rest) :
    Steers (readNext env · currentDb) (opcode :: rest) := by
  obtain ⟨n, h⟩ := h
  refine ⟨n, fun fuel hfuel delivered => ?_⟩
  obtain ⟨entries, hne, hstarves⟩ := h fuel hfuel delivered
  exact ⟨entries, hne, (reads_readByte env opcode).bind_starves hstarves⟩

theorem steers_readSections {currentDb' : Int32} {kv : Option RdbKeyValue}
    (hopcode : opcode ≠ opcodeEof)
    (hpass : ∀ {f : Int32 × Option RdbKeyValue → RdbReader (List RdbDelivery)} {delivered},
      Starves (f (currentDb', kv)) rest delivered →
        Starves (readSection env opcode currentDb >>= f) input delivered)
    (h : Steers (readNext env · currentDb') rest) :
    Steers (readSections env · opcode currentDb) input := by
  obtain ⟨n, h⟩ := h
  refine ⟨n + 1, fun fuel hfuel delivered => ?_⟩
  obtain ⟨fuel, rfl⟩ := Nat.exists_eq_add_of_le' (le_trans (le_add_left 1 n) hfuel)
  obtain ⟨entries, hne, hstarves⟩ :=
    h fuel (by omega) (delivered ++ (kv.map (currentDb, ·)).toList)
  refine ⟨(kv.map (currentDb, ·)).toList ++ entries, by simp [hne], ?_⟩
  show Starves (readSections env (fuel + 1) opcode currentDb delivered) input _
  rw [readSections, if_neg hopcode, ← append_assoc]
  exact hpass hstarves

theorem Truncated.steers (h : Truncated env currentDb opcode input) :
    Steers (readSections env · opcode currentDb) input := by
  induction h with
  | inside hopcode h => exact steers_readSections env hopcode h.bind (steers_readNext_nil env _)
  | @behind currentDb opcode chunks r hopcode h =>
    have hreads := (parses_readSection env opcode currentDb).reads h
    rw [← append_nil chunks.flatten]
    exact steers_readSections env hopcode hreads.bind_starves (steers_readNext_nil env r.1)
  | @cons currentDb opcode next chunks rest r hopcode h hs ih =>
    have hreads := (parses_readSection env opcode currentDb).reads h
    exact steers_readSections env hopcode hreads.bind_starves (steers_readNext_cons env ih)

/-- The same for all of the file after the header. -/
def SteersBody (input : Bytes) : Prop :=
  ∃ n, ∀ auxFuel ≥ n, ∀ fuel ≥ n, ∃ entries, entries ≠ [] ∧
    Starves (readBody env auxFuel fuel) input entries

theorem steersBody_nil : SteersBody env [] := by
  refine ⟨2, fun auxFuel haux fuel hfuel => ?_⟩
  obtain ⟨auxFuel, rfl⟩ := Nat.exists_eq_add_of_le' haux
  obtain ⟨fuel, rfl⟩ := Nat.exists_eq_add_of_le' hfuel
  rw [readBody_succ]
  exact ⟨_, cons_ne_nil _ [],
    (starves_readByte env 0).bind (starves_readSections env fuel 0 [])⟩

theorem steersBody_sections (hopcode : opcode ≠ opcodeAux)
    (h : Steers (readSections env · opcode 0) input) : SteersBody env (opcode :: input) := by
  obtain ⟨n, h⟩ := h
  refine ⟨n + 1, fun auxFuel haux fuel hfuel => ?_⟩
  obtain ⟨auxFuel, rfl⟩ := Nat.exists_eq_add_of_le' (le_trans (le_add_left 1 n) haux)
  obtain ⟨entries, hne, hstarves⟩ := h fuel (by omega) []
  exact ⟨entries, hne, (reads_readAuxFields_of_ne env hopcode auxFuel).bind_starves hstarves⟩

theorem steersBody_aux
    (hfield : ∀ {p : RdbReader (List RdbDelivery)} {delivered}, Starves p rest delivered →
      Starves (do let _ ← readString env; let _ ← readString env; p) input delivered)
    (h : SteersBody env rest) : SteersBody env (opcodeAux :: input) := by
  obtain ⟨n, h⟩ := h
  refine ⟨n + 1, fun auxFuel haux fuel hfuel => ?_⟩
  obtain ⟨auxFuel, rfl⟩ := Nat.exists_eq_add_of_le' (le_trans (le_add_left 1 n) haux)
  obtain ⟨entries, hne, hstarves⟩ := h auxFuel (by omega) fuel (by omega)
  refine ⟨entries, hne, ?_⟩
  rw [readBody_succ]
  refine (reads_readByte env opcodeAux).bind_starves ?_
  rw [if_neg (not_not.mpr rfl)]
  exact hfield hstarves

theorem TruncatedBody.steers (h : TruncatedBody env input) : SteersBody env input := by
  have hstr := parses_readString env
  induction h with
  | nil => exact steersBody_nil env
  | sections hopcode h => exact steersBody_sections env hopcode h.steers
  | inKey hkey =>
    obtain ⟨value, hvalue⟩ := hstr.starves_nil
    exact steersBody_aux env (fun hp => hkey.bind (hvalue.bind hp)) (steersBody_nil env)
  | inValue hkey hvalue =>
    exact steersBody_aux env (fun hp => (hstr.reads hkey).bind_starves (hvalue.bind hp))
      (steersBody_nil env)
  | aux hkey hvalue _ ih =>
    exact steersBody_aux env (fun hp => (hstr.reads hkey).bind_starves
      ((hstr.reads hvalue).bind_starves hp)) ih

theorem verifyChecksum_short {data draws : Bytes} (hlength : data.length + draws.length = 4)
    (crc : UInt32) :
    verifyChecksum ⟨data, draws, crc⟩ =
      some (decide (ofLittleEndian (data ++ draws) = crc.toNat), ⟨[], [], crc⟩) := by
  have hfill : fillNew (fun crc _ => crc) 4 ⟨data, draws, crc⟩ =
      some (data ++ draws, ⟨[], [], crc⟩) := by
    rw [fillNew]
    dsimp only
    rw [take_of_length_le (by omega), drop_of_length_le (by omega), if_neg (by omega),
      take_of_length_le (by omega), drop_of_length_le (by omega)]
  rw [verifyChecksum, bind_of_some hfill]
  rfl

/-- Unless the file has the checksum, it may be found to be wrong. -/
theorem exists_verifyChecksum_false (trailer : Bytes) (crc : UInt32)
    (h : trailer.take 4 ≠ littleEndian 4 crc.toNat) :
    ∃ stale s', verifyChecksum ⟨trailer, stale, crc⟩ = some (false, s') := by
  by_cases hlength : 4 ≤ trailer.length
  · have htake : (trailer.take 4).length = 4 := by rw [length_take, min_eq_left hlength]
    have hverify := verifyChecksum_of_length htake (trailer.drop 4) [] crc
    rw [take_append_drop, decide_eq_false] at hverify
    · exact ⟨[], _, hverify⟩
    · intro heq
      rw [← ofLittleEndian_crc] at heq
      exact h (ofLittleEndian_inj (by rw [htake, length_littleEndian]) heq)
  · -- of two ways to go on behind the end, one is not the checksum
    have hdraws : ∀ b : UInt8,
        trailer.length + (replicate (4 - trailer.length) b).length = 4 := by
      intro b
      rw [length_replicate]
      omega
    have hverify := fun b => verifyChecksum_short (hdraws b) crc
    by_cases hzero : ofLittleEndian (trailer ++ replicate (4 - trailer.length) 0) = crc.toNat
    · have hone := hverify 1
      rw [decide_eq_false] at hone
      · exact ⟨_, _, hone⟩
      · intro hcrc
        have heq := ofLittleEndian_inj (by simp) (hzero.trans hcrc.symm)
        obtain ⟨n, hn⟩ : ∃ n, 4 - trailer.length = n + 1 := ⟨3 - trailer.length, by omega⟩
        rw [hn] at heq
        cases append_cancel_left heq
    · have hverify := hverify 0
      rw [decide_eq_false hzero] at hverify
      exact ⟨_, _, hverify⟩

theorem readAuxFields_mono (hfuel : fuel ≤ fuel') {r : UInt8 × Source UInt8 UInt32}
    (h : readAuxFields env fuel s = some r) : readAuxFields env fuel' s = some r := by
  induction fuel generalizing fuel' s with
  | zero => cases h
  | succ fuel ih =>
    obtain ⟨fuel', rfl⟩ := Nat.exists_eq_add_of_le' (le_trans (le_add_left 1 fuel) hfuel)
    rw [readAuxFields] at h ⊢
    obtain ⟨opcode, s₁, hopcode, h⟩ := exists_of_bind h
    rw [bind_of_some hopcode]
    by_cases hne : opcode ≠ opcodeAux
    · rw [if_pos hne, ite_self] at h ⊢
      exact h
    · have heof : opcode ≠ opcodeEof := not_not.mp hne ▸ by decide
      rw [if_neg heof, if_neg hne] at h ⊢
      obtain ⟨key, s₂, hkey, h⟩ := exists_of_bind h
      obtain ⟨value, s₃, hvalue, h⟩ := exists_of_bind h
      rw [bind_of_some hkey, bind_of_some hvalue]
      exact ih (by omega) h

theorem readSections_mono (hfuel : fuel ≤ fuel') {delivered : List RdbDelivery}
    {r : List RdbDelivery × Source UInt8 UInt32}
    (h : readSections env fuel opcode currentDb delivered s = some r) :
    readSections env fuel' opcode currentDb delivered s = some r := by
  induction fuel generalizing fuel' opcode currentDb delivered s with
  | zero => cases h
  | succ fuel ih =>
    obtain ⟨fuel', rfl⟩ := Nat.exists_eq_add_of_le' (le_trans (le_add_left 1 fuel) hfuel)
    rw [readSections] at h ⊢
    by_cases heof : opcode = opcodeEof
    · rw [if_pos heof] at h ⊢
      exact h
    · rw [if_neg heof] at h ⊢
      obtain ⟨⟨db, kv⟩, s₁, hsection, h⟩ := exists_of_bind h
      obtain ⟨next, s₂, hnext, h⟩ := exists_of_bind h
      rw [bind_of_some hsection]
      dsimp only
      rw [bind_of_some hnext]
      exact ih (by omega) h

theorem readBody_mono (hfuel : fuel ≤ fuel') {r : List RdbDelivery × Source UInt8 UInt32}
    (h : readBody env fuel fuel s = some r) : readBody env fuel' fuel' s = some r := by
  obtain ⟨opcode, s₁, haux, h⟩ := exists_of_bind h
  rw [readBody, bind_of_some (readAuxFields_mono env hfuel haux)]
  exact readSections_mono env hfuel h

/-- `Load` does not call the callback if it returns false. -/
def Silent (file : Bytes) : Prop :=
  ∀ fuel stale calls, load env fuel true file stale = some (false, calls) → calls = []

/-- The file does not begin with the header, also if it is shorter; or it has a layout with no
entries or with the right checksum. -/
def Harmless (file : Bytes) : Prop :=
  ¬ file <+: header ∧ ¬ header <+: file ∨
    ∃ chunks entries trailer, file = header ++ (chunks.flatten ++ trailer) ∧ Body chunks entries ∧
      (entries = [] ∨ trailer.take 4 =
        littleEndian 4 (([magic, [version]] ++ chunks).foldl env.extendCrc32c 0).toNat)

/-- All that is read before the checksum. -/
def readFile (fuel : ℕ) : RdbReader (List RdbDelivery) := do
  let ok ← readHeader env
  if ok then readBody env fuel fuel else pure []

theorem load_of_readFile {stale : Bytes} {s' : Source UInt8 UInt32} {verified : Bool}
    (hne : entries ≠ []) (hfile : readFile env fuel ⟨file, stale, 0⟩ = some (entries, s))
    (hverify : verifyChecksum s = some (verified, s')) :
    load env fuel true file stale = some (verified, entries) := by
  obtain ⟨ok, s₁, hheader, hbody⟩ := exists_of_bind hfile
  cases ok with
  | false =>
    cases hbody
    exact absurd rfl hne
  | true =>
    rw [if_pos rfl] at hbody
    exact load_of_body env hheader hbody hverify

theorem load_cases {stale : Bytes} {verified : Bool} {calls : List RdbDelivery}
    (h : load env fuel true file stale = some (verified, calls)) :
    calls = [] ∨ ∃ s₁ s₂ s₃, readHeader env ⟨file, stale, 0⟩ = some (true, s₁) ∧
      readBody env fuel fuel s₁ = some (calls, s₂) ∧ verifyChecksum s₂ = some (verified, s₃) := by
  obtain ⟨⟨r, s⟩, h, hr⟩ := Option.map_eq_some_iff.mp h
  cases hr
  rw [loadFile_eq] at h
  obtain ⟨ok, s₁, hheader, h⟩ := exists_of_bind h
  cases ok with
  | false =>
    cases h
    exact .inl rfl
  | true =>
    obtain ⟨delivered, s₂, hbody, h⟩ := exists_of_bind h
    obtain ⟨verified', s₃, hverify, h⟩ := exists_of_bind h
    cases h
    exact .inr ⟨s₁, s₂, _, hheader, hbody, hverify⟩

theorem silent_of_harmless (h : Harmless env file) : Silent env file := by
  intro fuel stale calls hload
  rcases load_cases env hload with hnil | ⟨s₁, s₂, s₃, hheader, hbody, hverify⟩
  · exact hnil
  · rcases h with ⟨hshort, hlong⟩ | ⟨chunks, entries, trailer, rfl, hlayout, hentries⟩
    · rcases readHeader_true env hheader with h | h
      · exact absurd h hshort
      · exact absurd h hlong
    · -- what is read is what the layout says
      rw [show readHeader env ⟨header ++ (chunks.flatten ++ trailer), stale, 0⟩ = _ from
        reads_readHeader env ⟨chunks.flatten ++ trailer, stale, 0⟩] at hheader
      cases hheader
      obtain ⟨n, hreads⟩ := reads_readBody env hlayout
      have hbody := readBody_mono env (le_max_left fuel n) hbody
      have hfuel := le_max_right fuel n
      rw [hreads _ hfuel _ hfuel ⟨trailer, stale, _⟩] at hbody
      cases hbody
      rcases hentries with hnil | htrailer
      · exact hnil
      · rw [foldl_append] at htrailer
        rw [← take_append_drop 4 trailer, htrailer,
          verifyChecksum_of_length (length_littleEndian 4 _), ofLittleEndian_crc,
          decide_eq_true rfl] at hverify
        cases hverify

theorem not_silent_of_starves (hne : entries ≠ []) (h : Starves (readFile env fuel) file entries) :
    ¬ Silent env file := by
  intro hsilent
  obtain ⟨draws, h⟩ := h
  obtain ⟨crc, h⟩ := h 0
  obtain ⟨stale, s', hverify⟩ :=
    exists_verifyChecksum_false [] crc (fun h => by cases h)
  exact hne (hsilent _ _ _ (load_of_readFile env hne (h stale) hverify))

theorem harmless_of_silent (h : Silent env file) : Harmless env file := by
  by_contra hharmless
  rw [Harmless, not_or, not_and_or, not_not, not_not] at hharmless
  obtain ⟨hheader, hlayout⟩ := hharmless
  by_cases hlong : header <+: file
  · obtain ⟨body, rfl⟩ := hlong
    rcases body_or_truncated env body with ⟨chunks, entries, trailer, rfl, hbody⟩ | htruncated
    · have hbad : ¬ (entries = [] ∨ _) := fun hgood =>
        hlayout ⟨chunks, entries, trailer, rfl, hbody, hgood⟩
      rw [not_or] at hbad
      obtain ⟨hne, htrailer⟩ := hbad
      obtain ⟨stale, s', hverify⟩ := exists_verifyChecksum_false trailer _ htrailer
      obtain ⟨n, hreads⟩ := reads_readBody env hbody
      have hfile : Reads env.extendCrc32c (readFile env n) ([magic, [version]] ++ chunks) entries :=
        (reads_readHeader env).bind (hreads n (le_refl n) n (le_refl n))
      exact hne (h _ _ _ (load_of_readFile env hne (hfile ⟨trailer, stale, 0⟩) hverify))
    · obtain ⟨n, hsteers⟩ := htruncated.steers
      obtain ⟨entries, hne, hstarves⟩ := hsteers n (le_refl n) n (le_refl n)
      exact not_silent_of_starves env hne ((reads_readHeader env).bind_starves hstarves) h
  · have hmagic := prefix_of_short (hheader.resolve_right hlong) hlong
    obtain ⟨n, hsteers⟩ := steersBody_nil env
    obtain ⟨entries, hne, hstarves⟩ := hsteers n (le_refl n) n (le_refl n)
    exact not_silent_of_starves env hne ((starves_readHeader env hmagic).bind hstarves) h

theorem silent_iff (file : Bytes) : Silent env file ↔ Harmless env file :=
  ⟨harmless_of_silent env, silent_of_harmless env⟩

end RdbReader

namespace PersistenceManager

open RdbReader

/-- When a failure is reported, no entry was handed on and no worker has changed. -/
structure NoEffect (env : SnapshotEnv) (file : Bytes) : Prop where
  silent : Silent env.rdb file
  unchanged : ∀ workerCount now fuel stale workers workers',
    loadRdb env workerCount now fuel file stale workers = some (false, workers') →
      workers' = workers

/-- The files that have no effect when they are refused. -/
theorem noEffect_iff (env : SnapshotEnv) (file : Bytes) :
    NoEffect env file ↔ Harmless env.rdb file := by
  rw [← silent_iff]
  refine ⟨NoEffect.silent, fun hsilent => ⟨hsilent, ?_⟩⟩
  intro workerCount now fuel stale workers workers' hload
  obtain ⟨⟨success, deliveries⟩, hread, hresult⟩ := Option.map_eq_some_iff.mp hload
  obtain ⟨rfl, rfl⟩ := Prod.mk.inj hresult
  rw [hsilent fuel stale deliveries hread]
  rfl

/-- A file with one string and a wrong checksum. -/
def corrupted : Bytes :=
  magic ++ [version] ++ [0] ++ [1] ++ ascii "k" ++ [1] ++ ascii "v" ++ [opcodeEof] ++ [0, 0, 0, 0]

theorem not_noEffect : ¬ NoEffect simpleSnapshot corrupted := by
  intro h
  have hread : load simpleRdb 4 true corrupted [] =
      some (false, [(0, ⟨0, ascii "k", ascii "v", -1⟩)]) := by decide +kernel
  have hload : loadRdb simpleSnapshot 1 0 4 corrupted [] (fun _ => Store.empty) =
      some (false, loadCallback simpleSnapshot 1 0 (fun _ => Store.empty)
        (0, ⟨0, ascii "k", ascii "v", -1⟩)) := congrArg (Option.map _) hread
  have hworkers := congrFun (congrFun (h.unchanged _ _ _ _ _ _ hload) 0) (ascii "k")
  have hhas : Stored.has (Store.empty (ascii "k") : Stored simpleDatabase) .strings = true :=
    hworkers ▸ (by decide)
  cases hhas

end PersistenceManager
