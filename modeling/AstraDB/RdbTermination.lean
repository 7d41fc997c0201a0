/-
When `Load` comes to an end.

Behind the end of the file every read succeeds and leaves the variable as it was.  The loops
of `Load` end with an opcode, so they end if that opcode is in the file.

* `RdbReader.terminates_iff` — `Load` terminates, whatever is in its variables, for the files
  that are refused by their header and those that have the layout of a snapshot;
* `RdbReader.not_terminates_header` — it reads zeros for ever where nothing follows the header.
-/
import AstraDB.RdbFailure

open Endian SourceReader Rdb RdbWriter

namespace RdbReader

open RdbLayout

variable (env : RdbEnv)

/-- `Load` returns, if its variables hold the given bytes whenever a read leaves them as they
were. -/
def Terminates (verify : Bool) (file : Bytes) (stale : ℕ → UInt8) : Prop :=
  ∃ n, ∀ fuel ≥ n, ∀ k ≥ n, (load env fuel verify file ((List.range k).map stale)).isSome

/-- The file does not begin with the header, also if it is shorter; or the opcode of the end is
in it. -/
def Delimited (file : Bytes) : Prop :=
  ¬ file <+: header ∧ ¬ header <+: file ∨
    ∃ chunks entries trailer, file = header ++ (chunks.flatten ++ trailer) ∧ Body chunks entries

theorem readByte_zeros (m : ℕ) (sum : UInt32) :
    readByte env ⟨[], List.replicate (m + 1) 0, sum⟩ =
      some (0, ⟨[], List.replicate m 0, env.extendCrc32c sum [0]⟩) := rfl

theorem readSection_zeros (currentDb : Int32) (m : ℕ) (sum : UInt32) :
    readSection env 0 currentDb ⟨[], List.replicate (m + 1) 0, sum⟩ =
      some ((currentDb, none), ⟨[], List.replicate m 0, env.extendCrc32c sum [0]⟩) := rfl

theorem readSections_zeros (fuel : ℕ) (currentDb : Int32) (delivered : List RdbDelivery) (m : ℕ)
    (sum : UInt32) :
    readSections env fuel 0 currentDb delivered ⟨[], List.replicate m 0, sum⟩ = none := by
  induction fuel generalizing delivered m sum with
  | zero => rfl
  | succ fuel ih =>
    rw [readSections, if_neg (by decide)]
    cases m with
    | zero => rfl
    | succ m =>
      rw [bind_of_some (readSection_zeros env currentDb m sum)]
      cases m with
      | zero => rfl
      | succ m =>
        refine (bind_of_some (readByte_zeros env m _)).trans ?_
        exact ih _ _ _

theorem hangs_readNext (currentDb : Int32) :
    Hangs 0 (fun i : ℕ × List RdbDelivery => readNext env i.1 currentDb i.2) [] := by
  refine ⟨[], fun i sum m => ?_⟩
  cases m with
  | zero => rfl
  | succ m =>
    refine (bind_of_some (readByte_zeros env m sum)).trans ?_
    exact readSections_zeros env i.1 currentDb i.2 m _

variable {input : Bytes} {opcode : UInt8} {file : Bytes}

theorem hangs_readSections {rest : Bytes} {currentDb : Int32} {r : Int32 × Option RdbKeyValue}
    (hopcode : opcode ≠ opcodeEof)
    (hpass : ∀ {f : ℕ × List RdbDelivery → Int32 × Option RdbKeyValue →
      RdbReader (List RdbDelivery)}, Hangs 0 (fun i => f i r) rest →
        Hangs 0 (fun i => readSection env opcode currentDb >>= f i) input)
    (h : Hangs 0 (fun i : ℕ × List RdbDelivery => readNext env i.1 r.1 i.2) rest) :
    Hangs 0 (fun i : ℕ × List RdbDelivery => readSections env i.1 opcode currentDb i.2) input := by
  refine (hpass (f := fun (i : ℕ × List RdbDelivery) r =>
    readNext env i.1 r.1 (i.2 ++ (r.2.map (currentDb, ·)).toList))
    (h.of_family fun i => .inr ⟨(i.1, i.2 ++ (r.2.map (currentDb, ·)).toList), rfl⟩)).of_family ?_
  rintro ⟨fuel, delivered⟩
  cases fuel with
  | zero => exact .inl fun s => rfl
  | succ fuel =>
    refine .inr ⟨(fuel, delivered), ?_⟩
    rw [readSections, if_neg hopcode]
    rfl

theorem Truncated.hangs {currentDb : Int32} (h : Truncated env currentDb opcode input) :
    Hangs 0 (fun i : ℕ × List RdbDelivery => readSections env i.1 opcode currentDb i.2) input := by
  induction h with
  | @inside currentDb opcode input r hopcode h =>
    exact hangs_readSections env hopcode h.bind_hangs (hangs_readNext env r.1)
  | @behind currentDb opcode chunks r hopcode h =>
    have hreads := (parses_readSection env opcode currentDb).reads h
    rw [← List.append_nil chunks.flatten]
    exact hangs_readSections env hopcode hreads.bind_hangs (hangs_readNext env r.1)
  | @cons currentDb opcode next chunks rest r hopcode h hs ih =>
    have hreads := (parses_readSection env opcode currentDb).reads h
    exact hangs_readSections env hopcode hreads.bind_hangs
      ((reads_readByte env next).bind_hangs
        (f := fun (i : ℕ × List RdbDelivery) opcode => readSections env i.1 opcode r.1 i.2) ih)

theorem readBody_zeros (auxFuel fuel m : ℕ) (sum : UInt32) :
    readBody env auxFuel fuel ⟨[], List.replicate m 0, sum⟩ = none := by
  cases auxFuel with
  | zero => rfl
  | succ auxFuel =>
    rw [readBody_succ]
    cases m with
    | zero => rfl
    | succ m =>
      refine (bind_of_some (readByte_zeros env m sum)).trans ?_
      rw [if_pos (by decide)]
      exact readSections_zeros env fuel 0 [] m _

/-- One round of the loop of `ReadAuxFields`, with what it reads after the opcode. -/
def auxRound (i : ℕ × ℕ) (opcode : UInt8) : RdbReader (List RdbDelivery) :=
  if opcode ≠ opcodeAux then readSections env i.2 opcode 0 []
  else do
    let _ ← readString env
    let _ ← readString env
    readBody env i.1 i.2

theorem hangs_readBody_cons (h : Hangs 0 (fun i => auxRound env i opcode) input) :
    Hangs 0 (fun i : ℕ × ℕ => readBody env i.1 i.2) (opcode :: input) := by
  refine ((reads_readByte env opcode).bind_hangs (f := auxRound env) h).of_family ?_
  rintro ⟨auxFuel, fuel⟩
  cases auxFuel with
  | zero => exact .inl fun s => rfl
  | succ auxFuel => exact .inr ⟨(auxFuel, fuel), readBody_succ env auxFuel fuel⟩

theorem hangs_readBody_aux {rest : Bytes}
    (hfield : ∀ {p : ℕ × ℕ → RdbReader (List RdbDelivery)}, Hangs 0 p rest →
      Hangs 0 (fun i => do let _ ← readString env; let _ ← readString env; p i) input)
    (h : Hangs 0 (fun i : ℕ × ℕ => readBody env i.1 i.2) rest) :
    Hangs 0 (fun i : ℕ × ℕ => readBody env i.1 i.2) (opcodeAux :: input) :=
  hangs_readBody_cons env ((hfield h).of_family fun i => .inr ⟨i, if_neg (not_not.mpr rfl)⟩)

theorem TruncatedBody.hangs (h : TruncatedBody env input) :
    Hangs 0 (fun i : ℕ × ℕ => readBody env i.1 i.2) input := by
  have hstr := parses_readString env
  have hnil : Hangs 0 (fun i : ℕ × ℕ => readBody env i.1 i.2) [] :=
    ⟨[], fun i sum m => readBody_zeros env i.1 i.2 m sum⟩
  induction h with
  | nil => exact hnil
  | sections hopcode h =>
    exact hangs_readBody_cons env
      (h.hangs.of_family fun i => .inr ⟨(i.2, []), if_pos hopcode⟩)
  | inKey hkey =>
    obtain ⟨value, hvalue⟩ := hstr.starves_nil
    exact hangs_readBody_aux env
      (fun hp => hkey.bind_hangs (f := fun i _ => _) (hvalue.bind_hangs (f := fun i _ => _) hp))
      hnil
  | inValue hkey hvalue =>
    exact hangs_readBody_aux env (fun hp => (hstr.reads hkey).bind_hangs (f := fun i _ => _)
      (hvalue.bind_hangs (f := fun i _ => _) hp)) hnil
  | aux hkey hvalue _ ih =>
    exact hangs_readBody_aux env (fun hp => (hstr.reads hkey).bind_hangs (f := fun i _ => _)
      ((hstr.reads hvalue).bind_hangs (f := fun i _ => _) hp)) ih

theorem not_terminates_of_hangs {verify : Bool}
    (h : Hangs 0 (fun fuel => readHeader env >>= loadRest env verify fuel) file) :
    ∃ stale, ¬ Terminates env verify file stale := by
  obtain ⟨draws, h⟩ := h
  refine ⟨fun i => draws.getD i 0, ?_⟩
  rintro ⟨n, hn⟩
  have hstale : (List.range (draws.length + n)).map (fun i => draws.getD i 0) =
      draws ++ List.replicate n 0 := by
    refine List.ext_getElem (by simp) fun i hi _ => ?_
    rw [List.getElem_map, List.getElem_range, List.getElem_append, List.getD_eq_getElem?_getD]
    split
    · next hlt => rw [List.getElem?_eq_getElem hlt, Option.getD_some]
    · next hge =>
      rw [List.getElem?_eq_none (Nat.le_of_not_lt hge), Option.getD_none, List.getElem_replicate]
  have hsome := hn n (Nat.le_refl n) (draws.length + n) (Nat.le_add_left n _)
  rw [hstale, load, loadFile_eq, show (readHeader env >>= _) _ = none from h n 0 n] at hsome
  exact absurd hsome Bool.false_ne_true

theorem hangs_loadRest (verify : Bool) (h : TruncatedBody env input) :
    Hangs 0 (fun fuel => loadRest env verify fuel true) input := by
  refine Hangs.bind (p := fun fuel => readBody env fuel fuel) (f := fun fuel delivered => _) ?_
  exact h.hangs.of_family fun fuel => .inr ⟨(fuel, fuel), rfl⟩

theorem delimited_of_terminates {verify : Bool} (h : ∀ stale, Terminates env verify file stale) :
    Delimited file := by
  by_contra hdelimited
  rw [Delimited, not_or, not_and_or, not_not, not_not] at hdelimited
  obtain ⟨hheader, hlayout⟩ := hdelimited
  by_cases hlong : header <+: file
  · obtain ⟨body, rfl⟩ := hlong
    rcases body_or_truncated env body with ⟨chunks, entries, trailer, rfl, hbody⟩ | htruncated
    · exact hlayout ⟨chunks, entries, trailer, rfl, hbody⟩
    · obtain ⟨stale, hstale⟩ := not_terminates_of_hangs env
        ((reads_readHeader env).bind_hangs (hangs_loadRest env verify htruncated))
      exact hstale (h stale)
  · have hmagic := prefix_of_short (hheader.resolve_right hlong) hlong
    obtain ⟨stale, hstale⟩ := not_terminates_of_hangs env
      ((starves_readHeader env hmagic).bind_hangs (hangs_loadRest env verify TruncatedBody.nil))
    exact hstale (h stale)

theorem exists_readHeader (file : Bytes) {stale : Bytes} (hstale : 6 ≤ stale.length)
    (sum : UInt32) : ∃ ok s, readHeader env ⟨file, stale, sum⟩ = some (ok, s) := by
  obtain ⟨data, s₁, hfill, hlength⟩ : ∃ data s₁, fillNew env.extendCrc32c 5 ⟨file, stale, sum⟩ =
      some (data, s₁) ∧ stale.length ≤ s₁.stale.length + 5 :=
    exists_fillNew _ (Nat.le_trans (by decide) hstale)
  rw [readHeader, bind_of_some hfill]
  split
  · exact ⟨_, _, rfl⟩
  · obtain ⟨v, s₂, hv, -⟩ := exists_fillNew env.extendCrc32c (show 1 ≤ s₁.stale.length by omega)
    have hbyte : readByte env s₁ = some (v.headD 0, s₂) := bind_of_some hv
    rw [bind_of_some hbyte]
    exact ⟨_, _, rfl⟩

theorem exists_verifyChecksum {s : Source UInt8 UInt32} (hstale : 4 ≤ s.stale.length) :
    ∃ verified s', verifyChecksum s = some (verified, s') := by
  obtain ⟨data, s', hfill, -⟩ := exists_fillNew (fun crc _ => crc) hstale
  exact ⟨_, s', bind_of_some hfill⟩

theorem terminates_of_delimited (h : Delimited file) (verify : Bool) (stale : ℕ → UInt8) :
    Terminates env verify file stale := by
  have hlength : ∀ k, ((List.range k).map stale).length = k := by simp
  rcases h with ⟨hshort, hlong⟩ | ⟨chunks, entries, trailer, rfl, hbody⟩
  · refine ⟨6, fun fuel _ k hk => ?_⟩
    obtain ⟨ok, s, hheader⟩ := exists_readHeader env file ((hlength k).symm ▸ hk) 0
    cases ok with
    | true =>
      rcases readHeader_true env hheader with h | h
      · exact absurd h hshort
      · exact absurd h hlong
    | false =>
      rw [load, loadFile_eq, bind_of_some hheader]
      rfl
  · obtain ⟨n, hreads⟩ := reads_readBody env hbody
    refine ⟨max n 4, fun fuel hfuel k hk => ?_⟩
    have hn : n ≤ fuel := Nat.le_trans (Nat.le_max_left n 4) hfuel
    have hfour : 4 ≤ k := Nat.le_trans (Nat.le_max_right n 4) hk
    have hheader : readHeader env ⟨header ++ (chunks.flatten ++ trailer), _, 0⟩ = some (true, _) :=
      reads_readHeader env ⟨chunks.flatten ++ trailer, (List.range k).map stale, 0⟩
    have hbody := hreads fuel hn fuel hn
      ⟨trailer, (List.range k).map stale, [magic, [version]].foldl env.extendCrc32c 0⟩
    obtain ⟨verified, s', hverify⟩ := exists_verifyChecksum
      (s := ⟨trailer, (List.range k).map stale,
        chunks.foldl env.extendCrc32c ([magic, [version]].foldl env.extendCrc32c 0)⟩)
      ((hlength k).symm ▸ hfour)
    rw [load, loadFile_eq, bind_of_some hheader, loadRest,
      if_neg (by decide), bind_of_some hbody]
    cases verify with
    | false => rfl
    | true =>
      rw [if_neg (by decide), bind_of_some hverify]
      rfl

/-- **Termination of `Load`**, with anything in its variables. -/
theorem terminates_iff (verify : Bool) (file : Bytes) :
    (∀ stale, Terminates env verify file stale) ↔ Delimited file :=
  ⟨delimited_of_terminates env, fun h stale => terminates_of_delimited env h verify stale⟩

/-- A snapshot that is cut off behind the header, with zeros in the variables. -/
theorem not_terminates_header :
    header <+: save simpleRdb true 0 [] ∧ ¬ Terminates simpleRdb true header fun _ => 0 := by
  refine ⟨⟨_, rfl⟩, ?_⟩
  rintro ⟨n, hn⟩
  have hsome := hn n (Nat.le_refl n) n (Nat.le_refl n)
  have hzeros : (List.range n).map (fun _ => (0 : UInt8)) = List.replicate n 0 := by simp
  have hheader : readHeader simpleRdb ⟨header, List.replicate n 0, 0⟩ = some (true, _) :=
    reads_readHeader simpleRdb ⟨[], List.replicate n 0, 0⟩
  have hrest : ∀ sum, loadRest simpleRdb true n true ⟨[], List.replicate n 0, sum⟩ = none := by
    intro sum
    exact congrArg (Option.bind · _) (readBody_zeros simpleRdb n n n sum)
  rw [hzeros, load, loadFile_eq, bind_of_some hheader, hrest] at hsome
  exact absurd hsome Bool.false_ne_true

end RdbReader
