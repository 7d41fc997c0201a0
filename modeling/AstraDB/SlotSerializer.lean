/-
`SlotSerializer`: the slots of a node as text, with ranges.

`Serialize` sorts the slots and writes every maximal run of consecutive slots as one part, between
commas.  `Deserialize` reads any text that a peer sends.  It is `noexcept`, so that an exception of
`std::stoul` ends the program, and it counts through a range with 16 bits.

* `deserialize_serialize` — the ascending list of the distinct slots is read back;
* `serialize_eq_iff` — a set of slots has one text;
* `deserialize_iff` — the texts for which slots are returned, and only slots.
-/
import AstraDB.Decimal
import AstraDB.HashSlot
import Mathlib.Data.List.Sort

open Decimal List Nat HashSlotCalculator

namespace SlotSerializer

/-! ### `Serialize` -/

/-- `std::unique` with `erase`. -/
def unique : List ℕ → List ℕ
  | [] => []
  | [slot] => [slot]
  | slot :: next :: rest =>
    if slot = next then unique (next :: rest) else slot :: unique (next :: rest)

/-- The inner loop: the end of the run that has come to `stop`, and the slots behind it. -/
def runEnd : ℕ → List ℕ → ℕ × List ℕ
  | stop, [] => (stop, [])
  | stop, next :: rest => if next = stop + 1 then runEnd next rest else (stop, next :: rest)

def partText (start stop : ℕ) : Bytes :=
  if start = stop then natText start else natText start ++ '-'.toUInt8 :: natText stop

theorem length_runEnd_le (stop : ℕ) (rest : List ℕ) :
    (runEnd stop rest).2.length ≤ rest.length := by
  induction rest generalizing stop with
  | nil => exact le_rfl
  | cons next rest ih =>
    rw [runEnd]
    split
    · exact (ih next).trans (le_succ _)
    · exact le_rfl

/-- The outer loop. -/
def serializeLoop : List ℕ → Bytes
  | [] => []
  | start :: rest =>
    let run := runEnd start rest
    partText start run.1 ++ if run.2.isEmpty then [] else ','.toUInt8 :: serializeLoop run.2
termination_by slots => slots.length
decreasing_by exact lt_succ_of_le (length_runEnd_le start rest)

def serialize (slots : List ℕ) : Bytes := serializeLoop (unique (slots.insertionSort (· ≤ ·)))

/-! ### `Deserialize` -/

/-- Why nothing is returned. -/
inductive Halt
  | throws (error : StoulError)
  | outOfFuel
  deriving DecidableEq, Repr

/-- `static_cast<uint16_t>(std::stoul(text))`. -/
def slotOf (text : Bytes) : Except Halt ℕ :=
  match stoul text with
  | .error e => .error (.throws e)
  | .ok v => .ok (v % 65536)

/-- The loop over a range; the counter has 16 bits. -/
def pushRange : ℕ → ℕ → ℕ → List ℕ → Except Halt (List ℕ)
  | 0, _, _, _ => .error .outOfFuel
  | fuel + 1, slot, stop, slots =>
    if slot ≤ stop then pushRange fuel ((slot + 1) % 65536) stop (slots ++ [slot]) else .ok slots

def pushPart (fuel : ℕ) (slots : List ℕ) (part : Bytes) : Except Halt (List ℕ) :=
  let dashPos := part.idxOf '-'.toUInt8
  if dashPos < part.length then do
    let start ← slotOf (part.take dashPos)
    let stop ← slotOf (part.drop (dashPos + 1))
    pushRange fuel start stop slots
  else do
    let slot ← slotOf part
    .ok (slots ++ [slot])

/-- Each loop over a range has the fuel. -/
def deserialize (fuel : ℕ) (data : Bytes) : Except Halt (List ℕ) :=
  if data.isEmpty then .ok [] else (data.splitOn ','.toUInt8).foldlM (pushPart fuel) []

/-! ### Runs -/

def expand (run : ℕ × ℕ) : List ℕ := List.range' run.1 (run.2 + 1 - run.1)

def runs : List ℕ → List (ℕ × ℕ)
  | [] => []
  | start :: rest => (start, (runEnd start rest).1) :: runs (runEnd start rest).2
termination_by slots => slots.length
decreasing_by exact lt_succ_of_le (length_runEnd_le start rest)

theorem runEnd_spec (stop : ℕ) (rest : List ℕ) :
    stop ≤ (runEnd stop rest).1 ∧
      stop :: rest = expand (stop, (runEnd stop rest).1) ++ (runEnd stop rest).2 := by
  have hself : ∀ (stop : ℕ) (rest : List ℕ), stop :: rest = expand (stop, stop) ++ rest := by
    intro stop rest
    rw [expand, Nat.add_sub_cancel_left]
    rfl
  induction rest generalizing stop with
  | nil => exact ⟨le_rfl, hself stop []⟩
  | cons next rest ih =>
    rw [runEnd]
    split
    · next hnext =>
      subst hnext
      obtain ⟨hle, hrest⟩ := ih (stop + 1)
      refine ⟨(Nat.le_succ stop).trans hle, ?_⟩
      have hlength : (runEnd (stop + 1) rest).1 + 1 - stop
          = ((runEnd (stop + 1) rest).1 + 1 - (stop + 1)) + 1 := by
        omega
      rw [expand, hlength, range'_succ, cons_append, hrest, expand]
    · exact ⟨le_rfl, hself stop (next :: rest)⟩

theorem flatMap_runs (slots : List ℕ) : (runs slots).flatMap expand = slots := by
  induction slots using runs.induct with
  | case1 => rw [runs, flatMap_nil]
  | case2 start rest ih =>
    rw [runs, flatMap_cons, ih]
    exact (runEnd_spec start rest).2.symm

variable {slots : List ℕ} {fuel slot stop : ℕ} {slots' : List ℕ}

theorem le_of_mem_runs {run : ℕ × ℕ} (h : run ∈ runs slots) : run.1 ≤ run.2 := by
  induction slots using runs.induct with
  | case1 =>
    rw [runs] at h
    exact absurd h not_mem_nil
  | case2 start rest ih =>
    rw [runs, mem_cons] at h
    rcases h with rfl | h
    · exact (runEnd_spec start rest).1
    · exact ih h

theorem snd_mem_of_mem_runs {run : ℕ × ℕ} (h : run ∈ runs slots) : run.2 ∈ slots := by
  have hle := le_of_mem_runs h
  have hmem : run.2 ∈ (runs slots).flatMap expand :=
    mem_flatMap.mpr ⟨run, h, mem_range'_1.mpr ⟨hle, by omega⟩⟩
  rwa [flatMap_runs] at hmem

theorem runs_ne_nil (h : slots ≠ []) : runs slots ≠ [] := by
  cases slots with
  | nil => exact absurd rfl h
  | cons start rest =>
    rw [runs]
    exact cons_ne_nil _ _

theorem serializeLoop_eq (slots : List ℕ) :
    serializeLoop slots =
      [','.toUInt8].intercalate ((runs slots).map fun run => partText run.1 run.2) := by
  induction slots using runs.induct with
  | case1 =>
    rw [serializeLoop, runs]
    rfl
  | case2 start rest ih =>
    rw [serializeLoop, runs, map_cons]
    dsimp only
    cases hrest : (runEnd start rest).2 with
    | nil =>
      rw [isEmpty_nil, if_pos rfl, append_nil, runs, map_nil,
        intercalate_singleton]
    | cons next rest' =>
      rw [hrest] at ih
      have hne := runs_ne_nil (cons_ne_nil next rest')
      rw [isEmpty_cons, if_neg Bool.false_ne_true, ih, intercalate_cons_of_ne_nil,
        append_assoc, singleton_append]
      · exact fun h => hne (map_eq_nil_iff.mp h)

/-! ### Reading a part -/

theorem pushRange_of_lt (h : stop < slot) (slots : List ℕ) :
    pushRange (fuel + 1) slot stop slots = .ok slots := by
  rw [pushRange, if_neg (not_le.mpr h)]

theorem pushRange_eq (hstop : stop < 65535) (hfuel : stop + 1 - slot < fuel) (slots : List ℕ) :
    pushRange fuel slot stop slots = .ok (slots ++ expand (slot, stop)) := by
  induction fuel generalizing slot slots with
  | zero => omega
  | succ fuel ih =>
    by_cases hle : slot ≤ stop
    · have hnext : (slot + 1) % 65536 = slot + 1 := mod_eq_of_lt (by omega)
      have hlength : stop + 1 - slot = (stop + 1 - (slot + 1)) + 1 := by omega
      rw [pushRange, if_pos hle, hnext, ih (by omega), expand, expand, hlength, range'_succ,
        append_assoc, singleton_append]
    · have hempty : stop + 1 - slot = 0 := by omega
      rw [pushRange_of_lt (not_le.mp hle), expand, hempty, range'_zero, append_nil]

theorem pushRange_last (fuel slot : ℕ) (hslot : slot ≤ 65535) (slots : List ℕ) :
    pushRange fuel slot 65535 slots = .error .outOfFuel := by
  induction fuel generalizing slot slots with
  | zero => rfl
  | succ fuel ih =>
    rw [pushRange, if_pos hslot]
    exact ih _ (le_of_lt_succ (mod_lt _ (by decide))) _

theorem stop_mem_of_pushRange (h : pushRange fuel slot stop slots = .ok slots') :
    ∃ added, slots' = slots ++ added ∧ (slot ≤ stop → stop ∈ added) := by
  induction fuel generalizing slot slots with
  | zero => cases h
  | succ fuel ih =>
    rw [pushRange] at h
    split at h
    · obtain ⟨added, rfl, hmem⟩ := ih h
      refine ⟨slot :: added, by rw [append_assoc, singleton_append], fun hle => ?_⟩
      by_cases heq : stop = slot
      · exact heq ▸ mem_cons_self
      · refine mem_cons_of_mem _ (hmem ?_)
        exact (mod_le _ _).trans (by omega)
    · next hlt =>
      cases h
      exact ⟨[], (append_nil _).symm, fun hle => absurd hle hlt⟩

theorem slotOf_natText {n : ℕ} (hn : n < 65536) : slotOf (natText n) = .ok n := by
  rw [slotOf, stoul_natText (hn.trans (by decide))]
  exact congrArg Except.ok (mod_eq_of_lt hn)

theorem notMem_natText {c : UInt8} (hc : isDigit c = false) (n : ℕ) : c ∉ natText n :=
  fun h => absurd (isDigit_of_mem_natText h) (hc ▸ Bool.false_ne_true)

theorem pushPart_partText {start : ℕ} (hle : start ≤ stop) (hstop : stop < 65535)
    (hfuel : stop + 1 < fuel) (slots : List ℕ) :
    pushPart fuel slots (partText start stop) = .ok (slots ++ expand (start, stop)) := by
  have hdash : ∀ n, '-'.toUInt8 ∉ natText n := notMem_natText (by decide)
  rw [pushPart, partText]
  by_cases heq : start = stop
  · subst heq
    have hidx : ¬ (natText start).idxOf '-'.toUInt8 < (natText start).length :=
      fun h => hdash start (idxOf_lt_length_iff.mp h)
    rw [if_pos rfl, if_neg hidx, slotOf_natText (by omega), expand, Nat.add_sub_cancel_left]
    rfl
  · have hidx : (natText start ++ '-'.toUInt8 :: natText stop).idxOf '-'.toUInt8
        = (natText start).length := by
      rw [idxOf_append_of_notMem (hdash start), idxOf_cons_self, add_zero]
    have hlt : (natText start).length
        < (natText start ++ '-'.toUInt8 :: natText stop).length := by
      rw [length_append, length_cons]
      omega
    have hdrop : (natText start ++ '-'.toUInt8 :: natText stop).drop ((natText start).length + 1)
        = natText stop := by
      rw [drop_append, drop_eq_nil_of_le (Nat.le_succ _), Nat.add_sub_cancel_left]
      rfl
    rw [if_neg heq, hidx, if_pos hlt, take_left, hdrop, slotOf_natText (by omega),
      slotOf_natText (by omega)]
    exact pushRange_eq hstop (by omega) slots

theorem comma_notMem_partText (start stop : ℕ) : ','.toUInt8 ∉ partText start stop := by
  have hcomma : ∀ n, ','.toUInt8 ∉ natText n := notMem_natText (by decide)
  rw [partText]
  split
  · exact hcomma start
  · rw [mem_append, mem_cons]
    rintro (h | h | h)
    · exact hcomma start h
    · exact absurd h (by decide)
    · exact hcomma stop h

theorem foldlM_partText (parts : List (ℕ × ℕ))
    (h : ∀ run ∈ parts, run.1 ≤ run.2 ∧ run.2 < 65535 ∧ run.2 + 1 < fuel) (slots : List ℕ) :
    (parts.map fun run => partText run.1 run.2).foldlM (pushPart fuel) slots
      = .ok (slots ++ parts.flatMap expand) := by
  induction parts generalizing slots with
  | nil =>
    rw [flatMap_nil, append_nil]
    rfl
  | cons run parts ih =>
    obtain ⟨hrun, hrest⟩ := forall_mem_cons.mp h
    rw [map_cons, foldlM_cons, pushPart_partText hrun.1 hrun.2.1 hrun.2.2,
      flatMap_cons, ← append_assoc]
    exact ih hrest _

theorem deserialize_serializeLoop (h : ∀ slot ∈ slots, slot < 65535 ∧ slot + 1 < fuel) :
    deserialize fuel (serializeLoop slots) = .ok slots := by
  rw [deserialize]
  by_cases hempty : slots = []
  · subst hempty
    rw [serializeLoop]
    rfl
  · have hparts : (runs slots).map (fun run => partText run.1 run.2) ≠ [] :=
      fun hnil => runs_ne_nil hempty (List.map_eq_nil_iff.mp hnil)
    have hsplit : (serializeLoop slots).splitOn ','.toUInt8
        = (runs slots).map fun run => partText run.1 run.2 := by
      rw [serializeLoop_eq]
      refine List.splitOn_intercalate _ (fun part hpart => ?_) hparts
      obtain ⟨run, -, rfl⟩ := List.mem_map.mp hpart
      exact comma_notMem_partText run.1 run.2
    have hne : (serializeLoop slots).isEmpty = false := by
      cases slots with
      | nil => exact absurd rfl hempty
      | cons start rest =>
        rw [serializeLoop, Bool.eq_false_iff, ne_eq, List.isEmpty_iff, List.append_eq_nil_iff,
          partText]
        rintro ⟨hpart, -⟩
        split at hpart
        · exact natText_ne_nil _ hpart
        · exact natText_ne_nil _ (List.append_eq_nil_iff.mp hpart).1
    rw [hne, if_neg Bool.false_ne_true, hsplit,
      foldlM_partText _ (fun run hrun => ⟨le_of_mem_runs hrun, h _ (snd_mem_of_mem_runs hrun)⟩),
      flatMap_runs, List.nil_append]

/-! ### There and back -/

theorem mem_unique (slots : List ℕ) (slot : ℕ) : slot ∈ unique slots ↔ slot ∈ slots := by
  induction slots using unique.induct with
  | case1 | case2 => rfl
  | case3 rest next ih =>
    rw [unique, if_pos rfl, ih, mem_cons, mem_cons, mem_cons, ← or_assoc, or_self]
  | case4 first next rest hne ih => rw [unique, if_neg hne, mem_cons, ih, ← mem_cons]

theorem pairwise_unique (h : slots.Pairwise (· ≤ ·)) : (unique slots).Pairwise (· < ·) := by
  induction slots using unique.induct with
  | case1 => exact List.Pairwise.nil
  | case2 slot => exact pairwise_singleton _ slot
  | case3 rest next ih =>
    rw [unique, if_pos rfl]
    exact ih h.of_cons
  | case4 first next rest hne ih =>
    rw [unique, if_neg hne, pairwise_cons]
    refine ⟨fun slot hslot => ?_, ih h.of_cons⟩
    have hnext : first < next :=
      lt_of_le_of_ne (rel_of_pairwise_cons h mem_cons_self) hne
    rw [mem_unique, mem_cons] at hslot
    rcases hslot with rfl | hslot
    · exact hnext
    · exact hnext.trans_le (rel_of_pairwise_cons h.of_cons hslot)

/-- Slots in any order come back in ascending order and once each. -/
theorem deserialize_serialize {slots : List ℕ}
    (h : ∀ slot ∈ slots, slot < HashSlotCalculator.kHashSlotCount)
    {fuel : ℕ} (hfuel : HashSlotCalculator.kHashSlotCount < fuel) :
    ∃ result, deserialize fuel (serialize slots) = .ok result ∧
      result.Pairwise (· < ·) ∧ ∀ slot, slot ∈ result ↔ slot ∈ slots := by
  have hmem : ∀ slot, slot ∈ unique (slots.insertionSort (· ≤ ·)) ↔ slot ∈ slots := fun slot =>
    (mem_unique _ slot).trans (mem_insertionSort _)
  refine ⟨unique (slots.insertionSort (· ≤ ·)), deserialize_serializeLoop fun slot hslot => ?_,
    pairwise_unique (pairwise_insertionSort _ slots), hmem⟩
  have hlt := h slot ((hmem slot).mp hslot)
  rw [kHashSlotCount] at hlt hfuel
  omega

theorem deserialize_serialize_mixed :
    ∃ result, deserialize 16385 (serialize [16383, 3, 1, 2, 16382, 7, 3]) = .ok result ∧
      result.Pairwise (· < ·) ∧ ∀ slot, slot ∈ result ↔ slot ∈ [16383, 3, 1, 2, 16382, 7, 3] :=
  deserialize_serialize (by decide) (by decide)

/-- **The text is that of the set**: it tells sets of slots apart, and not their lists. -/
theorem serialize_eq_iff {slots slots' : List ℕ} (h : ∀ slot ∈ slots, slot < kHashSlotCount)
    (h' : ∀ slot ∈ slots', slot < kHashSlotCount) :
    serialize slots = serialize slots' ↔ ∀ slot, slot ∈ slots ↔ slot ∈ slots' := by
  have hmem : ∀ {slots : List ℕ} {slot},
      slot ∈ unique (slots.insertionSort (· ≤ ·)) ↔ slot ∈ slots :=
    (mem_unique _ _).trans (mem_insertionSort _)
  constructor
  · intro heq slot
    have hread : ∀ {slots : List ℕ}, (∀ slot ∈ slots, slot < kHashSlotCount) →
        deserialize (kHashSlotCount + 1) (serialize slots) =
          .ok (unique (slots.insertionSort (· ≤ ·))) := by
      intro slots h
      refine deserialize_serializeLoop fun slot hslot => ?_
      have hlt := h slot (hmem.mp hslot)
      exact ⟨hlt.trans (by decide), Nat.succ_lt_succ hlt⟩
    have hlists := hread h
    rw [heq, hread h', Except.ok.injEq] at hlists
    rw [← hmem, ← hlists, hmem]
  · intro hsame
    have hascending : ∀ slots : List ℕ, (unique (slots.insertionSort (· ≤ ·))).Pairwise (· < ·) :=
      fun slots => pairwise_unique (pairwise_insertionSort _ slots)
    refine congrArg serializeLoop ((hascending _).eq_of_mem_iff (hascending _) fun {slot} => ?_)
    rw [hmem, hmem, hsame]

theorem serialize_eq_iff_two : serialize [3, 1, 3] = serialize [1, 3] ↔
    ∀ slot, slot ∈ [3, 1, 3] ↔ slot ∈ [1, 3] :=
  serialize_eq_iff (by decide) (by decide)

/-! ### Texts of others -/

/-- A part that gives slots only. -/
def Fits (part : Bytes) : Prop :=
  let dashPos := part.idxOf '-'.toUInt8
  if dashPos < part.length then
    ∃ start stop, slotOf (part.take dashPos) = .ok start ∧
      slotOf (part.drop (dashPos + 1)) = .ok stop ∧
      (start ≤ stop → stop < HashSlotCalculator.kHashSlotCount)
  else ∃ slot, slotOf part = .ok slot ∧ slot < HashSlotCalculator.kHashSlotCount

theorem pushPart_of_fits {part : Bytes} (h : Fits part)
    (hfuel : kHashSlotCount < fuel) (slots : List ℕ) :
    ∃ added, pushPart fuel slots part = .ok (slots ++ added) ∧
      ∀ slot ∈ added, slot < kHashSlotCount := by
  unfold Fits at h
  unfold pushPart
  dsimp only at h ⊢
  rw [kHashSlotCount] at h hfuel ⊢
  split at h
  · next hdash =>
    obtain ⟨start, stop, hstart, hstop, hle⟩ := h
    rw [if_pos hdash, hstart, hstop]
    by_cases hlt : stop < start
    · obtain ⟨fuel, rfl⟩ : ∃ k, fuel = k + 1 := ⟨fuel - 1, by omega⟩
      refine ⟨[], ?_, fun slot hslot => absurd hslot not_mem_nil⟩
      rw [append_nil]
      exact pushRange_of_lt hlt slots
    · have hstop := hle (not_lt.mp hlt)
      refine ⟨expand (start, stop), pushRange_eq (by omega) (by omega) slots, fun slot hslot => ?_⟩
      have hslot := mem_range'_1.mp hslot
      omega
  · next hdash =>
    obtain ⟨slot, hslot, hlt⟩ := h
    rw [if_neg hdash, hslot]
    exact ⟨[slot], rfl, forall_mem_singleton.mpr hlt⟩

theorem fits_of_pushPart {part : Bytes} (h : pushPart fuel slots part = .ok slots') :
    ∃ added, slots' = slots ++ added ∧
      ((∀ slot ∈ added, slot < kHashSlotCount) → Fits part) := by
  unfold pushPart at h
  unfold Fits
  dsimp only at h ⊢
  split at h
  · next hdash =>
    cases hstart : slotOf (part.take (part.idxOf '-'.toUInt8)) with
    | error e =>
      rw [hstart] at h
      cases h
    | ok start =>
      cases hstop : slotOf (part.drop (part.idxOf '-'.toUInt8 + 1)) with
      | error e =>
        rw [hstart, hstop] at h
        cases h
      | ok stop =>
        rw [hstart, hstop] at h
        obtain ⟨added, hadded, hmem⟩ := stop_mem_of_pushRange h
        refine ⟨added, hadded, fun hall => ?_⟩
        rw [if_pos hdash]
        exact ⟨start, stop, rfl, rfl, fun hle => hall stop (hmem hle)⟩
  · next hdash =>
    cases hslot : slotOf part with
    | error e =>
      rw [hslot] at h
      cases h
    | ok slot =>
      rw [hslot] at h
      cases h
      refine ⟨[slot], rfl, fun hall => ?_⟩
      rw [if_neg hdash]
      exact ⟨slot, rfl, hall slot (mem_singleton_self slot)⟩

theorem foldlM_of_fits {parts : List Bytes} (h : ∀ part ∈ parts, Fits part)
    (hfuel : kHashSlotCount < fuel) (hslots : ∀ slot ∈ slots, slot < kHashSlotCount) :
    ∃ slots', parts.foldlM (pushPart fuel) slots = .ok slots' ∧
      ∀ slot ∈ slots', slot < kHashSlotCount := by
  induction parts generalizing slots with
  | nil => exact ⟨slots, rfl, hslots⟩
  | cons part parts ih =>
    obtain ⟨hpart, hrest⟩ := forall_mem_cons.mp h
    obtain ⟨added, hpush, hadded⟩ := pushPart_of_fits hpart hfuel slots
    rw [foldlM_cons, hpush]
    exact ih hrest (forall_mem_append.mpr ⟨hslots, hadded⟩)

theorem fits_of_foldlM {parts : List Bytes} (h : parts.foldlM (pushPart fuel) slots = .ok slots')
    (hall : ∀ slot ∈ slots', slot < kHashSlotCount) :
    (∀ slot ∈ slots, slot < kHashSlotCount) ∧ ∀ part ∈ parts, Fits part := by
  induction parts generalizing slots with
  | nil =>
    cases h
    exact ⟨hall, fun part hpart => absurd hpart not_mem_nil⟩
  | cons part parts ih =>
    rw [foldlM_cons] at h
    cases hpush : pushPart fuel slots part with
    | error e =>
      rw [hpush] at h
      cases h
    | ok next =>
      rw [hpush] at h
      obtain ⟨hnext, hrest⟩ := ih h
      obtain ⟨added, rfl, hfits⟩ := fits_of_pushPart hpush
      obtain ⟨hslots, hadded⟩ := forall_mem_append.mp hnext
      exact ⟨hslots, forall_mem_cons.mpr ⟨hfits hadded, hrest⟩⟩

/-- A list of slots is returned if and only if every part is one that gives slots. -/
theorem deserialize_iff (data : Bytes) :
    (∃ fuel slots, deserialize fuel data = .ok slots ∧
        ∀ slot ∈ slots, slot < HashSlotCalculator.kHashSlotCount) ↔
      data = [] ∨ ∀ part ∈ data.splitOn ','.toUInt8, Fits part := by
  by_cases hempty : data = []
  · subst hempty
    exact iff_of_true ⟨0, [], rfl, fun slot hslot => absurd hslot not_mem_nil⟩ (.inl rfl)
  · have hne : data.isEmpty = false := isEmpty_eq_false_iff.mpr hempty
    have hread : ∀ fuel, deserialize fuel data
        = (data.splitOn ','.toUInt8).foldlM (pushPart fuel) [] := fun fuel => by
      rw [deserialize, hne, if_neg Bool.false_ne_true]
    constructor
    · rintro ⟨fuel, slots, h, hall⟩
      rw [hread] at h
      exact .inr (fits_of_foldlM h hall).2
    · rintro (h | h)
      · exact absurd h hempty
      · obtain ⟨slots, hslots, hall⟩ :=
          foldlM_of_fits h (lt_succ_self kHashSlotCount)
            (fun slot hslot => absurd hslot not_mem_nil)
        exact ⟨_, slots, (hread _).trans hslots, hall⟩

/-- An exception, a loop without end, and a number that is no slot. -/
theorem deserialize_fails :
    (∀ fuel, deserialize fuel (ascii "x") = .error (.throws .invalidArgument)) ∧
      (∀ fuel, deserialize fuel (ascii "0-65535") = .error .outOfFuel) ∧
      ∀ fuel, deserialize fuel (ascii "20000") = .ok [20000] := by
  refine ⟨fun fuel => rfl, fun fuel => ?_, fun fuel => rfl⟩
  have hpart : pushPart fuel [] (ascii "0-65535") = pushRange fuel 0 65535 [] := rfl
  have hread : deserialize fuel (ascii "0-65535")
      = pushPart fuel [] (ascii "0-65535") >>= fun slots => pure slots := rfl
  rw [hread, hpart, pushRange_last fuel 0 (by decide)]
  rfl

end SlotSerializer
