/-
A ledger of things that are given to owners, moved to other owners and settled.

* `held` — what is outstanding, entry by entry;
* `held_eq_some_iff` — if nothing is given twice, these are the things that were given and not
  settled since, with their last owners.
-/
import Mathlib.Data.List.Basic
import Mathlib.Data.List.Nodup

open List

namespace Ledger

inductive Entry (κ ν ω : Type)
  | give (key : κ) (value : ν) (owner : ω)
  | move (key : κ) (owner : ω)
  | settle (key : κ)

variable {κ ν ω : Type}

/-- The keys that are given, in order. -/
def given : List (Entry κ ν ω) → List κ
  | [] => []
  | .give key _ _ :: history => key :: given history
  | .move _ _ :: history => given history
  | .settle _ :: history => given history

theorem given_append (history later : List (Entry κ ν ω)) :
    given (history ++ later) = given history ++ given later := by
  induction history with
  | nil => rfl
  | cons entry history ih =>
    cases entry with
    | give key value owner => exact congrArg (key :: ·) ih
    | move | settle => exact ih

theorem given_map_give {α : Type} (key : α → κ) (value : α → ν) (owner : ω) (l : List α) :
    given (l.map fun a => .give (key a) (value a) owner) = l.map key := by
  induction l with
  | nil => rfl
  | cons a l ih => exact congrArg (key a :: ·) ih

theorem given_map_move {α : Type} (key : α → κ) (owner : ω) (l : List α) :
    given (l.map fun a => (.move (key a) owner : Entry κ ν ω)) = [] := by
  induction l with
  | nil => rfl
  | cons a l ih => exact ih

theorem given_map_settle (l : List κ) : given (l.map (.settle : κ → Entry κ ν ω)) = [] := by
  induction l with
  | nil => rfl
  | cons a l ih => exact ih

theorem mem_given {key : κ} {value : ν} {owner : ω} {history : List (Entry κ ν ω)}
    (h : .give key value owner ∈ history) : key ∈ given history := by
  obtain ⟨earlier, later, rfl⟩ := append_of_mem h
  rw [given_append, mem_append]
  exact .inr mem_cons_self

theorem exists_of_mem_given {key : κ} {history : List (Entry κ ν ω)} (h : key ∈ given history) :
    ∃ earlier value owner later, history = earlier ++ .give key value owner :: later := by
  induction history with
  | nil => exact absurd h not_mem_nil
  | cons entry history ih =>
    -- the entry itself, or one after it
    have hlater : key ∈ given history → ∃ earlier value owner later,
        entry :: history = earlier ++ .give key value owner :: later := by
      intro hmem
      obtain ⟨earlier, value, owner, later, rfl⟩ := ih hmem
      exact ⟨entry :: earlier, value, owner, later, rfl⟩
    cases entry with
    | give key' value owner =>
      rcases mem_cons.mp h with rfl | hmem
      · exact ⟨[], value, owner, history, rfl⟩
      · exact hlater hmem
    | move | settle => exact hlater h

variable [DecidableEq κ]

/-- What an entry does to one key. -/
def note (key : κ) (outstanding : Option (ν × ω)) : Entry κ ν ω → Option (ν × ω)
  | .give key' value owner => if key' = key then some (value, owner) else outstanding
  | .move key' owner =>
    if key' = key then outstanding.map fun held => (held.1, owner) else outstanding
  | .settle key' => if key' = key then none else outstanding

/-- What is outstanding after these entries. -/
def held (history : List (Entry κ ν ω)) (key : κ) : Option (ν × ω) := history.foldl (note key) none

/-- The owners that `key` is moved to. -/
def movedTo (key : κ) : List (Entry κ ν ω) → List ω
  | [] => []
  | .move key' owner :: history =>
    if key' = key then owner :: movedTo key history else movedTo key history
  | .give _ _ _ :: history => movedTo key history
  | .settle _ :: history => movedTo key history

/-- `key` was given with this value and is not settled, and this is its last owner. -/
def Holds (history : List (Entry κ ν ω)) (key : κ) (value : ν) (owner : ω) : Prop :=
  ∃ earlier first later, history = earlier ++ .give key value first :: later ∧
    .settle key ∉ later ∧ owner = (movedTo key later).getLast?.getD first

variable {key : κ} {later : List (Entry κ ν ω)}

section

variable (h : key ∉ given later)
include h

theorem foldl_note_none :
    later.foldl (note key) (none : Option (ν × ω)) = none := by
  induction later with
  | nil => rfl
  | cons entry later ih =>
    cases entry with
    | give key' value owner =>
      rw [given, mem_cons, not_or] at h
      rw [foldl_cons, note, if_neg (Ne.symm h.1), ih h.2]
    | move key' owner =>
      rw [foldl_cons, note, Option.map_none, ite_self, ih h]
    | settle key' => rw [foldl_cons, note, ite_self, ih h]

theorem foldl_note_settled (hsettle : .settle key ∈ later)
    (outstanding : Option (ν × ω)) : later.foldl (note key) outstanding = none := by
  induction later generalizing outstanding with
  | nil => exact absurd hsettle not_mem_nil
  | cons entry later ih =>
    rw [foldl_cons]
    rcases mem_cons.mp hsettle with rfl | hlater
    · rw [note, if_pos rfl]
      exact foldl_note_none h
    · cases entry with
      | give key' value owner =>
        rw [given, mem_cons, not_or] at h
        exact ih h.2 hlater _
      | move | settle => exact ih h hlater _

theorem foldl_note_some (hsettle : .settle key ∉ later) (value : ν)
    (owner : ω) : later.foldl (note key) (some (value, owner)) =
      some (value, (movedTo key later).getLast?.getD owner) := by
  induction later generalizing owner with
  | nil => rfl
  | cons entry later ih =>
    rw [mem_cons, not_or] at hsettle
    rw [foldl_cons]
    cases entry with
    | give key' value' owner' =>
      rw [given, mem_cons, not_or] at h
      rw [note, if_neg (Ne.symm h.1), movedTo, ih h.2 hsettle.2]
    | move key' owner' =>
      by_cases hkey : key' = key
      · rw [note, if_pos hkey, Option.map_some, movedTo, if_pos hkey, ih h hsettle.2,
          List.getLast?_cons, Option.getD_some]
      · rw [note, if_neg hkey, movedTo, if_neg hkey, ih h hsettle.2]
    | settle key' =>
      have hkey : key' ≠ key := fun heq => hsettle.1 (heq ▸ rfl)
      rw [note, if_neg hkey, movedTo, ih h hsettle.2]

end

theorem held_append (earlier later : List (Entry κ ν ω)) (key : κ) :
    held (earlier ++ later) key = later.foldl (note key) (held earlier key) := foldl_append

theorem held_eq_some_iff {history : List (Entry κ ν ω)} (hnodup : (given history).Nodup)
    {value : ν} {owner : ω} : held history key = some (value, owner) ↔
      Holds history key value owner := by
  -- a key is not given again after it was given
  have hlater : ∀ {earlier later : List (Entry κ ν ω)} {value : ν} {first : ω},
      history = earlier ++ .give key value first :: later → key ∉ given later := by
    rintro earlier later value first rfl
    rw [given_append, given, nodup_append] at hnodup
    exact (nodup_cons.mp hnodup.2.1).1
  have hheld : ∀ {earlier later : List (Entry κ ν ω)} {value : ν} {first : ω},
      history = earlier ++ .give key value first :: later →
      held history key = later.foldl (note key) (some (value, first)) := by
    rintro earlier later value first rfl
    rw [held_append, foldl_cons, note, if_pos rfl]
  constructor
  · intro h
    have hmem : key ∈ given history := by
      by_contra hmem
      exact Option.some_ne_none _ (h.symm.trans (foldl_note_none hmem))
    obtain ⟨earlier, value', first, later, hsplit⟩ := exists_of_mem_given hmem
    rw [hheld hsplit] at h
    by_cases hsettle : .settle key ∈ later
    · rw [foldl_note_settled (hlater hsplit) hsettle] at h
      exact absurd h (Option.some_ne_none _).symm
    · rw [foldl_note_some (hlater hsplit) hsettle, Option.some_inj, Prod.mk.injEq] at h
      obtain ⟨rfl, rfl⟩ := h
      exact ⟨earlier, first, later, hsplit, hsettle, rfl⟩
  · rintro ⟨earlier, first, later, hsplit, hsettle, rfl⟩
    rw [hheld hsplit, foldl_note_some (hlater hsplit) hsettle]

end Ledger
