/-
Patterns with two wildcards: one for any word and one for any letter.

* `matches_append_iff` — patterns in a row;
* `matches_plain_iff` — a pattern without wildcards matches itself only;
* `exists_plain_match` — every pattern matches a word in which no wildcard stands, so that
  no search for a wildcard as a letter finds it.
-/
import Mathlib.Data.List.Basic
import Mathlib.Data.List.Infix
import Mathlib.Tactic

namespace Wildcards

variable {α : Type*} {star one : α} {p q w : List α}

inductive Matches (star one : α) : List α → List α → Prop
  | nil : Matches star one [] []
  | star (u : List α) {p v : List α} (h : Matches star one p v) :
      Matches star one (star :: p) (u ++ v)
  | one (c : α) {p v : List α} (h : Matches star one p v) : Matches star one (one :: p) (c :: v)
  | char {c : α} (hstar : c ≠ star) (hone : c ≠ one) {p v : List α} (h : Matches star one p v) :
      Matches star one (c :: p) (c :: v)

def Plain (star one : α) (w : List α) : Prop := star ∉ w ∧ one ∉ w

theorem plain_cons_iff {c : α} :
    Plain star one (c :: w) ↔ (c ≠ star ∧ c ≠ one) ∧ Plain star one w := by
  rw [Plain, Plain, List.mem_cons, List.mem_cons, not_or, not_or, ← ne_eq, ← ne_eq,
    ne_comm (a := star), ne_comm (a := one)]
  exact and_and_and_comm

theorem not_plain_of_sublist (h : q.Sublist p) (hq : ¬ Plain star one q) :
    ¬ Plain star one p := fun hp =>
  hq ⟨fun hmem => hp.1 (h.subset hmem), fun hmem => hp.2 (h.subset hmem)⟩

theorem matches_nil_iff : Matches star one [] w ↔ w = [] := by
  constructor
  · intro h
    cases h
    rfl
  · rintro rfl
    exact .nil

theorem matches_char_iff {c : α} (hstar : c ≠ star) (hone : c ≠ one) :
    Matches star one (c :: p) w ↔ ∃ v, w = c :: v ∧ Matches star one p v := by
  constructor
  · intro h
    cases h with
    | star u h => exact absurd rfl hstar
    | one c h => exact absurd rfl hone
    | char _ _ h => exact ⟨_, rfl, h⟩
  · rintro ⟨v, rfl, h⟩
    exact .char hstar hone h

theorem matches_star_iff (hne : star ≠ one) :
    Matches star one (star :: p) w ↔ ∃ v, v.IsSuffix w ∧ Matches star one p v := by
  constructor
  · intro h
    cases h with
    | star u h => exact ⟨_, List.suffix_append u _, h⟩
    | one c h => exact absurd rfl hne
    | char hstar _ h => exact absurd rfl hstar
  · rintro ⟨v, ⟨u, rfl⟩, h⟩
    exact .star u h

theorem matches_one_iff (hne : star ≠ one) :
    Matches star one (one :: p) w ↔ ∃ c v, w = c :: v ∧ Matches star one p v := by
  constructor
  · intro h
    cases h with
    | star u h => exact absurd rfl hne
    | one c h => exact ⟨c, _, rfl, h⟩
    | char _ hone h => exact absurd rfl hone
  · rintro ⟨c, v, rfl, h⟩
    exact .one c h

theorem Matches.append {u v : List α} (hp : Matches star one p u) (hq : Matches star one q v) :
    Matches star one (p ++ q) (u ++ v) := by
  induction hp with
  | nil => exact hq
  | star x _ ih =>
    rw [List.append_assoc]
    exact .star x ih
  | one c _ ih => exact .one c ih
  | char hstar hone _ ih => exact .char hstar hone ih

theorem matches_append_iff : Matches star one (p ++ q) w ↔
    ∃ u v, w = u ++ v ∧ Matches star one p u ∧ Matches star one q v := by
  constructor
  · intro h
    induction p generalizing w with
    | nil => exact ⟨[], w, rfl, .nil, h⟩
    | cons c p ih =>
      cases h with
      | star x h =>
        obtain ⟨u, v, rfl, hu, hv⟩ := ih h
        exact ⟨x ++ u, v, (List.append_assoc x u v).symm, .star x hu, hv⟩
      | one c h =>
        obtain ⟨u, v, rfl, hu, hv⟩ := ih h
        exact ⟨c :: u, v, rfl, .one c hu, hv⟩
      | char hstar hone h =>
        obtain ⟨u, v, rfl, hu, hv⟩ := ih h
        exact ⟨c :: u, v, rfl, .char hstar hone hu, hv⟩
  · rintro ⟨u, v, rfl, hu, hv⟩
    exact hu.append hv

theorem matches_plain_iff (hp : Plain star one p) : Matches star one p w ↔ w = p := by
  induction p generalizing w with
  | nil => exact matches_nil_iff
  | cons c p ih =>
    obtain ⟨⟨hstar, hone⟩, hrest⟩ := plain_cons_iff.mp hp
    rw [matches_char_iff hstar hone]
    constructor
    · rintro ⟨v, rfl, hv⟩
      rw [(ih hrest).mp hv]
    · rintro rfl
      exact ⟨p, rfl, (ih hrest).mpr rfl⟩

theorem matches_star (w : List α) : Matches star one [star] w := by
  have h : Matches star one [star] (w ++ []) := .star w .nil
  rwa [List.append_nil] at h

/-- Stars can be replaced by nothing, and the other wildcards by some letter. -/
theorem exists_plain_match {c : α} (hstar : c ≠ star) (hone : c ≠ one) (p : List α) :
    ∃ w, Plain star one w ∧ Matches star one p w := by
  induction p with
  | nil => exact ⟨[], ⟨List.not_mem_nil, List.not_mem_nil⟩, .nil⟩
  | cons d p ih =>
    obtain ⟨w, hplain, hw⟩ := ih
    by_cases hd : d = star
    · subst hd
      exact ⟨w, hplain, .star [] hw⟩
    · by_cases hd' : d = one
      · subst hd'
        exact ⟨c :: w, plain_cons_iff.mpr ⟨⟨hstar, hone⟩, hplain⟩, .one c hw⟩
      · exact ⟨d :: w, plain_cons_iff.mpr ⟨⟨hd, hd'⟩, hplain⟩, .char hd hd' hw⟩

end Wildcards
