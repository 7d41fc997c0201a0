/-
Patterns with a star.

A word matches a pattern if it is the pattern with each star replaced by some word.

* `Matches.trans` — a pattern that matches a pattern, read as a word, matches all that the
  second one matches.
-/
import Mathlib.Data.List.Basic

namespace Glob

variable {α : Type*} {star : α}

inductive Matches (star : α) : List α → List α → Prop
  | nil : Matches star [] []
  | star (u : List α) {p v : List α} (h : Matches star p v) : Matches star (star :: p) (u ++ v)
  | char {c : α} (hc : c ≠ star) {p v : List α} (h : Matches star p v) :
      Matches star (c :: p) (c :: v)

theorem Matches.append {p q u v : List α} (hp : Matches star p u) (hq : Matches star q v) :
    Matches star (p ++ q) (u ++ v) := by
  induction hp with
  | nil => exact hq
  | star w _ ih =>
    rw [List.append_assoc]
    exact .star w ih
  | char hc _ ih => exact .char hc ih

theorem Matches.refl (star : α) (p : List α) : Matches star p p := by
  induction p with
  | nil => exact .nil
  | cons c p ih =>
    by_cases hc : c = star
    · subst hc
      exact .star [c] ih
    · exact .char hc ih

theorem Matches.single (star : α) (w : List α) : Matches star [star] w := by
  simpa using Matches.star w .nil

theorem Matches.split {p q w : List α} (h : Matches star (p ++ q) w) :
    ∃ u v, w = u ++ v ∧ Matches star p u ∧ Matches star q v := by
  induction p generalizing w with
  | nil => exact ⟨[], w, rfl, .nil, h⟩
  | cons c p ih =>
    cases h with
    | star x h =>
      obtain ⟨u, v, rfl, hu, hv⟩ := ih h
      exact ⟨x ++ u, v, (List.append_assoc x u v).symm, .star x hu, hv⟩
    | char hc h =>
      obtain ⟨u, v, rfl, hu, hv⟩ := ih h
      exact ⟨c :: u, v, rfl, .char hc hu, hv⟩

theorem Matches.of_cons {c : α} {p w : List α} (hc : c ≠ star) (h : Matches star (c :: p) w) :
    ∃ v, w = c :: v ∧ Matches star p v := by
  cases h with
  | star u h => exact absurd rfl hc
  | char _ h => exact ⟨_, rfl, h⟩

theorem Matches.trans {p q w : List α} (hpq : Matches star p q) (hqw : Matches star q w) :
    Matches star p w := by
  induction hpq generalizing w with
  | nil => exact hqw
  | star u _ ih =>
    -- what the star stands for in `q` is itself replaced
    obtain ⟨x, y, rfl, -, hy⟩ := hqw.split
    exact .star x (ih hy)
  | char hc _ ih =>
    obtain ⟨v, rfl, hv⟩ := hqw.of_cons hc
    exact .char hc (ih hv)

end Glob
