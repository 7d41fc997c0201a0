/-
Longest common subsequences, by the last letters of the two words.

* `IsLongest.concat` — equal last letters;
* `IsLongest.of_ne_left`, `IsLongest.of_ne_right` — one of two different last letters is not
  used;
* `IsLength` — the length of such a subsequence, and how it is computed.
-/
import Mathlib.Data.List.Basic
import Mathlib.Tactic

open List

namespace Subsequences

variable {α : Type*} {x y l l' z : List α} {a b : α} {n k : ℕ}

/-- A common subsequence of `x` and `y`, and none is longer. -/
structure IsLongest (l x y : List α) : Prop where
  left : l.Sublist x
  right : l.Sublist y
  longest : ∀ z : List α, z.Sublist x → z.Sublist y → z.length ≤ l.length

theorem sublist_concat_cases (h : z.Sublist (x ++ [a])) :
    z.Sublist x ∨ ∃ z', z = z' ++ [a] ∧ z'.Sublist x := by
  obtain ⟨z₁, z₂, rfl, h₁, h₂⟩ := sublist_append_iff.mp h
  rcases sublist_singleton.mp h₂ with rfl | rfl
  · rw [append_nil]
    exact .inl h₁
  · exact .inr ⟨z₁, rfl, h₁⟩

/-- Two words that end differently: a common subsequence ends with at most one of the two
letters. -/
theorem sublist_of_ne (hne : a ≠ b) (hx : z.Sublist (x ++ [a])) (hy : z.Sublist (y ++ [b])) :
    z.Sublist x ∨ z.Sublist y := by
  rcases sublist_concat_cases hx with hx' | ⟨z', rfl, -⟩
  · exact .inl hx'
  · rcases sublist_concat_cases hy with hy' | ⟨z'', heq, -⟩
    · exact .inr hy'
    · obtain ⟨-, hlast⟩ := append_inj' heq rfl
      exact absurd (singleton_inj.mp hlast) hne

namespace IsLongest

theorem symm (h : IsLongest l x y) : IsLongest l y x :=
  ⟨h.right, h.left, fun z hy hx => h.longest z hx hy⟩

theorem nil_left (y : List α) : IsLongest [] [] y :=
  ⟨nil_sublist _, nil_sublist y, fun _ hx _ => hx.length_le⟩

theorem nil_right (x : List α) : IsLongest [] x [] := (nil_left x).symm

theorem length_eq (h : IsLongest l x y) (h' : IsLongest l' x y) : l.length = l'.length :=
  Nat.le_antisymm (h'.longest l h.left h.right) (h.longest l' h'.left h'.right)

theorem concat (h : IsLongest l x y) (a : α) :
    IsLongest (l ++ [a]) (x ++ [a]) (y ++ [a]) := by
  refine ⟨h.left.append_right [a], h.right.append_right [a], fun z hx hy => ?_⟩
  rw [length_append, length_singleton]
  -- without its last letter, `z` is common to the shorter words
  have hshorter : z.dropLast.Sublist x ∧ z.dropLast.Sublist y := by
    constructor
    · rcases sublist_concat_cases hx with hx' | ⟨z', rfl, hx'⟩
      · exact (dropLast_sublist z).trans hx'
      · rwa [dropLast_concat]
    · rcases sublist_concat_cases hy with hy' | ⟨z', rfl, hy'⟩
      · exact (dropLast_sublist z).trans hy'
      · rwa [dropLast_concat]
  have hle := h.longest _ hshorter.1 hshorter.2
  rw [length_dropLast] at hle
  omega

section

variable (hne : a ≠ b) (h : IsLongest l x (y ++ [b])) (h' : IsLongest l' (x ++ [a]) y)
include hne h h'

theorem of_ne_left (hle : l'.length ≤ l.length) : IsLongest l (x ++ [a]) (y ++ [b]) := by
  refine ⟨h.left.trans (sublist_append_left x [a]), h.right, fun z hx hy => ?_⟩
  rcases sublist_of_ne hne hx hy with hx' | hy'
  · exact h.longest z hx' hy
  · exact (h'.longest z hx hy').trans hle

theorem of_ne_right (hle : l.length ≤ l'.length) : IsLongest l' (x ++ [a]) (y ++ [b]) :=
  (of_ne_left hne.symm h'.symm h.symm hle).symm

end

end IsLongest

/-- The longest common subsequences of `x` and `y` have `n` letters. -/
def IsLength (n : ℕ) (x y : List α) : Prop := ∃ l, IsLongest l x y ∧ l.length = n

namespace IsLength

theorem nil_left (y : List α) : IsLength 0 [] y := ⟨[], .nil_left y, rfl⟩

theorem nil_right (x : List α) : IsLength 0 x [] := ⟨[], .nil_right x, rfl⟩

theorem eq_length (h : IsLength n x y) (hl : IsLongest l x y) : n = l.length := by
  obtain ⟨l', hl', rfl⟩ := h
  exact hl'.length_eq hl

theorem concat (h : IsLength n x y) (a : α) : IsLength (n + 1) (x ++ [a]) (y ++ [a]) := by
  obtain ⟨l, hl, rfl⟩ := h
  exact ⟨l ++ [a], hl.concat a, by rw [length_append, length_singleton]⟩

theorem max (hne : a ≠ b) (h : IsLength n x (y ++ [b])) (h' : IsLength k (x ++ [a]) y) :
    IsLength (Nat.max n k) (x ++ [a]) (y ++ [b]) := by
  obtain ⟨l, hl, rfl⟩ := h
  obtain ⟨l', hl', rfl⟩ := h'
  rcases Nat.le_total l'.length l.length with hle | hle
  · exact ⟨l, hl.of_ne_left hne hl' hle, (Nat.max_eq_left hle).symm⟩
  · exact ⟨l', hl.of_ne_right hne hl' hle, (Nat.max_eq_right hle).symm⟩

end IsLength

end Subsequences
