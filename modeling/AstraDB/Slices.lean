/-
Indices from either end of a list, and removing the first or the last occurrences.

A negative index counts from the end of the list.

* `slice_eq` — clipping both ends of a slice, in whatever order, changes nothing;
* `filter_eq_eraseLast_iff` — removing all occurrences is removing the last few if there are
  no more.
-/
import Mathlib.Data.Int.Notation
import Mathlib.Data.List.Basic
import Mathlib.Logic.Function.Iterate
import Mathlib.Tactic.Common

open List

namespace Slices

variable {α : Type}

/-- The position that an index stands for; it may be outside of the list. -/
def resolve (n : ℕ) (i : ℤ) : ℤ := if i < 0 then n + i else i

/-- The position, if it is in the list. -/
def position (n : ℕ) (i : ℤ) : Option ℕ :=
  if 0 ≤ resolve n i ∧ resolve n i < n then some (resolve n i).toNat else none

variable (l : List α)

/-- The elements from `start` to `stop`, as far as there are any. -/
def slice (start stop : ℤ) : List α :=
  (l.take (min (resolve l.length stop) (l.length - 1) + 1).toNat).drop
    (max (resolve l.length start) 0).toNat

theorem drop_take_add_one {lo i : ℕ} (hlo : lo ≤ i) (hi : i < l.length) :
    (l.take (i + 1)).drop lo = (l.take i).drop lo ++ l[i]?.toList := by
  rw [take_add_one, drop_append_of_le_length]
  rw [length_take]
  omega

theorem resolve_cases (n : ℕ) (i : ℤ) :
    i < 0 ∧ resolve n i = n + i ∨ 0 ≤ i ∧ resolve n i = i := by
  rw [resolve]
  split <;> omega

theorem isSome_position_iff (n : ℕ) (i : ℤ) : (position n i).isSome ↔ -n ≤ i ∧ i < n := by
  have hi := resolve_cases n i
  rw [position]
  split
  · exact iff_of_true rfl (by omega)
  · exact iff_of_false (by simp) (by omega)

theorem slice_eq {start stop lo hi : ℤ} (hlo : max lo 0 = max (resolve l.length start) 0)
    (hhi : min hi (l.length - 1) = min (resolve l.length stop) (l.length - 1)) :
    (l.take (hi + 1).toNat).drop lo.toNat = slice l start stop := by
  have hdrop : lo.toNat = (max (resolve l.length start) 0).toNat := by omega
  have htake : l.take (hi + 1).toNat =
      l.take (min (resolve l.length stop) (l.length - 1) + 1).toNat := by
    rcases Int.lt_or_le (l.length - 1) hi with h | h
    · rw [← hhi, take_of_length_le (by omega), take_of_length_le (by omega)]
    · rw [← hhi, Int.min_eq_left h]
  rw [slice, hdrop, htake]

theorem slice_of_length_eq_zero {xs : List α} (h : xs.length = 0) (start stop : ℤ) :
    slice xs start stop = [] := by
  rw [length_eq_zero_iff.mp h, slice, take_nil, drop_nil]

theorem slice_of_lt {start stop : ℤ}
    (h : min (resolve l.length stop) (l.length - 1) < max (resolve l.length start) 0) :
    slice l start stop = [] := by
  rw [slice]
  refine drop_of_length_le ?_
  rw [length_take]
  omega

theorem slice_map {β : Type} (f : α → β) (l : List α) (start stop : ℤ) :
    (slice l start stop).map f = slice (l.map f) start stop := by
  rw [slice, slice, length_map, map_drop, map_take]

theorem getElem?_slice (start stop : ℤ) (i : ℕ) : (slice l start stop)[i]? =
      if max (resolve l.length start) 0 + i ≤ min (resolve l.length stop) (l.length - 1) then
        l[(max (resolve l.length start) 0).toNat + i]?
      else none := by
  rw [slice, List.getElem?_drop, List.getElem?_take]
  refine if_congr ?_ rfl rfl
  omega

theorem slice_reverse_of_middle {start stop : ℤ}
    (h : min (resolve l.length stop) (l.length - 1) < max (resolve l.length start) 0 ∨
      max (resolve l.length start) 0 = min (resolve l.length stop) (l.length - 1) ∧
        2 * max (resolve l.length start) 0 + 1 = l.length) :
    slice l start stop = slice l.reverse start stop := by
  refine ext_getElem? fun i => ?_
  rw [getElem?_slice, getElem?_slice, length_reverse]
  split
  · rw [List.getElem?_reverse (by omega)]
    congr 1
    omega
  · rfl

theorem middle_of_slice_reverse {l : List α} (hl : l.Nodup) {start stop : ℤ}
    (h : slice l start stop = slice l.reverse start stop) :
    min (resolve l.length stop) (l.length - 1) < max (resolve l.length start) 0 ∨
      max (resolve l.length start) 0 = min (resolve l.length stop) (l.length - 1) ∧
        2 * max (resolve l.length start) 0 + 1 = l.length := by
  rcases Int.lt_or_le (min (resolve l.length stop) (l.length - 1))
    (max (resolve l.length start) 0) with hempty | hle
  · exact .inl hempty
  · -- the first elements of the two slices, and the second ones
    have hget : ∀ i : ℕ, max (resolve l.length start) 0 + i ≤
        min (resolve l.length stop) (l.length - 1) →
        2 * ((max (resolve l.length start) 0) + i) + 1 = l.length := by
      intro i hi
      have heq := congrArg (fun l' : List α => l'[i]?) h
      rw [getElem?_slice, getElem?_slice, length_reverse, if_pos hi, if_pos hi,
        List.getElem?_reverse (by omega)] at heq
      have := (List.getElem?_inj (by omega) hl).mp heq
      omega
    have hfirst := hget 0 (by omega)
    by_contra hmore
    have hsecond := hget 1 (by omega)
    omega

variable [DecidableEq α] (k : ℕ) (x : α)

/-- Without the first `k` occurrences. -/
def eraseFirst (l : List α) : List α := (fun l => l.erase x)^[k] l

/-- Without the last `k` occurrences. -/
def eraseLast (l : List α) : List α := (eraseFirst k x l.reverse).reverse

@[simp] theorem eraseFirst_nil : eraseFirst k x [] = [] := by
  induction k with
  | zero => rfl
  | succ k ih =>
    rw [eraseFirst, Function.iterate_succ_apply]
    exact ih

theorem eraseFirst_succ_cons_self (l : List α) :
    eraseFirst (k + 1) x (x :: l) = eraseFirst k x l := by
  rw [eraseFirst, Function.iterate_succ_apply, erase_cons_head]
  rfl

theorem eraseFirst_cons_of_ne {x y : α} (h : y ≠ x) (l : List α) :
    eraseFirst k x (y :: l) = y :: eraseFirst k x l := by
  induction k generalizing l with
  | zero => rfl
  | succ k ih =>
    rw [eraseFirst, Function.iterate_succ_apply, erase_cons_tail (by simpa using h)]
    exact ih (l.erase x)

theorem count_eraseFirst (l : List α) : (eraseFirst k x l).count x = l.count x - k := by
  induction k generalizing l with
  | zero => rfl
  | succ k ih =>
    rw [eraseFirst, Function.iterate_succ_apply]
    refine (ih (l.erase x)).trans ?_
    rw [count_erase_self]
    omega

theorem eraseFirst_of_count_le {k : ℕ} {x : α} {l : List α} (h : l.count x ≤ k) :
    eraseFirst k x l = l.filter fun y => y ≠ x := by
  induction l generalizing k with
  | nil => simp
  | cons y l ih =>
    by_cases hy : y = x
    · rw [hy, count_cons_self] at h
      obtain ⟨k, rfl⟩ := Nat.exists_eq_add_of_le' (Nat.le_trans (Nat.le_add_left 1 _) h)
      rw [hy, eraseFirst_succ_cons_self, ih (by omega), filter_cons_of_neg (by simp)]
    · rw [count_cons_of_ne hy] at h
      rw [eraseFirst_cons_of_ne k hy, ih h, filter_cons_of_pos (by simpa using hy)]

theorem filter_eq_eraseLast_iff (l : List α) :
    (l.filter fun y => y ≠ x) = eraseLast k x l ↔ l.count x ≤ k := by
  constructor
  · intro h
    have hcount := congrArg (List.count x) h
    rw [eraseLast, count_reverse, count_eraseFirst, count_reverse,
      count_eq_zero_of_not_mem (by simp)] at hcount
    omega
  · intro h
    rw [eraseLast, eraseFirst_of_count_le (by rwa [count_reverse]), filter_reverse,
      reverse_reverse]

end Slices
