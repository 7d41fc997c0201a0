/-
Segments interleaved with separators.

The contents of a search-tree node are those of its subtrees with its keys between
them.  `interleave key sub i m` is the part with the `m` keys from `i` on:
`sub i, key i, sub (i + 1), …, key (i + m - 1), sub (i + m)`.

* `interleave_split` — cutting the sequence at a key;
* `interleave_focus` — `leading`, one segment, `trailing`;
* `interleave_congr` — it depends only on the slots it names, up to a shift;
* `interleave_length` — its length, as a sum over the segments.
-/
import Mathlib.Algebra.BigOperators.Group.Finset.Basic
import Mathlib.Tactic

open List Nat

variable {α : Type*}

/-- `sub i, key i, …, key (i + m - 1), sub (i + m)`. -/
def interleave (key : ℕ → α) (sub : ℕ → List α) : ℕ → ℕ → List α
  | i, 0 => sub i
  | i, m + 1 => sub i ++ key i :: interleave key sub (i + 1) m

@[simp] theorem interleave_zero (key : ℕ → α) (sub : ℕ → List α) (i : ℕ) :
    interleave key sub i 0 = sub i := rfl

theorem interleave_succ (key : ℕ → α) (sub : ℕ → List α) (i m : ℕ) :
    interleave key sub i (m + 1) = sub i ++ key i :: interleave key sub (i + 1) m := rfl

theorem interleave_split (key : ℕ → α) (sub : ℕ → List α) : ∀ (a b i : ℕ),
    interleave key sub i (a + 1 + b)
      = interleave key sub i a ++ key (i + a) :: interleave key sub (i + a + 1) b := by
  intro a
  induction a with
  | zero =>
    intro b i
    rw [show 0 + 1 + b = b + 1 by omega, interleave_succ]
    rfl
  | succ a ih =>
    intro b i
    rw [show a + 1 + 1 + b = (a + 1 + b) + 1 by omega, interleave_succ, ih b (i + 1),
      interleave_succ, show i + 1 + a = i + (a + 1) by omega]
    simp

variable {key key' : ℕ → α} {sub sub' : ℕ → List α} {i n : ℕ}

theorem interleave_congr : ∀ {m i i' : ℕ}, (∀ j < m, key (i + j) = key' (i' + j)) →
    (∀ j ≤ m, sub (i + j) = sub' (i' + j)) →
    interleave key sub i m = interleave key' sub' i' m := by
  intro m
  induction m with
  | zero =>
    intro i i' _ hs
    exact hs 0 le_rfl
  | succ m ih =>
    intro i i' hk hs
    -- the first slots agree, and the run behind them is one slot further
    have h0 : sub i = sub' i' := hs 0 (zero_le _)
    have h1 : key i = key' i' := hk 0 (succ_pos m)
    rw [interleave_succ, interleave_succ, h0, h1]
    congr 2
    refine ih (fun j hj => ?_) (fun j hj => ?_)
    · have := hk (j + 1) (by omega)
      rwa [show i + (j + 1) = i + 1 + j by omega,
        show i' + (j + 1) = i' + 1 + j by omega] at this
    · have := hs (j + 1) (by omega)
      rwa [show i + (j + 1) = i + 1 + j by omega,
        show i' + (j + 1) = i' + 1 + j by omega] at this

/-- What stands before segment `p`: `sub 0, key 0, …, sub (p - 1), key (p - 1)`. -/
def leading (key : ℕ → α) (sub : ℕ → List α) : ℕ → List α
  | 0 => []
  | p + 1 => leading key sub p ++ (sub p ++ [key p])

/-- What stands after segment `p` when `m` keys follow it:
`key p, sub (p + 1), …, key (p + m - 1), sub (p + m)`. -/
def trailing (key : ℕ → α) (sub : ℕ → List α) : ℕ → ℕ → List α
  | _, 0 => []
  | p, m + 1 => key p :: (sub (p + 1) ++ trailing key sub (p + 1) m)

theorem interleave_eq_trailing (key : ℕ → α) (sub : ℕ → List α) : ∀ (m i : ℕ),
    interleave key sub i m = sub i ++ trailing key sub i m := by
  intro m
  induction m with
  | zero =>
    intro i
    rw [interleave_zero, trailing, append_nil]
  | succ m ih =>
    intro i
    rw [interleave_succ, ih (i + 1), trailing]

theorem interleave_focus (key : ℕ → α) (sub : ℕ → List α) : ∀ (p m : ℕ),
    interleave key sub 0 (p + m) = leading key sub p ++ (sub p ++ trailing key sub p m) := by
  intro p
  induction p with
  | zero =>
    intro m
    rw [zero_add, interleave_eq_trailing, leading, nil_append]
  | succ p ih =>
    intro m
    rw [show p + 1 + m = p + (m + 1) by omega, ih (m + 1), trailing, leading]
    simp

theorem leading_succ_eq (key : ℕ → α) (sub : ℕ → List α) : ∀ (p : ℕ),
    leading key sub (p + 1) = interleave key sub 0 p ++ [key p] := by
  intro p
  have h := interleave_focus key sub p 0
  rw [trailing, append_nil, add_zero] at h
  rw [leading, h, append_assoc]

theorem leading_congr : ∀ {p : ℕ}, (∀ j < p, key j = key' j) → (∀ j < p, sub j = sub' j) →
    leading key sub p = leading key' sub' p := by
  intro p
  induction p with
  | zero =>
    intro _ _
    rfl
  | succ p ih =>
    intro hk hs
    rw [leading, leading, hk p (lt_succ_self p), hs p (lt_succ_self p),
      ih (fun j hj => hk j (by omega)) (fun j hj => hs j (by omega))]

theorem trailing_congr : ∀ {m p p' : ℕ}, (∀ j < m, key (p + j) = key' (p' + j)) →
    (∀ j < m, sub (p + (j + 1)) = sub' (p' + (j + 1))) →
    trailing key sub p m = trailing key' sub' p' m := by
  intro m
  induction m with
  | zero =>
    intro p p' _ _
    rfl
  | succ m ih =>
    intro p p' hk hs
    have h0 : key p = key' p' := hk 0 (succ_pos m)
    have h1 : sub (p + 1) = sub' (p' + 1) := hs 0 (succ_pos m)
    rw [trailing, trailing, h0, h1]
    congr 2
    refine ih (fun j hj => ?_) (fun j hj => ?_)
    · rw [show p + 1 + j = p + (j + 1) by omega, show p' + 1 + j = p' + (j + 1) by omega]
      exact hk (j + 1) (by omega)
    · rw [show p + 1 + (j + 1) = p + (j + 1 + 1) by omega,
        show p' + 1 + (j + 1) = p' + (j + 1 + 1) by omega]
      exact hs (j + 1) (by omega)

theorem interleave_length (key : ℕ → α) (sub : ℕ → List α) : ∀ (m i : ℕ),
    (interleave key sub i m).length
      = m + ∑ j ∈ Finset.range (m + 1), (sub (i + j)).length := by
  intro m
  induction m with
  | zero =>
    intro i
    simp
  | succ m ih =>
    intro i
    rw [interleave_succ, length_append, length_cons, ih (i + 1),
      Finset.sum_range_succ' _ (m + 1)]
    have : ∀ j, i + 1 + j = i + (j + 1) := fun j => by omega
    simp only [this, add_zero]
    omega

theorem length_leading (key : ℕ → α) (sub : ℕ → List α) (p : ℕ) :
    (leading key sub p).length = p + ∑ j ∈ Finset.range p, (sub j).length := by
  cases p with
  | zero => rfl
  | succ p =>
    rw [leading_succ_eq, length_append, interleave_length]
    simp only [zero_add, length_singleton]
    omega

theorem interleave_nils (key : ℕ → α) : ∀ (m i : ℕ),
    interleave key (fun _ => []) i m = (range m).map fun j => key (i + j) := by
  intro m
  induction m with
  | zero =>
    intro i
    rfl
  | succ m ih =>
    intro i
    rw [interleave_succ, ih (i + 1), range_succ_eq_map]
    simp only [map_cons, map_map, nil_append]
    refine congrArg₂ _ rfl (map_congr_left fun j _ => ?_)
    show key (i + 1 + j) = key (i + (j + 1))
    rw [show i + 1 + j = i + (j + 1) by omega]

theorem interleave_cut (key : ℕ → α) (sub : ℕ → List α) (hi : i ≤ n) :
    interleave key sub 0 n = interleave key sub 0 i ++ trailing key sub i (n - i) := by
  obtain ⟨m, rfl⟩ := Nat.exists_eq_add_of_le hi
  have h0 := interleave_focus key sub i 0
  rw [add_zero, trailing, append_nil] at h0
  rw [interleave_focus, h0, Nat.add_sub_cancel_left, append_assoc]

theorem interleave_insert {x : α} {r : List α} (hi : i ≤ n) (hlt : ∀ j < i, key' j = key j)
    (hat : key' i = x) (hgt : ∀ j, i ≤ j → j < n → key' (j + 1) = key j)
    (slt : ∀ j ≤ i, sub' j = sub j) (sat : sub' (i + 1) = r)
    (sgt : ∀ j, i < j → j ≤ n → sub' (j + 1) = sub j) :
    interleave key' sub' 0 (n + 1)
      = interleave key sub 0 i ++ x :: (r ++ trailing key sub i (n - i)) := by
  -- up to segment `i` nothing changes; behind the new pair everything is one slot further
  have hleft : interleave key' sub' 0 i = interleave key sub 0 i :=
    interleave_congr (fun j hj => by simpa using hlt j hj) (fun j hj => by simpa using slt j hj)
  have hright : trailing key' sub' (i + 1) (n - i) = trailing key sub i (n - i) :=
    trailing_congr
      (fun j hj => by
        rw [show i + 1 + j = i + j + 1 by omega]
        exact hgt (i + j) (by omega) (by omega))
      (fun j hj => by
        rw [show i + 1 + (j + 1) = i + (j + 1) + 1 by omega]
        exact sgt (i + (j + 1)) (by omega) (by omega))
  rw [interleave_cut key' sub' (show i ≤ n + 1 by omega), hleft,
    show n + 1 - i = (n - i) + 1 by omega, trailing, hat, sat, hright]

theorem interleave_erase (key : ℕ → α) (sub : ℕ → List α) (hi : i ≤ n)
    (hlt : ∀ j < i, key' j = key j) (hge : ∀ j, i ≤ j → j < n → key' j = key (j + 1))
    (slt : ∀ j < i, sub' j = sub j) (sgt : ∀ j, i < j → j ≤ n → sub' j = sub (j + 1)) :
    interleave key' sub' 0 n
      = leading key sub i ++ (sub' i ++ trailing key sub (i + 1) (n - i)) := by
  obtain ⟨m, rfl⟩ := Nat.exists_eq_add_of_le hi
  -- behind the joined segment the slots have moved down by one
  have hright : trailing key' sub' i m = trailing key sub (i + 1) m :=
    trailing_congr
      (fun j hj => by
        rw [show i + 1 + j = i + j + 1 by omega]
        exact hge (i + j) (by omega) (by omega))
      (fun j hj => by
        rw [show i + 1 + (j + 1) = i + (j + 1) + 1 by omega]
        exact sgt (i + (j + 1)) (by omega) (by omega))
  rw [interleave_focus, leading_congr hlt slt, hright, Nat.add_sub_cancel_left]
