/-
Counted loops over slot arrays.

`forUp lo hi body s` is the loop `for (i = lo; i < hi; ++i) s = body i s`, and
`forDown n body s` the loop `for (i = n - 1; i >= 0; --i) s = body i s`.  An
array is a function from slot numbers to contents.

* `forUp_induct`, `forDown_induct` — the invariant rules;
* `forUp_update` — copying a block from elsewhere;
* `forUp_shiftLeft`, `forDown_shiftRight` — moving a block inside one array, in
  the direction that never reads a slot already overwritten;
* `blit` — the block copy itself (`memmove`);
* `forUp_add_ofNat` — adding up counters.
-/
import Mathlib.Algebra.BigOperators.Group.Finset.Basic
import Mathlib.Logic.Function.Basic
import Mathlib.Tactic

open Function

namespace Loops

variable {σ α : Type*}

/-- `n` rounds of `body`, counting up from `i`. -/
def rounds (body : ℕ → σ → σ) : ℕ → ℕ → σ → σ
  | _, 0, s => s
  | i, n + 1, s => rounds body (i + 1) n (body i s)

/-- `for (i = lo; i < hi; ++i) s = body i s`. -/
def forUp (lo hi : ℕ) (body : ℕ → σ → σ) (s : σ) : σ := rounds body lo (hi - lo) s

/-- `for (i = n - 1; i >= 0; --i) s = body i s`. -/
def forDown : ℕ → (ℕ → σ → σ) → σ → σ
  | 0, _, s => s
  | n + 1, body, s => forDown n body (body n s)

variable {P : ℕ → σ → Prop}

private theorem rounds_induct {b : ℕ → σ → σ} {hi : ℕ} : ∀ {n lo : ℕ} {s : σ}, lo + n = hi →
      (∀ i s, lo ≤ i → i < hi → P i s → P (i + 1) (b i s)) →
      P lo s → P hi (rounds b lo n s) := by
  intro n
  induction n with
  | zero =>
    intro lo s hlo _ h0
    rw [rounds, ← hlo]
    exact h0
  | succ n ih =>
    intro lo s hlo hstep h0
    rw [rounds]
    refine ih (by omega) (fun i s hi hi' => hstep i s (by omega) hi') ?_
    exact hstep lo s le_rfl (by omega) h0

variable {lo hi a : ℕ}

theorem forUp_of_le (h : hi ≤ lo) (body : ℕ → σ → σ) (s : σ) : forUp lo hi body s = s := by
  rw [forUp, Nat.sub_eq_zero_of_le h]
  rfl

theorem forUp_induct {b : ℕ → σ → σ} {s : σ} (hle : lo ≤ hi) (h0 : P lo s)
    (hstep : ∀ i s, lo ≤ i → i < hi → P i s → P (i + 1) (b i s)) : P hi (forUp lo hi b s) :=
  rounds_induct (by omega) hstep h0

theorem forDown_induct {n : ℕ} {b : ℕ → σ → σ} {s : σ}
    (h0 : P n s) (hstep : ∀ i s, i < n → P (i + 1) s → P i (b i s)) :
    P 0 (forDown n b s) := by
  induction n generalizing s with
  | zero => exact h0
  | succ n ih =>
    rw [forDown]
    refine ih (hstep n s (Nat.lt_succ_self n) h0) fun i s hi => ?_
    exact hstep i s (by omega)

variable (f : ℕ → α)

/-- `f` with the `n` slots from `d` on replaced by the `n` slots of `g` from
`s` on. -/
def blit (d : ℕ) (g : ℕ → α) (s n : ℕ) : ℕ → α := fun j =>
  if d ≤ j ∧ j < d + n then g (s + (j - d)) else f j

theorem forUp_update (f g : ℕ → α) {dst : ℕ → ℕ} {d : ℕ} (hle : lo ≤ hi)
    (hdst : ∀ i, lo ≤ i → dst i = d + (i - lo)) :
    forUp lo hi (fun i f => update f (dst i) (g i)) f = blit f d g lo (hi - lo) := by
  -- after the rounds below `i`, the slots for `lo, …, i - 1` are copied
  have key := forUp_induct (P := fun i f' => f' = blit f d g lo (i - lo))
    (b := fun i f => update f (dst i) (g i)) (s := f) hle ?_ ?_
  · exact key
  · funext j
    rw [blit, if_neg (by omega)]
  · rintro i f' hi hi' rfl
    have hi0 := hdst i hi
    funext j
    simp only [update_apply, blit]
    split
    · rw [if_pos (by omega)]
      congr 1
      omega
    · split
      · rw [if_pos (by omega)]
      · rw [if_neg (by omega)]

theorem forUp_update_add (f g : ℕ → α) (a : ℕ) (hle : lo ≤ hi) :
    forUp lo hi (fun i f => update f (a + i) (g i)) f
      = blit f (a + lo) g lo (hi - lo) :=
  forUp_update f g hle fun i hi => by omega

theorem forUp_update_sub (f g : ℕ → α) (ha : a ≤ lo) (hle : lo ≤ hi) :
    forUp lo hi (fun i f => update f (i - a) (g i)) f
      = blit f (lo - a) g lo (hi - lo) :=
  forUp_update f g hle fun i hi => by omega

theorem forUp_shiftLeft (ha : a ≤ lo) (h0 : 0 < a) (hle : lo ≤ hi) :
    forUp lo hi (fun i f => update f (i - a) (f i)) f
      = blit f (lo - a) f lo (hi - lo) := by
  have key := forUp_induct (P := fun i f' => f' = blit f (lo - a) f lo (i - lo))
    (b := fun i f => update f (i - a) (f i)) (s := f) hle ?_ ?_
  · exact key
  · funext j
    rw [blit, if_neg (by omega)]
  · rintro i f' hi hi' rfl
    funext j
    -- slot `i` still holds its first content: only slots below `i` were written
    have hold : blit f (lo - a) f lo (i - lo) i = f i := by
      rw [blit, if_neg (by omega)]
    simp only [update_apply]
    split
    · rw [hold, blit, if_pos (by omega)]
      congr 1
      omega
    · simp only [blit]
      split
      · rw [if_pos (by omega)]
      · rw [if_neg (by omega)]

theorem forDown_shiftRight {n : ℕ} (h0 : 0 < a) :
    forDown n (fun i f => update f (i + a) (f i)) f = blit f a f 0 n := by
  have key := forDown_induct (n := n)
    (P := fun i f' => f' = blit f (i + a) f i (n - i))
    (b := fun i f => update f (i + a) (f i)) (s := f) ?_ ?_
  · rw [Nat.zero_add, Nat.sub_zero] at key
    exact key
  · funext j
    rw [blit, if_neg (by omega)]
  · rintro i f' hi rfl
    funext j
    -- going down, only slots above `i` were written
    have hold : blit f (i + 1 + a) f (i + 1) (n - (i + 1)) i = f i := by
      rw [blit, if_neg (by omega)]
    simp only [update_apply]
    split
    · rw [hold, blit, if_pos (by omega)]
      congr 1
      omega
    · simp only [blit]
      split
      · rw [if_pos (by omega)]
        congr 1
        omega
      · rw [if_neg (by omega)]

/-- Moving a block down while its old slots are overwritten by `z`: what arrives
is what was there. -/
theorem forUp_shiftLeft_clear (z : α) (ha : a ≤ lo) (h0 : 0 < a) (hle : lo ≤ hi) {j : ℕ}
    (hj : lo ≤ j + a) (hj' : j + a < hi) :
    forUp lo hi (fun i f => update (update f (i - a) (f i)) i z) f j
      = f (j + a) := by
  -- what is below `i` has arrived, and from `i` on nothing has changed
  have key := forUp_induct
    (P := fun i f' => (∀ j, lo ≤ j + a → j + a < i → f' j = f (j + a)) ∧
      ∀ j, i ≤ j → f' j = f j)
    (b := fun i f => update (update f (i - a) (f i)) i z) (s := f) hle ?_ ?_
  · exact key.1 j hj hj'
  · exact ⟨fun j h1 h2 => by omega, fun j _ => rfl⟩
  · rintro i f' hi hi' ⟨hmoved, hrest⟩
    constructor
    · intro j h1 h2
      -- the slot cleared last is `i`, above the one that was filled
      rw [update_of_ne (by omega)]
      by_cases hji : j = i - a
      · rw [hji, update_self, hrest i le_rfl]
        congr 1
        omega
      · rw [update_of_ne hji]
        exact hmoved j h1 (by omega)
    · intro j h1
      rw [update_of_ne (by omega), update_of_ne (by omega)]
      exact hrest j (by omega)

theorem forUp_prod {τ : Type*} (lo hi : ℕ) (f : ℕ → σ → σ) (g : ℕ → τ → τ) (s : σ) (t : τ) :
    forUp lo hi (fun i p => (f i p.1, g i p.2)) (s, t) = (forUp lo hi f s, forUp lo hi g t) := by
  unfold forUp
  generalize hi - lo = n
  induction n generalizing lo s t with
  | zero => rfl
  | succ n ih => exact ih (lo + 1) (f lo s) (g lo t)

theorem forUp_add_ofNat {f : ℕ → UInt32} {g : ℕ → ℕ} {m : ℕ} (a : UInt32)
    (h : ∀ j < m, f j = UInt32.ofNat (g j)) :
    forUp 0 m (fun j s => s + f j) a = a + UInt32.ofNat (∑ j ∈ Finset.range m, g j) := by
  have key := forUp_induct
    (P := fun i s => s = a + UInt32.ofNat (∑ j ∈ Finset.range i, g j))
    (b := fun j s => s + f j) (s := a) (Nat.zero_le m) ?_ ?_
  · exact key
  · simp
  · rintro i s - hi rfl
    rw [h i hi, Finset.sum_range_succ, UInt32.ofNat_add]
    grind

end Loops
