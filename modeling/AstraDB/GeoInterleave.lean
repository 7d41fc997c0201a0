/-
The bits of a geohash: `interleave64` and `deinterleave64`.

A number of 32 bits is spread over the even bits of a word in five rounds, and collected again
in five.  `Spread s x w` says that the blocks of `s` bits of `x` are the even blocks of `w`: a
round halves the blocks, or joins them two by two.

* `interleave64_spec` — the bits of the word, what is collected, and the order.
-/
import Mathlib.Data.Nat.Bitwise
import Mathlib.Tactic

open BitVec

namespace Geospatial

/-- The masks `B`: blocks of 1, 2, 4, 8, 16 and 32 bits. -/
def mask : ℕ → BitVec 64
  | 1 => 0x5555555555555555
  | 2 => 0x3333333333333333
  | 4 => 0x0F0F0F0F0F0F0F0F
  | 8 => 0x00FF00FF00FF00FF
  | 16 => 0x0000FFFF0000FFFF
  | _ => 0x00000000FFFFFFFF

def spreadRound (s : ℕ) (x : BitVec 64) : BitVec 64 := (x ||| x <<< s) &&& mask s

/-- A round of `deinterleave64`; the shift is half a block. -/
def gatherRound (s : ℕ) (x : BitVec 64) : BitVec 64 := (x ||| x >>> (s / 2)) &&& mask s

def spread (x : BitVec 64) : BitVec 64 :=
  spreadRound 1 (spreadRound 2 (spreadRound 4 (spreadRound 8 (spreadRound 16 x))))

def gather (x : BitVec 64) : BitVec 64 :=
  gatherRound 32 (gatherRound 16 (gatherRound 8 (gatherRound 4 (gatherRound 2 (gatherRound 1 x)))))

def interleave64 (xlo ylo : BitVec 32) : BitVec 64 :=
  spread (xlo.setWidth 64) ||| spread (ylo.setWidth 64) <<< 1

def deinterleave64 (interleaved : BitVec 64) : BitVec 64 :=
  gather interleaved ||| gather (interleaved >>> 1) <<< 32

/-- The blocks of `s` bits of `x` are the even blocks of `w`, and the odd ones are zero. -/
def Spread (s : ℕ) (x : BitVec 32) (w : BitVec 64) : Prop :=
  ∀ k < 64, w.getLsbD k = (decide (k % (2 * s) < s) && x.getLsbD (k / (2 * s) * s + k % (2 * s)))

theorem getLsbD_mask {s : ℕ} (hs : s ∈ [1, 2, 4, 8, 16, 32]) {k : ℕ} (hk : k < 64) :
    (mask s).getLsbD k = decide (k % (2 * s) < s) := by
  have h : ∀ s ∈ [1, 2, 4, 8, 16, 32], ∀ k < 64, (mask s).getLsbD k = decide (k % (2 * s) < s) := by
    decide
  exact h s hs k hk

variable {x y : BitVec 32} {w : BitVec 64}

theorem Spread.spreadRound {s : ℕ} (hs : s ∈ [1, 2, 4, 8, 16]) (h : Spread (2 * s) x w) :
    Spread s x (spreadRound s w) := by
  intro k hk
  rw [Geospatial.spreadRound, getLsbD_and, getLsbD_or, getLsbD_shiftLeft,
    getLsbD_mask (by simp at hs ⊢; omega) hk, h k hk, h (k - s) (by omega)]
  fin_cases hs <;> grind

theorem Spread.gatherRound {s : ℕ} (hs : s ∈ [1, 2, 4, 8, 16]) (h : Spread s x w) :
    Spread (2 * s) x (gatherRound (2 * s) w) := by
  intro k hk
  rw [Geospatial.gatherRound, getLsbD_and, getLsbD_or, getLsbD_ushiftRight, getLsbD_mask (by
    simp at hs ⊢; omega) hk, h k hk, Nat.mul_div_cancel_left s two_pos, Nat.add_comm s k]
  by_cases hlt : k + s < 64
  · rw [h (k + s) hlt]
    fin_cases hs <;> grind
  · rw [getLsbD_of_ge w _ (by omega)]
    fin_cases hs <;> grind

theorem spread_spec (x : BitVec 32) : Spread 1 x (spread (x.setWidth 64)) := by
  have h : Spread 32 x (x.setWidth 64) := by
    intro k hk
    rw [getLsbD_setWidth]
    grind
  exact ((((h.spreadRound (s := 16) (by simp)).spreadRound (s := 8) (by simp)).spreadRound (s := 4)
    (by simp)).spreadRound (s := 2) (by simp)).spreadRound (by simp)

theorem gather_spec (h : ∀ k < 32, w.getLsbD (2 * k) = x.getLsbD k) : gather w = x.setWidth 64 := by
  have hone : Spread 1 x (gatherRound 1 w) := by
    intro k hk
    have heven : k % 2 = 0 → w.getLsbD k = x.getLsbD (k / 2) := by
      intro hmod
      rw [← h (k / 2) (by omega), Nat.mul_div_cancel' (Nat.dvd_of_mod_eq_zero hmod)]
    rw [Geospatial.gatherRound, getLsbD_and, getLsbD_or, getLsbD_ushiftRight,
      getLsbD_mask (by simp) hk]
    grind
  have hall := ((((hone.gatherRound (by simp)).gatherRound (by simp)).gatherRound
    (by simp)).gatherRound (by simp)).gatherRound (by simp)
  refine eq_of_getLsbD_eq fun k hk => ?_
  rw [getLsbD_setWidth]
  refine (hall k hk).trans ?_
  grind

theorem getLsbD_interleave64 (x y : BitVec 32) (k : ℕ) : (interleave64 x y).getLsbD k =
    if k % 2 = 0 then x.getLsbD (k / 2) else y.getLsbD (k / 2) := by
  by_cases hk : k < 64
  · have hx := spread_spec x k hk
    have hy := spread_spec y (k - 1) (by omega)
    rw [interleave64, getLsbD_or, getLsbD_shiftLeft, hx, hy]
    grind
  · simp [getLsbD_of_ge, show 64 ≤ k by omega, show 32 ≤ k / 2 by omega]

theorem deinterleave64_interleave64 (x y : BitVec 32) :
    deinterleave64 (interleave64 x y) = x.setWidth 64 ||| y.setWidth 64 <<< 32 := by
  rw [deinterleave64, gather_spec (x := x), gather_spec (x := y)]
  · intro k hk
    rw [getLsbD_ushiftRight, getLsbD_interleave64]
    grind
  · intro k hk
    rw [getLsbD_interleave64]
    grind

theorem exists_bit_of_lt {x x' : BitVec 32} (h : x < x') : ∃ i, x.getLsbD i = false ∧
    x'.getLsbD i = true ∧ ∀ j, i < j → x.getLsbD j = x'.getLsbD j := by
  have hne : x.toNat ^^^ x'.toNat ≠ 0 := by
    rw [Ne, Nat.xor_eq_zero_iff]
    exact Nat.ne_of_lt h
  obtain ⟨i, hi, habove⟩ := Nat.exists_most_significant_bit hne
  have hsame : ∀ j, i < j → x.getLsbD j = x'.getLsbD j := by
    intro j hj
    simpa [testBit_toNat] using habove j hj
  rw [Nat.testBit_xor, testBit_toNat, testBit_toNat] at hi
  cases hbit : x.getLsbD i with
  | false => exact ⟨i, hbit, by simpa [hbit] using hi, hsame⟩
  | true =>
    -- then `x'` would be the smaller one
    have hbit' : x'.getLsbD i = false := by simpa [hbit] using hi
    exact absurd (Nat.lt_of_testBit i hbit' hbit fun j hj => (hsame j hj).symm) (Nat.lt_asymm h)

theorem interleave64_spec (x y : BitVec 32) :
    deinterleave64 (interleave64 x y) = x.setWidth 64 ||| y.setWidth 64 <<< 32 ∧
      (∀ i < 32, (interleave64 x y).getLsbD (2 * i) = x.getLsbD i ∧
        (interleave64 x y).getLsbD (2 * i + 1) = y.getLsbD i) ∧
      (∀ x', x < x' → interleave64 x y < interleave64 x' y) ∧
      ∀ y', y < y' → interleave64 x y < interleave64 x y' := by
  refine ⟨deinterleave64_interleave64 x y, fun i hi => ?_, fun x' h => ?_, fun y' h => ?_⟩
  · rw [getLsbD_interleave64, getLsbD_interleave64]
    grind
  · obtain ⟨i, hi, hi', hsame⟩ := exists_bit_of_lt h
    refine Nat.lt_of_testBit (2 * i) ?_ ?_ fun j hj => ?_
    all_goals simp only [testBit_toNat, getLsbD_interleave64]
    · grind
    · grind
    · grind
  · obtain ⟨i, hi, hi', hsame⟩ := exists_bit_of_lt h
    refine Nat.lt_of_testBit (2 * i + 1) ?_ ?_ fun j hj => ?_
    all_goals simp only [testBit_toNat, getLsbD_interleave64]
    · grind
    · grind
    · grind

end Geospatial
