/-
Cyclic redundancy checks, most significant bit first.

The remainder is a register of `w` bits.  Taking in a byte is eight shifts (`absorb`), each of
which subtracts the polynomial when a bit falls out.  This is linear in exclusive or, and so

* `absorb_eq` — a byte can be taken in with one look at a table of 256 entries;
* `tableFold_eq` — if entries of the table are wrong, the remainder is off by `deviation`:
  the faults of the entries that were looked up, each shifted through the bytes behind it.
-/
import Mathlib.Data.BitVec
import Mathlib.Logic.Function.Iterate
import Mathlib.Tactic.Common

open BitVec

namespace Crc

variable {w : ℕ} (poly : BitVec w)

/-- The register after one shift. -/
def step (c : BitVec w) : BitVec w := if c.msb then c <<< 1 ^^^ poly else c <<< 1

def steps (n : ℕ) : BitVec w → BitVec w := (step poly)^[n]

/-- A byte in the top bits of the register. -/
def place (w : ℕ) (b : BitVec 8) : BitVec w := b.setWidth w <<< (w - 8)

/-- The top byte of the register. -/
def top (c : BitVec w) : BitVec 8 := (c >>> (w - 8)).setWidth 8

def absorb (c : BitVec w) (b : BitVec 8) : BitVec w := steps poly 8 (c ^^^ place w b)

/-- The remainder of a string of bytes, from the register `c`. -/
def fold (c : BitVec w) (bytes : List (BitVec 8)) : BitVec w := bytes.foldl (absorb poly) c

theorem step_xor (a b : BitVec w) : step poly (a ^^^ b) = step poly a ^^^ step poly b := by
  have hshift : (a ^^^ b) <<< 1 = a <<< 1 ^^^ b <<< 1 := BitVec.shiftLeft_xor_distrib a b 1
  cases ha : a.msb <;> cases hb : b.msb <;>
    simp only [step, BitVec.msb_xor, ha, hb, hshift, Bool.xor_false, Bool.xor_true, Bool.not_true,
      Bool.not_false, if_true, if_false, Bool.false_eq_true]
  · rw [BitVec.xor_assoc]
  · rw [BitVec.xor_assoc, BitVec.xor_assoc, BitVec.xor_comm poly]
  · -- both lose their top bit: the polynomial is subtracted twice
    rw [BitVec.xor_assoc, ← BitVec.xor_assoc poly, BitVec.xor_comm poly, BitVec.xor_assoc (b <<< 1),
      BitVec.xor_self, BitVec.xor_zero]

theorem steps_xor (n : ℕ) (a b : BitVec w) :
    steps poly n (a ^^^ b) = steps poly n a ^^^ steps poly n b :=
  Function.Semiconj₂.iterate (step_xor poly) n a b

theorem steps_add (m n : ℕ) (c : BitVec w) : steps poly (m + n) c = steps poly m (steps poly n c) :=
  Function.iterate_add_apply (step poly) m n c

theorem absorb_xor (a e : BitVec w) (b : BitVec 8) :
    absorb poly (a ^^^ e) b = absorb poly a b ^^^ steps poly 8 e := by
  rw [absorb, absorb, ← steps_xor, xor_assoc, BitVec.xor_comm e, ← xor_assoc]

theorem fold_xor (e : BitVec w) : ∀ (bytes : List (BitVec 8)) (c : BitVec w),
    fold poly (c ^^^ e) bytes = fold poly c bytes ^^^ steps poly (8 * bytes.length) e := by
  intro bytes
  induction bytes generalizing e with
  | nil => exact fun c => rfl
  | cons b bytes ih =>
    intro c
    show fold poly (absorb poly (c ^^^ e) b) bytes = fold poly (absorb poly c b) bytes ^^^ _
    rw [absorb_xor, ih, ← steps_add, List.length_cons, Nat.mul_succ]

/-- The register `i` in the top bits after eight shifts: what a table has at `i`. -/
def entry (i : BitVec 8) : BitVec w := steps poly 8 (place w i)

theorem steps_low (c : BitVec w) : ∀ k, (∀ i < k, c.getMsbD i = false) →
    steps poly k c = c <<< k := by
  intro k
  induction k with
  | zero =>
    intro _
    rw [shiftLeft_zero]
    rfl
  | succ k ih =>
    intro hclear
    have hmsb : (c <<< k).msb = false := by
      rw [msb_eq_getMsbD_zero, getMsbD_shiftLeft, Nat.zero_add]
      exact hclear k (Nat.lt_succ_self k)
    rw [Nat.add_comm, steps_add, ih fun i hi => hclear i (Nat.lt_succ_of_lt hi)]
    show step poly (c <<< k) = _
    rw [step, hmsb, if_neg Bool.false_ne_true, ← shiftLeft_add, Nat.add_comm]

section Bytes

variable (hw : 8 ≤ w)

include hw

theorem getMsbD_place (b : BitVec 8) (i : ℕ) : (place w b).getMsbD i = b.getMsbD i := by
  have hle : w - 8 ≤ i + (w - 8) := Nat.le_add_left _ _
  have hsub : i + (w - 8) + 8 - w = i := by omega
  rw [place, getMsbD_shiftLeft, getMsbD_setWidth, hsub, decide_eq_true hle,
    Bool.true_and]

theorem getMsbD_top (c : BitVec w) {i : ℕ} (hi : i < 8) : (top c).getMsbD i = c.getMsbD i := by
  have hsub : i + w - 8 - (w - 8) = i := by omega
  rw [top, getMsbD_setWidth, getMsbD_ushiftRight, hsub,
    decide_eq_true (show 8 - w ≤ i by omega), decide_eq_true (show i + w - 8 < w by omega),
    decide_eq_false (show ¬ i + w - 8 < w - 8 by omega)]
  rfl

theorem top_place (b : BitVec 8) : top (place w b) = b :=
  eq_of_getMsbD_eq fun i hi => by rw [getMsbD_top hw _ hi, getMsbD_place hw]

theorem place_shiftLeft (b : BitVec 8) : place w b <<< 8 = 0#w := by
  rw [place, ← shiftLeft_add, Nat.sub_add_cancel hw]
  exact shiftLeft_eq_zero le_rfl

/-- Eight shifts: the top byte is looked up, the rest moves on. -/
theorem steps_eight (c : BitVec w) : steps poly 8 c = c <<< 8 ^^^ entry poly (top c) := by
  have hsplit : c = c ^^^ place w (top c) ^^^ place w (top c) := by
    rw [BitVec.xor_assoc, BitVec.xor_self, BitVec.xor_zero]
  have hclear : ∀ i < 8, (c ^^^ place w (top c)).getMsbD i = false := by
    intro i hi
    rw [BitVec.getMsbD_xor, getMsbD_place hw, getMsbD_top hw _ hi, Bool.xor_self]
  have hlow := steps_low poly _ 8 hclear
  rw [BitVec.shiftLeft_xor_distrib, place_shiftLeft hw, BitVec.xor_zero] at hlow
  conv_lhs => rw [hsplit, steps_xor, hlow]
  rfl

theorem absorb_eq (c : BitVec w) (b : BitVec 8) :
    absorb poly c b = c <<< 8 ^^^ entry poly (top c ^^^ b) := by
  have htop : top (c ^^^ place w b) = top c ^^^ b := by
    conv_rhs => rw [← top_place hw b]
    rw [top, ushiftRight_xor_distrib, setWidth_xor]
    rfl
  rw [absorb, steps_eight poly hw, htop, shiftLeft_xor_distrib, place_shiftLeft hw,
    xor_zero]

end Bytes

variable (table : BitVec 8 → BitVec w)

/-- Take in a byte with the table. -/
def tableStep (c : BitVec w) (b : BitVec 8) : BitVec w := c <<< 8 ^^^ table (top c ^^^ b)

def tableFold (c : BitVec w) (bytes : List (BitVec 8)) : BitVec w := bytes.foldl (tableStep table) c

/-- By how much an entry is wrong. -/
def fault (i : BitVec 8) : BitVec w := table i ^^^ entry poly i

/-- The faults of the entries that are looked up, each shifted through the bytes behind it. -/
def deviation : BitVec w → List (BitVec 8) → BitVec w
  | _, [] => 0#w
  | c, b :: bytes =>
    steps poly (8 * bytes.length) (fault poly table (top c ^^^ b)) ^^^
      deviation (tableStep table c b) bytes

theorem tableStep_eq (hw : 8 ≤ w) (c : BitVec w) (b : BitVec 8) :
    tableStep table c b = absorb poly c b ^^^ fault poly table (top c ^^^ b) := by
  rw [absorb_eq poly hw, fault, tableStep, BitVec.xor_assoc, ← BitVec.xor_assoc (entry poly _),
    BitVec.xor_comm (entry poly _), BitVec.xor_assoc (table _), BitVec.xor_self, BitVec.xor_zero]

theorem tableFold_eq (hw : 8 ≤ w) : ∀ (bytes : List (BitVec 8)) (c : BitVec w),
    tableFold table c bytes = fold poly c bytes ^^^ deviation poly table c bytes := by
  intro bytes
  induction bytes with
  | nil => exact fun c => (xor_zero).symm
  | cons b bytes ih =>
    intro c
    show tableFold table (tableStep table c b) bytes = fold poly (absorb poly c b) bytes ^^^ _
    -- the fault of this byte's entry goes through the rest as an error of the register
    rw [ih, deviation, ← xor_assoc, ← fold_xor, ← tableStep_eq poly table hw]

end Crc
