/-
Bits of bytes and of machine words, and numbers that are read and written bit by bit.

`ofLow w f` is the number with the binary digits `f 0, …, f (w - 1)`, the least significant first.

* `testBit_setBit` — a byte with one bit changed;
* `forUp_or` — the loop that puts the bits of a word together;
* `getBit_forUp_set` — the loop that writes bits into anything that has bits.
-/
import AstraDB.Loops

open Nat Int64

namespace Bits

open Loops

/-- A byte with bit `k` changed to `value`. -/
def setBit (byte : UInt8) (k : ℕ) (value : Bool) : UInt8 :=
  if value then byte ||| (1 <<< UInt8.ofNat k) else byte &&& ~~~(1 <<< UInt8.ofNat k)

theorem getLsbD_one_shiftLeft {k : ℕ} (hk : k < 8) (j : ℕ) :
    ((1 : UInt8) <<< UInt8.ofNat k).toBitVec.getLsbD j = decide (j = k) := by
  have hshift : (UInt8.ofNat k).toNat % 8 = k := by
    rw [UInt8.toNat_ofNat']
    omega
  show ((1 : UInt8) <<< UInt8.ofNat k).toNat.testBit j = _
  rw [UInt8.toNat_shiftLeft, hshift, show (1 : UInt8).toNat = 1 from rfl, Nat.one_shiftLeft,
    mod_eq_of_lt (Nat.pow_lt_pow_right (by decide) hk), Nat.testBit_two_pow]
  exact decide_eq_decide.mpr eq_comm

theorem testBit_setBit (byte : UInt8) {k j : ℕ} (hk : k < 8) (hj : j < 8) (value : Bool) :
    (setBit byte k value).toNat.testBit j = if j = k then value else byte.toNat.testBit j := by
  show (setBit byte k value).toBitVec.getLsbD j = if j = k then value else byte.toBitVec.getLsbD j
  cases value with
  | true =>
    rw [setBit, if_pos rfl, UInt8.toBitVec_or, BitVec.getLsbD_or, getLsbD_one_shiftLeft hk]
    by_cases h : j = k <;> simp [h]
  | false =>
    rw [setBit, if_neg (by decide), UInt8.toBitVec_and, UInt8.toBitVec_not, BitVec.getLsbD_and,
      BitVec.getLsbD_not, getLsbD_one_shiftLeft hk]
    by_cases h : j = k <;> simp [h, hj]

theorem and_one_ne_zero_iff (x : Int32) : x &&& 1 ≠ 0 ↔ x.toBitVec.getLsbD 0 = true := by
  rw [Ne, ← Int32.toBitVec_inj, Int32.toBitVec_and,
    show (1 : Int32).toBitVec = 1#32 from rfl, BitVec.and_one_eq_setWidth_ofBool_getLsbD]
  cases x.toBitVec.getLsbD 0 <;> decide

theorem shiftRight_and_one_ne_zero_iff (byte : UInt8) {k : ℕ} (hk : k < 8) :
    (byte.toInt8.toInt32 >>> Int32.ofNat k) &&& 1 ≠ 0 ↔ byte.toNat.testBit k = true := by
  have hshift : ((Int32.ofNat k).toBitVec.smod 32).toNat = k := by
    interval_cases k <;> rfl
  rw [and_one_ne_zero_iff, Int32.toBitVec_shiftRight, BitVec.sshiftRight', hshift,
    BitVec.getLsbD_sshiftRight, if_pos (by omega), Int8.toBitVec_toInt32,
    BitVec.getLsbD_signExtend, if_pos (by omega), UInt8.toBitVec_toInt8, add_zero,
    decide_eq_true (by omega : k < 32), Bool.true_and]
  rfl

theorem shiftRight_and_one_ne_zero_iff' (byte : UInt8) {k : ℕ} (hk : k < 8) :
    (byte >>> UInt8.ofNat k) &&& 1 ≠ 0 ↔ byte.toNat.testBit k = true := by
  have hshift : (UInt8.ofNat k).toNat % 8 = k := by
    rw [UInt8.toNat_ofNat']
    omega
  rw [Ne, ← UInt8.toNat_inj, UInt8.toNat_and, UInt8.toNat_shiftRight, hshift,
    show (1 : UInt8).toNat = 1 from rfl, show (0 : UInt8).toNat = 0 from rfl, and_one_is_mod,
    testBit_eq_decide_div_mod_eq, shiftRight_eq_div_pow, decide_eq_true_iff]
  omega

theorem toInt64_eq {v : UInt64} {x : ℤ} (h : (v.toNat : ℤ) = x % 2 ^ 64) :
    v.toInt64 = Int64.ofInt x := by
  refine toBitVec_inj.mp (BitVec.toNat_inj.mp ?_)
  rw [toBitVec_ofInt, BitVec.toNat_ofInt, UInt64.toBitVec_toInt64]
  show v.toNat = _
  omega

theorem toNat_toUInt64 (y : Int64) : (y.toUInt64.toNat : ℤ) = y.toInt % 2 ^ 64 := by
  have h := BitVec.toNat_ofInt (n := 64) y.toInt
  rw [← toBitVec_ofInt, ofInt_toInt] at h
  show ((y.toBitVec.toNat : ℕ) : ℤ) = _
  rw [h]
  omega

theorem ofInt_eq_iff {x y : ℤ} : Int64.ofInt x = Int64.ofInt y ↔ x % 2 ^ 64 = y % 2 ^ 64 := by
  rw [← toBitVec_inj, toBitVec_ofInt, toBitVec_ofInt, ← BitVec.toNat_inj,
    BitVec.toNat_ofInt, BitVec.toNat_ofInt]
  omega

theorem toInt_ofInt_cases {x : ℤ} (hle : -2 ^ 64 ≤ x) (hlt : x < 2 ^ 64 + 2 ^ 63) :
    (Int64.ofInt x).toInt = if x < -2 ^ 63 then x + 2 ^ 64 else if x < 2 ^ 63 then x
      else x - 2 ^ 64 := by
  rw [toInt_ofInt, Int.bmod, Int64.size]
  split <;> split <;> omega

theorem zero_lt_toUInt64_iff (y : Int64) : 0 < y.toUInt64 ↔ y ≠ 0 := by
  have hzero : y.toUInt64 = 0 ↔ y = 0 := by
    rw [← toBitVec_inj, ← UInt64.toBitVec_inj]
    rfl
  rw [UInt64.pos_iff_ne_zero, Ne, hzero]

theorem div_mul_add_mod (a : Int64) : a / 8 * 8 + a % 8 = a := by
  have hlt := a.toInt_lt
  have hle := a.le_toInt
  have hdiv : a / 8 = Int64.ofInt (a.toInt.tdiv 8) := by
    rw [ofInt_tdiv hle (Int.le_of_lt_add_one hlt) (by decide) (by decide), ofInt_toInt]
    rfl
  have hmod : a % 8 = Int64.ofInt (a.toInt.tmod 8) := by
    rw [ofInt_tmod hle (Int.le_of_lt_add_one hlt) (by decide) (by decide), ofInt_toInt]
    rfl
  rw [hdiv, hmod, show (8 : Int64) = Int64.ofInt 8 from rfl, ← ofInt_mul, ← ofInt_add,
    Int.mul_comm, Int.mul_tdiv_add_tmod, ofInt_toInt]

/-- The number with the binary digits `f 0, …, f (w - 1)`, the least significant first. -/
def ofLow (w : ℕ) (f : ℕ → Bool) : ℕ := Nat.ofBits fun i : Fin w => f i

variable {w : ℕ} {f g : ℕ → Bool}

theorem ofLow_lt (w : ℕ) (f : ℕ → Bool) : ofLow w f < 2 ^ w := ofBits_lt_two_pow _

theorem testBit_ofLow (w : ℕ) (f : ℕ → Bool) (j : ℕ) :
    (ofLow w f).testBit j = (decide (j < w) && f j) := by
  rw [ofLow, testBit_ofBits]
  by_cases h : j < w <;> simp [h]

theorem ofLow_eq_iff {n : ℕ} (hn : n < 2 ^ w) :
    ofLow w f = n ↔ ∀ j < w, f j = n.testBit j := by
  constructor
  · rintro rfl j hj
    rw [testBit_ofLow, decide_eq_true hj, Bool.true_and]
  · intro h
    refine Nat.eq_of_testBit_eq fun j => ?_
    rw [testBit_ofLow]
    by_cases hj : j < w
    · rw [decide_eq_true hj, Bool.true_and, h j hj]
    · have hle : 2 ^ w ≤ 2 ^ j := Nat.pow_le_pow_right (by decide) (Nat.le_of_not_lt hj)
      rw [decide_eq_false hj, Bool.false_and, Nat.testBit_lt_two_pow (hn.trans_le hle)]

theorem ofLow_congr (h : ∀ j < w, f j = g j) : ofLow w f = ofLow w g := by
  refine (ofLow_eq_iff (ofLow_lt w g)).mpr fun j hj => ?_
  rw [testBit_ofLow, decide_eq_true hj, Bool.true_and, h j hj]

theorem ofLow_testBit (w n : ℕ) : ofLow w n.testBit = n % 2 ^ w := ofBits_testBit n w

/-- The number with the binary digits `f 0, …, f (w - 1)`, the most significant first. -/
def ofHigh : ℕ → (ℕ → Bool) → ℕ
  | 0, _ => 0
  | w + 1, f => 2 * ofHigh w f + (f w).toNat

theorem ofHigh_eq (w : ℕ) (f : ℕ → Bool) : ofHigh w f = ofLow w fun j => f (w - 1 - j) := by
  induction w with
  | zero => rfl
  | succ w ih =>
    have hlow : ofLow (w + 1) (fun j => f (w - j)) =
        2 * ofLow w (fun j => f (w - (j + 1))) + (f w).toNat := Nat.ofBits_succ _
    rw [ofHigh, ih, Nat.add_sub_cancel, hlow]
    congr 2
    refine ofLow_congr fun j _ => ?_
    rw [Nat.sub_sub, add_comm 1 j]

theorem ofHigh_eq_zero_iff (w : ℕ) (f : ℕ → Bool) : ofHigh w f = 0 ↔ ∀ j < w, f j = false := by
  induction w with
  | zero => exact iff_of_true rfl fun j hj => absurd hj (Nat.not_lt_zero j)
  | succ w ih =>
    rw [ofHigh, Nat.add_eq_zero_iff, Nat.mul_eq_zero, or_iff_right two_ne_zero, ih,
      Nat.forall_lt_succ_right, Bool.toNat_eq_zero]

theorem toNat_one_shiftLeft {i : ℕ} (hi : i < 64) :
    ((1 : UInt64) <<< UInt64.ofNat i).toNat = 2 ^ i := by
  have hshift : (UInt64.ofNat i).toNat % 64 = i := by
    rw [UInt64.toNat_ofNat']
    omega
  rw [UInt64.toNat_shiftLeft, hshift, show (1 : UInt64).toNat = 1 from rfl, Nat.one_shiftLeft,
    mod_eq_of_lt (Nat.pow_lt_pow_right (by decide) hi)]

theorem testBit_one_shiftLeft {i : ℕ} (hi : i < 64) (j : ℕ) :
    ((1 : UInt64) <<< UInt64.ofNat i).toNat.testBit j = decide (j = i) := by
  rw [toNat_one_shiftLeft hi, testBit_two_pow]
  exact decide_eq_decide.mpr eq_comm

theorem forUp_or (hw : w ≤ 64) (f : ℕ → Bool) :
    (forUp 0 w (fun j (v : UInt64) => if f j then v ||| (1 <<< UInt64.ofNat j) else v) 0).toNat =
      ofLow w f := by
  refine forUp_induct (P := fun i (v : UInt64) => v.toNat = ofLow i f) (zero_le w) rfl ?_
  intro i v _ hi hv
  refine eq_of_testBit_eq fun j => ?_
  rw [testBit_ofLow]
  split
  · next hf =>
    rw [UInt64.toNat_or, testBit_or, hv, testBit_ofLow, testBit_one_shiftLeft (by omega)]
    by_cases hj : j = i
    · simp [hj, hf]
    · simp [hj, show j < i + 1 ↔ j < i by omega]
  · next hf =>
    rw [hv, testBit_ofLow]
    by_cases hj : j = i
    · simp [hj, hf]
    · simp [show j < i + 1 ↔ j < i by omega]

theorem shiftRight_and_one_eq_one_iff (v : UInt64) {j : ℕ} (hj : j < 64) :
    (v >>> UInt64.ofNat j) &&& 1 ≠ 0 ↔ v.toNat.testBit j = true := by
  have hshift : (UInt64.ofNat j).toNat % 64 = j := by
    rw [UInt64.toNat_ofNat']
    omega
  rw [Ne, ← UInt64.toNat_inj, UInt64.toNat_and, UInt64.toNat_shiftRight, hshift,
    show (1 : UInt64).toNat = 1 from rfl, show (0 : UInt64).toNat = 0 from rfl, and_one_is_mod,
    testBit_eq_decide_div_mod_eq, shiftRight_eq_div_pow, decide_eq_true_iff]
  omega

theorem getBit_forUp_set {σ : Type} {get : σ → ℤ → Bool} {set : σ → ℤ → Bool → σ}
    (hset : ∀ s p b q, 0 ≤ p → get (set s p b) q = if q = p then b else get s q) {position : ℕ → ℤ}
    {a : ℤ} (ha : 0 ≤ a) (hposition : ∀ j < w, position j = a + j) (f : ℕ → Bool) (s : σ) (q : ℤ) :
    get (forUp 0 w (fun j s => set s (position j) (f j)) s) q =
      if a ≤ q ∧ q < a + w then f (q - a).toNat else get s q := by
  refine forUp_induct (P := fun i s' => get s' q =
    if a ≤ q ∧ q < a + i then f (q - a).toNat else get s q) (zero_le w) ?_ ?_
  · rw [if_neg (by omega)]
  · intro i s' _ hi hs'
    rw [hposition i hi, hset _ _ _ _ (by omega), hs']
    split
    · rw [if_pos (by omega), show (q - a).toNat = i by omega]
    · refine if_congr ?_ rfl rfl
      omega

end Bits
