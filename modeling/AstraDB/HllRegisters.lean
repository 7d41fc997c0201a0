/-
The registers of a HyperLogLog: `GetRegister`, `SetRegister`, and what `PFADD` counts.

A register is a window of six bits in a string of `char`s, which are signed.  `SetRegister`
widens the first byte of the window with its sign, so that a first byte of 128 or more sets every
bit of the second one outside the window.

* `setRegister_iff` — when no other register changes;
* `countLeadingZeros_iff` — when the loop of `PFADD` ends.
-/
import AstraDB.HyperLogLog
import Mathlib.Data.Nat.Bitwise
import Mathlib.Data.Nat.Size

open BitVec

namespace HyperLogLog

def kHllBitsPerRegister : ℕ := 6

def charAt (hllData : Bytes) (pos : ℕ) : BitVec 8 := (hllData.getD pos 0).toBitVec

def getRegister (hllData : Bytes) (idx : ℕ) : UInt8 :=
  let bitPos := idx * kHllBitsPerRegister
  let bytePos := bitPos / 8
  let bitOffset := bitPos % 8
  let value := (charAt hllData bytePos).setWidth 16 |||
    (charAt hllData (bytePos + 1)).setWidth 16 <<< 8
  .ofBitVec ((value >>> bitOffset &&& 0x3F#16).setWidth 8)

/-- What `SetRegister` writes back for the two bytes; the cast of a signed `char` keeps its sign. -/
def newValue (first second : BitVec 8) (bitOffset : ℕ) (value : UInt8) : BitVec 16 :=
  let mask := 0x3F#16 <<< bitOffset
  (first.signExtend 16 ||| second.signExtend 16 <<< 8) &&& ~~~mask |||
    (value.toBitVec &&& 0x3F#8).setWidth 16 <<< bitOffset

def setRegister (hllData : Bytes) (idx : ℕ) (value : UInt8) : Bytes :=
  let bitPos := idx * kHllBitsPerRegister
  let bytePos := bitPos / 8
  let new := newValue (charAt hllData bytePos) (charAt hllData (bytePos + 1)) (bitPos % 8) value
  (hllData.set bytePos (.ofBitVec (new.setWidth 8))).set (bytePos + 1)
    (.ofBitVec ((new >>> 8).setWidth 8))

def ensureHllData (hllData : Bytes) : Bytes :=
  if hllData.length ≠ kHllBytes then
    hllData.take kHllBytes ++ List.replicate (kHllBytes - hllData.length) 0
  else hllData

theorem length_ensureHllData (hllData : Bytes) : (ensureHllData hllData).length = kHllBytes := by
  rw [ensureHllData]
  split
  · simp only [List.length_append, List.length_take, List.length_replicate]
    omega
  · next h => exact not_not.mp h

/-- Bit `p` of the string, the lowest bit of each byte first. -/
def bitAt (hllData : Bytes) (p : ℕ) : Bool := (charAt hllData (p / 8)).getLsbD (p % 8)

theorem getLsbD_six (w k : ℕ) : (0x3F#w).getLsbD k = (decide (k < w) && decide (k < 6)) := by
  rw [getLsbD_ofNat, show 0x3F = 2 ^ 6 - 1 from rfl, Nat.testBit_two_pow_sub_one]

theorem getLsbD_getRegister (hllData : Bytes) (j b : ℕ) :
    (getRegister hllData j).toBitVec.getLsbD b = (decide (b < 6) && bitAt hllData (j * 6 + b)) := by
  simp only [getRegister, kHllBitsPerRegister, bitAt, getLsbD_setWidth, getLsbD_and,
    getLsbD_ushiftRight, getLsbD_or, getLsbD_shiftLeft, getLsbD_six]
  grind

theorem getRegister_eq_iff {hllData hllData' : Bytes} {j : ℕ} :
    getRegister hllData' j = getRegister hllData j ↔
      ∀ b < 6, bitAt hllData' (j * 6 + b) = bitAt hllData (j * 6 + b) := by
  rw [← UInt8.toBitVec_inj]
  constructor
  · intro h b hb
    have hbit := congrArg (getLsbD · b) h
    simpa [getLsbD_getRegister, hb] using hbit
  · intro h
    refine eq_of_getLsbD_eq fun b _ => ?_
    rw [getLsbD_getRegister, getLsbD_getRegister]
    by_cases hb : b < 6
    · rw [h b hb]
    · simp [hb]

variable {hllData : Bytes} {i j : ℕ}

theorem getLsbD_newValue (first second : BitVec 8) {o k : ℕ} (value : UInt8) (hk : k < 16) :
    (newValue first second o value).getLsbD k =
      if o ≤ k ∧ k < o + 6 then value.toBitVec.getLsbD (k - o)
      else if k < 8 then first.getLsbD k else first.msb || second.getLsbD (k - 8) := by
  simp only [newValue, getLsbD_or, getLsbD_and, getLsbD_not, getLsbD_shiftLeft, getLsbD_setWidth,
    getLsbD_signExtend, getLsbD_six]
  grind

/-- The bits after a `SetRegister`: the window has the value, and the second byte has also got
the sign of the first. -/
theorem bitAt_setRegister (hi : i * 6 / 8 + 1 < hllData.length) (value : UInt8) (p : ℕ) :
    bitAt (setRegister hllData i value) p =
      if i * 6 ≤ p ∧ p < i * 6 + 6 then value.toBitVec.getLsbD (p - i * 6)
      else if p / 8 = i * 6 / 8 + 1 then (charAt hllData (i * 6 / 8)).msb || bitAt hllData p
      else bitAt hllData p := by
  have hget : ∀ (b b' : UInt8) q, ((hllData.set (i * 6 / 8) b).set (i * 6 / 8 + 1) b').getD q 0 =
      if q = i * 6 / 8 + 1 then b' else if q = i * 6 / 8 then b else hllData.getD q 0 := by
    intro b b' q
    rw [List.getD_eq_getElem?_getD, List.getElem?_set, List.getElem?_set]
    grind
  rw [bitAt, charAt, setRegister, kHllBitsPerRegister, hget]
  split
  · next hq =>
    rw [getLsbD_setWidth, getLsbD_ushiftRight, getLsbD_newValue _ _ _ (by omega), bitAt, hq]
    grind
  · split
    · next hq =>
      rw [getLsbD_setWidth, getLsbD_newValue _ _ _ (by omega), bitAt, hq]
      grind
    · rw [if_neg (by omega)]
      rfl

/-- If the first byte of the window is negative, the bits of the second one after the window are
set already, or belong to the last register. -/
def Separate (hllData : Bytes) (i : ℕ) : Prop :=
  (charAt hllData (i * 6 / 8)).msb = true → i + 2 ≠ kHllRegisters →
    ∀ b < 8, i * 6 % 8 + 6 ≤ 8 + b → (charAt hllData (i * 6 / 8 + 1)).getLsbD b = true

theorem getRegister_setRegister_self {value : UInt8} (hi : i * 6 / 8 + 1 < hllData.length)
    (hvalue : value < 64) : getRegister (setRegister hllData i value) i = value := by
  refine UInt8.toBitVec_inj.mp (eq_of_getLsbD_eq fun b _ => ?_)
  rw [getLsbD_getRegister, bitAt_setRegister hi]
  by_cases hb : b < 6
  · simp [hb]
  · have hlt : value.toNat < 2 ^ b := (UInt8.lt_iff_toNat_lt.mp hvalue).trans_le
      (Nat.pow_le_pow_right (n := 2) (i := 6) (by decide) (by omega))
    simp only [hb, decide_false, Bool.false_and]
    exact (Nat.testBit_lt_two_pow hlt).symm

/-- Registers are independent if and only if the sign does no harm. -/
theorem setRegister_iff (data : Bytes) {i : ℕ} {value : UInt8} (hi : i < kHllRegisters - 1)
    (hvalue : value < 64) :
    (getRegister (setRegister (ensureHllData data) i value) i = value ∧
      ∀ j < kHllRegisters - 1, j ≠ i → getRegister (setRegister (ensureHllData data) i value) j =
        getRegister (ensureHllData data) j) ↔ Separate (ensureHllData data) i := by
  rw [kHllRegisters] at hi
  have hlength : i * 6 / 8 + 1 < (ensureHllData data).length := by
    rw [length_ensureHllData, kHllBytes]
    omega
  rw [and_iff_right (getRegister_setRegister_self hlength hvalue)]
  simp only [getRegister_eq_iff, bitAt_setRegister hlength]
  constructor
  · -- a bit after the window belongs to another register
    intro h hsign hlast b hb hafter
    rw [kHllRegisters] at hlast h
    have hbit := h ((8 * (i * 6 / 8 + 1) + b) / 6) (by omega) (by omega)
      ((8 * (i * 6 / 8 + 1) + b) % 6) (by omega)
    rw [Nat.div_add_mod', if_neg (by omega), if_pos (by omega), hsign, bitAt] at hbit
    rw [show (8 * (i * 6 / 8 + 1) + b) / 8 = i * 6 / 8 + 1 by omega,
      show (8 * (i * 6 / 8 + 1) + b) % 8 = b by omega] at hbit
    exact hbit.symm
  · intro h j hj hne b hb
    rw [kHllRegisters] at hj
    rw [if_neg (by omega)]
    split
    · next hsecond =>
      cases hsign : (charAt (ensureHllData data) (i * 6 / 8)).msb with
      | false => rfl
      | true =>
        rw [bitAt, hsecond, h hsign (by rw [kHllRegisters]; omega) _ (by omega) (by omega)]
        rfl
    · rfl

theorem setRegister_iff_zeros : (0 : UInt8) < 64 ∧
    ((getRegister (setRegister (ensureHllData []) 1 0) 1 = 0 ∧
      ∀ j < kHllRegisters - 1, j ≠ 1 → getRegister (setRegister (ensureHllData []) 1 0) j =
        getRegister (ensureHllData []) j) ↔ Separate (ensureHllData []) 1) :=
  ⟨by decide, setRegister_iff [] (by decide) (by decide)⟩

/-- The first register is written, and the second one goes from 2 to 62. -/
theorem setRegister_spills : getRegister (ensureHllData [0x80]) 1 = 2 ∧
    getRegister (setRegister (ensureHllData [0x80]) 0 1) 1 = 62 := by
  decide

/-- The loop of `CountLeadingZeros`; `none` if it has not ended after `fuel` rounds. -/
def countZeros : ℕ → UInt64 → UInt8 → Option UInt8
  | 0, _, _ => none
  | fuel + 1, value, count =>
    if value &&& (1 : UInt64) <<< 49 = 0 then countZeros fuel (value <<< 1) (count + 1)
    else some count

def countLeadingZeros (fuel : ℕ) (value : UInt64) : Option UInt8 :=
  let value := value &&& 0x00FFFFFFFFFFFFFF
  if value = 0 then some 50 else countZeros fuel value 0

/-- The body of the loop over the elements. -/
def addElement (murmurHash64 : Bytes → UInt64) (fuel : ℕ) (hllData : Bytes)
    (element : CommandArg) : Option Bytes :=
  let hash := murmurHash64 element.value
  let regIdx := (hash >>> 50).toNat
  (countLeadingZeros fuel hash).map fun count =>
    if getRegister hllData regIdx < count then setRegister hllData regIdx count else hllData

def handlePfAdd (env : DatabaseEnv) (murmurHash64 : Bytes → UInt64) (fuel : ℕ)
    (args : List CommandArg) (victims : List (Bytes × KeyType)) (db : Store env) :
    Option (CommandResult × Store env) :=
  match args with
  | [] => some (Bitmap.wrongNumber "pfadd", db)
  | key :: elements =>
    let (value, db) := db.onKey key.value Stored.get
    let hllData := ensureHllData (value.getD [])
    (elements.foldlM (addElement murmurHash64 fuel) hllData).map fun hllData =>
      (.ofResponse (.ofInteger 1), db.set key.value hllData victims)

/-- The zeros above the highest bit that is set, among the low 50 bits. -/
def zerosAbove (h : UInt64) : ℕ := 50 - (h.toNat % 2 ^ 50).size

/-- The low 50 bits are not all zero, or the six bits above them are zero as well. -/
def Ends (h : UInt64) : Prop := h.toNat % 2 ^ 50 ≠ 0 ∨ h.toNat % 2 ^ 56 = 0

instance (h : UInt64) : Decidable (Ends h) := inferInstanceAs (Decidable (_ ∨ _))

variable {v : UInt64} {fuel : ℕ}

theorem and_bit_eq_zero_iff (v : UInt64) :
    v &&& (1 : UInt64) <<< 49 = 0 ↔ v.toNat % 2 ^ 50 < 2 ^ 49 := by
  rw [← UInt64.toNat_inj, UInt64.toNat_and, show ((1 : UInt64) <<< 49).toNat = 2 ^ 49 from rfl,
    show (0 : UInt64).toNat = 0 from rfl, Nat.and_comm, Nat.two_pow_and,
    Nat.testBit_eq_decide_div_mod_eq]
  by_cases h : v.toNat / 2 ^ 49 % 2 = 1
  · simp only [h, decide_true, Bool.toNat_true]
    omega
  · simp only [h, decide_false, Bool.toNat_false]
    omega

theorem toNat_shiftLeft_one (v : UInt64) :
    (v <<< 1).toNat % 2 ^ 50 = 2 * (v.toNat % 2 ^ 50) % 2 ^ 50 := by
  rw [UInt64.toNat_shiftLeft, show (1 : UInt64).toNat % 64 = 1 from rfl, Nat.shiftLeft_eq]
  omega

theorem countZeros_eq_none (hv : v.toNat % 2 ^ 50 = 0) (count : UInt8) :
    countZeros fuel v count = none := by
  induction fuel generalizing v count with
  | zero => rfl
  | succ fuel ih =>
    have htwice := toNat_shiftLeft_one v
    rw [countZeros, if_pos ((and_bit_eq_zero_iff v).mpr (by omega))]
    exact ih (by omega) (count + 1)

theorem countZeros_eq_some {c : ℕ} (hv : (v.toNat % 2 ^ 50).size + c = 50)
    (hne : v.toNat % 2 ^ 50 ≠ 0) (count : UInt8) :
    countZeros (fuel + c + 1) v count = some (count + UInt8.ofNat c) := by
  induction c generalizing v count with
  | zero =>
    have hbit : ¬ v.toNat % 2 ^ 50 < 2 ^ 49 := by
      rw [← Nat.size_le]
      omega
    rw [countZeros, if_neg (mt (and_bit_eq_zero_iff v).mp hbit)]
    simp
  | succ c ih =>
    have hlt : v.toNat % 2 ^ 50 < 2 ^ 49 := Nat.size_le.mp (by omega)
    have htwice : (v <<< 1).toNat % 2 ^ 50 = 2 * (v.toNat % 2 ^ 50) := by
      rw [toNat_shiftLeft_one]
      omega
    have hsize : (2 * (v.toNat % 2 ^ 50)).size = (v.toNat % 2 ^ 50).size + 1 :=
      Nat.size_bit (b := false) (by simpa using hne)
    rw [countZeros, if_pos ((and_bit_eq_zero_iff v).mpr hlt), ← Nat.add_assoc,
      ih (by rw [htwice]; omega) (by omega), UInt8.add_assoc, UInt8.add_comm 1]
    simp

theorem toNat_and_mask (h : UInt64) : (h &&& 0x00FFFFFFFFFFFFFF).toNat = h.toNat % 2 ^ 56 :=
  Nat.and_two_pow_sub_one_eq_mod h.toNat 56

theorem countLeadingZeros_of_ends {h : UInt64} (hends : Ends h) :
    countLeadingZeros 51 h = some (UInt8.ofNat (zerosAbove h)) := by
  have hmask := toNat_and_mask h
  rw [countLeadingZeros]
  split
  · next hzero =>
    rw [hzero, show (0 : UInt64).toNat = 0 from rfl] at hmask
    rw [zerosAbove, show h.toNat % 2 ^ 50 = 0 by omega]
    rfl
  · next hne =>
    rw [← UInt64.toNat_inj, hmask] at hne
    have hlow : (h &&& 0x00FFFFFFFFFFFFFF).toNat % 2 ^ 50 = h.toNat % 2 ^ 50 := by omega
    have hsize : (h.toNat % 2 ^ 50).size ≤ 50 := Nat.size_le.mpr (by omega)
    have hcount : countZeros ((h.toNat % 2 ^ 50).size + zerosAbove h + 1)
        (h &&& 0x00FFFFFFFFFFFFFF) 0 = some (0 + UInt8.ofNat (zerosAbove h)) := by
      refine countZeros_eq_some ?_ ?_ 0
      · rw [hlow, zerosAbove]
        omega
      · rw [hlow]
        exact hends.resolve_right hne
    have hsum : (h.toNat % 2 ^ 50).size + zerosAbove h = 50 := by
      rw [zerosAbove]
      omega
    rw [hsum] at hcount
    rw [hcount, UInt8.zero_add]

theorem countLeadingZeros_eq_none {h : UInt64} (hends : ¬ Ends h) :
    countLeadingZeros fuel h = none := by
  have hmask := toNat_and_mask h
  obtain ⟨hlow, hhigh⟩ := not_or.mp hends
  rw [countLeadingZeros, if_neg]
  · exact countZeros_eq_none (by omega) 0
  · rw [← UInt64.toNat_inj, hmask]
    exact hhigh

theorem foldlM_addElement (murmurHash64 : Bytes → UInt64) (elements : List CommandArg)
    (hllData : Bytes) :
    (∃ fuel, (elements.foldlM (addElement murmurHash64 fuel) hllData).isSome) ↔
      ∀ element ∈ elements, Ends (murmurHash64 element.value) := by
  constructor
  · rintro ⟨fuel, h⟩
    induction elements generalizing hllData with
    | nil => simp
    | cons element elements ih =>
      by_cases hends : Ends (murmurHash64 element.value)
      · rw [List.foldlM_cons] at h
        cases hadd : addElement murmurHash64 fuel hllData element with
        | none => simp [hadd] at h
        | some hllData' => exact List.forall_mem_cons.mpr ⟨hends, ih _ (by simpa [hadd] using h)⟩
      · rw [List.foldlM_cons, addElement, countLeadingZeros_eq_none hends] at h
        simp at h
  · intro h
    refine ⟨51, ?_⟩
    induction elements generalizing hllData with
    | nil => rfl
    | cons element elements ih =>
      rw [List.foldlM_cons, addElement, countLeadingZeros_of_ends (h _ List.mem_cons_self)]
      exact ih _ fun e he => h e (List.mem_cons_of_mem _ he)

/-- The loop ends with the number of zeros, and `PFADD` ends, if and only if no hash has only
zeros below bit 50 and something in the six bits above. -/
theorem countLeadingZeros_iff (h : UInt64) (env : DatabaseEnv) (murmurHash64 : Bytes → UInt64)
    (args : List CommandArg) (victims : List (Bytes × KeyType)) (db : Store env) :
    ((∃ fuel, countLeadingZeros fuel h = some (UInt8.ofNat (zerosAbove h))) ↔ Ends h) ∧
      ((∃ fuel, (handlePfAdd env murmurHash64 fuel args victims db).isSome) ↔
        ∀ element ∈ args.tail, Ends (murmurHash64 element.value)) := by
  constructor
  · refine ⟨fun ⟨fuel, hcount⟩ => ?_, fun hends => ⟨51, countLeadingZeros_of_ends hends⟩⟩
    by_contra hends
    rw [countLeadingZeros_eq_none hends] at hcount
    cases hcount
  · cases args with
    | nil => simp [handlePfAdd]
    | cons key elements =>
      simp only [handlePfAdd, Option.isSome_map]
      exact foldlM_addElement ..

/-- Bit 50 is set, and no bit below it. -/
theorem countLeadingZeros_endless : ¬ ∃ fuel, (countLeadingZeros fuel ((1 : UInt64) <<< 50)).isSome := by
  rintro ⟨fuel, h⟩
  rw [countLeadingZeros_eq_none (by decide)] at h
  cases h

end HyperLogLog
