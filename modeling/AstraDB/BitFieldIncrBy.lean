/-
`BITFIELD … INCRBY`.

The sum of a field and an increment is formed in 64 bits, and so are the bounds of the type; in a
type of 64 bits, the mask that is to hold all its bits is 0.

* `incrBy_iff` — `INCRBY`, and where it fails: with 64 bits, and where the sum does not fit in
  64 bits and is to saturate.
-/
import AstraDB.BitField

open Bitmap Int64 Bits

namespace FieldType

variable {t : FieldType} {offset : Int64}

theorem getBit_append_zeros (bitmap : Bytes) (n : ℕ) (p : ℤ) :
    getBit (bitmap ++ List.replicate n 0) p = getBit bitmap p := by
  rcases Int.lt_or_le p 0 with hp | hp
  · rw [getBit_of_neg _ hp, getBit_of_neg _ hp]
  · rw [getBit_eq _ hp, getBit_eq _ hp, getD_append_zeros]

theorem wrap_toInt_ofInt (x : ℤ) : t.wrap (Int64.ofInt x).toInt = t.wrap x := by
  rw [toInt_ofInt, ← wrap_emod, ← wrap_emod x]
  congr 1
  exact Int.bmod_emod

theorem reduce_of_lt (h : t.bits < 64) (x : ℤ) :
    t.reduce (Int64.ofInt x) = Int64.ofInt (t.wrap x) := by
  have hand : ((Int64.ofInt x).toUInt64 &&& t.maxValue).toNat =
      (Int64.ofInt x).toUInt64.toNat % 2 ^ t.bits := by
    rw [UInt64.toNat_and, toNat_maxValue h, Nat.and_two_pow_sub_one_eq_mod]
  rw [reduce, toInt64_signExtend (by rw [hand]; exact Nat.mod_lt _ (Nat.two_pow_pos _)), hand,
    ← wrap_toInt_ofInt x, ← wrap_emod (Int64.ofInt x).toInt, ← toNat_toUInt64]
  congr 1
  refine wrap_congr ?_
  push_cast
  exact Int.emod_emod _ _

theorem reduce_of_eq (h : t.bits = 64) (y : Int64) : t.reduce y = 0 := by
  rw [reduce, maxValue_of_eq h, UInt64.and_zero, signExtend, if_neg (by simp [h])]
  rfl

theorem maxValue_lt_iff (hbits : t.bits < 64) {y : Int64} (hy : 0 ≤ y.toInt) :
    t.maxValue < y.toUInt64 ↔ 2 ^ t.bits - 1 < y.toInt := by
  have hcast : ((2 ^ t.bits : ℕ) : ℤ) = 2 ^ t.bits := by norm_cast
  have hvalue := toNat_toUInt64 y
  have hlt := y.toInt_lt
  rw [UInt64.lt_iff_toNat_lt, toNat_maxValue hbits]
  have hpos := Nat.two_pow_pos t.bits
  omega

theorem toInt_saturate (h : t.bits < 64 ∨ t.signed = true) (y : Int64) :
    (t.saturate y).toInt = t.clamp y.toInt := by
  by_cases hsigned : t.signed = true
  · have hpos := t.one_le_two_pow
    rw [saturate, if_pos hsigned, clamp, least, greatest, if_pos hsigned, if_pos hsigned]
    simp only [lt_iff_toInt_lt, apply_ite Int64.toInt, toInt_minSigned, toInt_maxSigned]
    split <;> split <;> omega
  · have hbits := h.resolve_right hsigned
    have hpos : (1 : ℤ) ≤ 2 ^ t.bits := one_le_pow₀ (by decide)
    have hle := two_pow_le_of_lt hbits
    have hmax : t.maxValue.toInt64.toInt = 2 ^ t.bits - 1 := by
      rw [toInt64_eq (x := 2 ^ t.bits - 1), toInt_ofInt_of_le (by omega) (by omega)]
      rw [toNat_maxValue hbits, Nat.cast_sub Nat.one_le_two_pow]
      push_cast
      omega
    have hzero : (0 : Int64).toInt = 0 := rfl
    rw [saturate, if_neg hsigned, clamp, least, greatest, if_neg hsigned, if_neg hsigned]
    dsimp only
    split
    · next hy =>
      rw [if_neg (by rw [maxValue_lt_iff hbits (by decide)]; omega)]
      rw [lt_iff_toInt_lt] at hy
      omega
    · next hy =>
      rw [lt_iff_toInt_lt] at hy
      split
      · next hlt =>
        rw [hmax]
        rw [maxValue_lt_iff hbits (by omega)] at hlt
        omega
      · next hlt =>
        rw [maxValue_lt_iff hbits (by omega)] at hlt
        omega

theorem saturate_of_eq (h : t.signed = false) (hbits : t.bits = 64) (y : Int64) :
    t.saturate y = 0 := by
  have hnone : ∀ value : Int64,
      (if t.maxValue < value.toUInt64 then t.maxValue.toInt64 else value) = 0 := by
    intro value
    rw [maxValue_of_eq hbits]
    split
    · rfl
    · next hlt => exact not_not.mp (mt (zero_lt_toUInt64_iff value).mpr hlt)
  rw [saturate, if_neg (by simp [h])]
  exact hnone _

theorem overflows_iff (h : t.bits < 64 ∨ t.signed = true) (y : Int64) :
    t.overflows y = true ↔ ¬ (t.least ≤ y.toInt ∧ y.toInt ≤ t.greatest) := by
  by_cases hsigned : t.signed = true
  · rw [overflows, if_pos hsigned, least, greatest, if_pos hsigned, if_pos hsigned]
    simp only [Bool.or_eq_true, decide_eq_true_iff, lt_iff_toInt_lt, toInt_minSigned,
      toInt_maxSigned]
    omega
  · have hzero : (0 : Int64).toInt = 0 := rfl
    rw [overflows, if_neg hsigned, least, greatest, if_neg hsigned, if_neg hsigned,
      Bool.or_eq_true, decide_eq_true_iff, decide_eq_true_iff, lt_iff_toInt_lt]
    by_cases hy : y.toInt < 0
    · omega
    · rw [maxValue_lt_iff (h.resolve_right hsigned) (by omega)]
      omega

theorem overflows_of_eq (h : t.signed = false) (hbits : t.bits = 64) (y : Int64) :
    t.overflows y = true ↔ y ≠ 0 := by
  rw [overflows, if_neg (by simp [h]), maxValue_of_eq hbits, Bool.or_eq_true, decide_eq_true_iff,
    decide_eq_true_iff, zero_lt_toUInt64_iff, lt_iff_toInt_lt]
  constructor
  · rintro (hy | hy)
    · rintro rfl
      exact absurd hy (by decide)
    · exact hy
  · exact .inr

theorem incrBy_eq (h : t.Reaches offset) (mode : OverflowMode) (increment : Int64)
    (bitmap : Bytes) :
    let sum := Int64.ofInt (t.field offset bitmap + increment.toInt)
    ∃ bitmap', (∀ p, getBit bitmap' p = getBit bitmap p) ∧
      t.incrBy mode offset increment bitmap =
        match mode with
        | .fail =>
          if t.overflows sum then (none, bitmap')
          else (some sum, t.write (t.absOffset offset) sum bitmap')
        | .sat => (some (t.saturate sum), t.write (t.absOffset offset) (t.saturate sum) bitmap')
        | .wrap => (some (t.reduce sum), t.write (t.absOffset offset) (t.reduce sum) bitmap') := by
  have hgrown : ∀ p, getBit (if bitmap.length < (t.requiredBytes offset).toInt then
      bitmap ++ List.replicate ((t.requiredBytes offset).toInt.toNat - bitmap.length) 0
      else bitmap) p = getBit bitmap p := by
    intro p
    split
    · exact getBit_append_zeros bitmap _ p
    · rfl
  have hcurrent := forUp_or t.le fun j => getBit bitmap (t.absOffset offset j).toInt
  refine ⟨_, hgrown, ?_⟩
  cases mode
  all_goals
    simp only [incrBy, hgrown]
    rw [toInt64_signExtend (by rw [hcurrent]; exact ofLow_lt _ _), hcurrent, h.wrap_ofLow,
      ofInt_add, ofInt_toInt]

variable (t) in
/-- What the modes are to do with the sum `c + d`: the reply, and the value `c'` afterwards. -/
def IncrLaw (mode : OverflowMode) (c d : ℤ) (reply : Option Int64) (c' : ℤ) : Prop :=
  match mode with
  | .wrap => reply = some (Int64.ofInt (t.wrap (c + d))) ∧ c' = t.wrap (c + d)
  | .sat => reply = some (Int64.ofInt (t.clamp (c + d))) ∧ c' = t.clamp (c + d)
  | .fail => (reply = none ∧ c' = c) ↔ ¬ (t.least ≤ c + d ∧ c + d ≤ t.greatest)

variable (t) in
def IncrExact (mode : OverflowMode) (x : ℤ) : Prop :=
  match mode with
  | .wrap => t.bits < 64 ∨ 2 ^ 64 ∣ x
  | .sat => if t.bits < 64 ∨ t.signed then -2 ^ 63 ≤ x ∧ x < 2 ^ 63 else x ≤ 0
  | .fail =>
    t.bits < 64 ∨ if t.signed then -2 ^ 63 ≤ x ∧ x < 2 ^ 63 else x ≤ 0 ∨ 2 ^ 64 < x

instance (mode : OverflowMode) (x : ℤ) : Decidable (t.IncrExact mode x) :=
  match mode with
  | .wrap => inferInstanceAs (Decidable (t.bits < 64 ∨ 2 ^ 64 ∣ x))
  | .sat =>
    inferInstanceAs (Decidable
      (if t.bits < 64 ∨ t.signed then -2 ^ 63 ≤ x ∧ x < 2 ^ 63 else x ≤ 0))
  | .fail =>
    inferInstanceAs (Decidable
      (t.bits < 64 ∨ if t.signed then -2 ^ 63 ≤ x ∧ x < 2 ^ 63 else x ≤ 0 ∨ 2 ^ 64 < x))

theorem wrap_law_iff (c d : ℤ) :
    t.IncrLaw .wrap c d (some (t.reduce (Int64.ofInt (c + d))))
      (t.wrap (t.reduce (Int64.ofInt (c + d))).toInt) ↔ t.IncrExact .wrap (c + d) := by
  dsimp only [IncrLaw, IncrExact]
  generalize c + d = x
  by_cases hbits : t.bits < 64
  · rw [reduce_of_lt hbits, wrap_toInt_ofInt, wrap_of_mem (least_le_wrap x) (wrap_le_greatest x)]
    exact iff_of_true ⟨rfl, rfl⟩ (.inl hbits)
  · have heq : t.bits = 64 := le_antisymm t.le (Nat.le_of_not_lt hbits)
    have hmod := wrap_emod_two_pow (t := t) x
    rw [heq] at hmod
    rw [reduce_of_eq heq, show (0 : Int64) = Int64.ofInt 0 from rfl, wrap_toInt_ofInt,
      Option.some_inj, ofInt_eq_iff, hmod, Int.dvd_iff_emod_eq_zero]
    constructor
    · exact fun h => .inr h.1.symm
    · intro h
      have hzero := h.resolve_left hbits
      exact ⟨hzero.symm, wrap_congr (by rw [heq, hzero]; rfl)⟩

theorem least_greatest (h : t.bits < 64 ∨ t.signed = true) :
    -2 ^ 63 ≤ t.least ∧ t.greatest < 2 ^ 63 ∧
      (t.least = 0 ∧ 1 ≤ t.greatest ∨ t.least ≤ -1 ∧ 0 ≤ t.greatest) := by
  have hpos := t.one_le_two_pow
  have hle := t.two_pow_le
  have htwo := t.two_pow_eq
  rw [greatest_eq, least]
  split
  · omega
  · next hsigned =>
    have hlt := two_pow_le_of_lt (h.resolve_right hsigned)
    omega

section

variable {c d : ℤ} (hc : t.least ≤ c) (hc' : c ≤ t.greatest) (hd : -2 ^ 63 ≤ d) (hd' : d < 2 ^ 63)

include hc hc' hd hd'

theorem saturate_eq_iff :
    t.saturate (Int64.ofInt (c + d)) = Int64.ofInt (t.clamp (c + d)) ↔
      t.IncrExact .sat (c + d) := by
  dsimp only [IncrExact]
  by_cases h : t.bits < 64 ∨ t.signed = true
  · obtain ⟨hmin, hmax, hzero⟩ := least_greatest h
    have hclamp : -2 ^ 63 ≤ t.clamp (c + d) ∧ t.clamp (c + d) < 2 ^ 63 := by
      rw [clamp]
      omega
    rw [if_pos h, ← toInt_inj, toInt_saturate h,
      toInt_ofInt_of_le hclamp.1 hclamp.2, toInt_ofInt_cases (by omega) (by omega),
      clamp, clamp]
    -- a sum that does not fit has the wrong sign
    split
    · omega
    · split <;> omega
  · -- everything becomes 0
    obtain ⟨hbits, hsigned⟩ := not_or.mp h
    have heq : t.bits = 64 := le_antisymm t.le (Nat.le_of_not_lt hbits)
    have hpow : (2 : ℤ) ^ t.bits = 2 ^ 64 := by rw [heq]
    have hleast : t.least = 0 := if_neg hsigned
    rw [greatest_eq] at hc'
    rw [if_neg h, saturate_of_eq (Bool.not_eq_true _ ▸ hsigned) heq,
      show (0 : Int64) = Int64.ofInt 0 from rfl, ofInt_eq_iff, clamp, greatest_eq]
    omega

theorem overflows_ofInt_iff :
    (t.overflows (Int64.ofInt (c + d)) = true ↔ ¬ (t.least ≤ c + d ∧ c + d ≤ t.greatest)) ↔
      t.IncrExact .fail (c + d) := by
  dsimp only [IncrExact]
  by_cases h : t.bits < 64 ∨ t.signed = true
  · obtain ⟨hmin, hmax, hzero⟩ := least_greatest h
    rw [overflows_iff h, toInt_ofInt_cases (by omega) (by omega)]
    by_cases hbits : t.bits < 64
    · -- a sum that does not fit is off by more than the range of the type
      have hlt := two_pow_le_of_lt hbits
      have hgreatest := t.greatest_eq
      refine iff_of_true ?_ (.inl hbits)
      split
      · omega
      · split <;> omega
    · have hsigned := h.resolve_left hbits
      have heq : t.bits = 64 := le_antisymm t.le (Nat.le_of_not_lt hbits)
      have hleast : t.least = -2 ^ 63 := by rw [least, if_pos hsigned, heq]
      have hgreatest : t.greatest = 2 ^ 63 - 1 := by rw [greatest, if_pos hsigned, heq]
      rw [if_pos hsigned]
      split
      · omega
      · split <;> omega
  · obtain ⟨hbits, hsigned⟩ := not_or.mp h
    have heq : t.bits = 64 := le_antisymm t.le (Nat.le_of_not_lt hbits)
    have hpow : (2 : ℤ) ^ t.bits = 2 ^ 64 := by rw [heq]
    have hleast : t.least = 0 := if_neg hsigned
    rw [greatest_eq] at hc'
    rw [overflows_of_eq (Bool.not_eq_true _ ▸ hsigned) heq, Ne,
      show (0 : Int64) = Int64.ofInt 0 from rfl, ofInt_eq_iff, greatest_eq, if_neg hsigned]
    omega

end

theorem wrap_clamp (x : ℤ) : t.wrap (t.clamp x) = t.clamp x := by
  have hpos : (1 : ℤ) ≤ 2 ^ t.bits := one_le_pow₀ (by decide)
  refine wrap_of_mem (Int.le_max_left _ _) ?_
  rw [clamp, greatest_eq]
  omega

theorem incrLaw_iff (h : t.Reaches offset) (mode : OverflowMode) (d : Int64) (bitmap : Bytes) :
    t.IncrLaw mode (t.field offset bitmap) d.toInt (t.incrBy mode offset d bitmap).1
        (t.field offset (t.incrBy mode offset d bitmap).2) ↔
      t.IncrExact mode (t.field offset bitmap + d.toInt) := by
  obtain ⟨bitmap', hbits, heq⟩ := incrBy_eq h mode d bitmap
  have hwrite := fun value => field_write h (fun j => h.toInt_absOffset) value bitmap'
  have hc : t.least ≤ t.field offset bitmap := least_le_wrap _
  have hc' : t.field offset bitmap ≤ t.greatest := wrap_le_greatest _
  rw [heq]
  cases mode with
  | wrap =>
    dsimp only
    rw [hwrite]
    exact wrap_law_iff _ _
  | sat =>
    dsimp only [IncrLaw]
    rw [hwrite, Option.some_inj, ← saturate_eq_iff hc hc' d.le_toInt d.toInt_lt]
    refine ⟨And.left, fun hsat => ⟨hsat, ?_⟩⟩
    rw [hsat, wrap_toInt_ofInt, wrap_clamp]
  | fail =>
    dsimp only [IncrLaw]
    rw [← overflows_ofInt_iff hc hc' d.le_toInt d.toInt_lt]
    refine iff_congr ?_ Iff.rfl
    split
    · next hover =>
      refine iff_of_true ⟨rfl, ?_⟩ hover
      rw [field, field, ofLow_congr fun j _ => hbits _]
    · next hover =>
      exact iff_of_false (fun hnone => Option.some_ne_none _ hnone.1) hover

end FieldType

namespace BitField

variable {env : BitFieldEnv} {t : FieldType} {encoding offset value : CommandArg} {o v : Int64}

theorem run_incrBy (htype : ∀ notNumber, typeArg env notNumber encoding = .ok t)
    (hoffset : offsetArg env offset = .ok o) (hvalue : offsetArg env value = .ok v)
    (mode : OverflowMode) (args : List CommandArg) (bitmap : Bytes) :
    run env mode (word "INCRBY" :: encoding :: offset :: value :: args) bitmap =
      (run env mode args (t.incrBy mode o v bitmap).2).map
        fun r => (reply (t.incrBy mode o v bitmap).1 :: r.1, r.2) := by
  rw [run, if_neg (by decide), if_neg (by decide), if_neg (by decide), if_pos (by decide)]
  dsimp only
  rw [hoffset, hvalue, htype]
  rfl

/-- **`INCRBY`** does what its mode says exactly where the sum and the bounds are computed without
an overflow, or the overflow does not matter. -/
theorem incrBy_iff (htype : ∀ notNumber, typeArg env notNumber encoding = .ok t)
    (hoffset : offsetArg env offset = .ok o) (hvalue : offsetArg env value = .ok v)
    (hreaches : t.Reaches o) (mode : OverflowMode) (bitmap : Bytes) :
    ∃ result bitmap',
      run env mode [word "INCRBY", encoding, offset, value] bitmap =
        .ok ([reply result], bitmap') ∧
      (t.IncrLaw mode (t.field o bitmap) v.toInt result (t.field o bitmap') ↔
        t.IncrExact mode (t.field o bitmap + v.toInt)) :=
  ⟨_, _, run_incrBy htype hoffset hvalue mode [] bitmap,
    FieldType.incrLaw_iff hreaches mode v bitmap⟩

theorem incrBy_iff_i8 : ∃ result bitmap',
    run simpleBitField .sat [word "INCRBY", word "i8", word "2", word "-200"] [] =
      .ok ([reply result], bitmap') ∧
    (FieldType.mk true 8 (by decide) (by decide)).IncrLaw .sat 0 (-200) result
      ((FieldType.mk true 8 (by decide) (by decide)).field 2 bitmap') := by
  have htype : ∀ notNumber, typeArg simpleBitField notNumber (word "i8") =
      .ok ⟨true, 8, by decide, by decide⟩ := fun _ => rfl
  have hoffset : offsetArg simpleBitField (word "2") = .ok 2 := rfl
  have hvalue : offsetArg simpleBitField (word "-200") = .ok (-200) := rfl
  obtain ⟨result, bitmap', hrun, hiff⟩ := incrBy_iff htype hoffset hvalue ⟨by decide, by decide⟩
    .sat []
  exact ⟨result, bitmap', hrun, hiff.mpr (by decide)⟩

/-- Nothing can be added to 64 bits that wrap, and a sum that does not fit saturates at the wrong
end. -/
theorem incrBy_overflow :
    run simpleBitField .wrap [word "INCRBY", word "u64", word "0", word "5"] [] =
      .ok ([.ofInteger 0], List.replicate 8 0) ∧
    run simpleBitField .sat
        [word "INCRBY", word "u8", word "0", word "9223372036854775807"] [0x80] =
      .ok ([.ofInteger 0], [0]) ∧
    (FieldType.mk false 64 (by decide) (by decide)).wrap (0 + 5) = 5 ∧
    (FieldType.mk false 8 (by decide) (by decide)).field 0 [0x80] = 1 ∧
    (FieldType.mk false 8 (by decide) (by decide)).clamp (1 + 9223372036854775807) = 255 := by
  have hwrap : (FieldType.mk false 64 (by decide) (by decide)).incrBy .wrap 0 5 [] =
      (some 0, List.replicate 8 0) := by
    decide +kernel
  refine ⟨?_, rfl, by decide, by decide, by decide⟩
  rw [run_incrBy (t := ⟨false, 64, by decide, by decide⟩) (o := 0) (v := 5) (fun _ => rfl) rfl rfl,
    hwrap]
  rfl

end BitField
