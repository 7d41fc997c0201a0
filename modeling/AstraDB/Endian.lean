/-
The bytes of a number, of a fixed width.

`littleEndian width n` are the lowest `width` bytes of `n`, the lowest first; `bigEndian`
are the same, the highest first.  A number below `256 ^ width` can be read back
(`ofLittleEndian_littleEndian`).
-/
import Mathlib.Data.Nat.Digits.Defs
import Mathlib.Tactic.Ring

open List

namespace Endian

variable (width n : ℕ)

def littleEndian : List UInt8 :=
  (range width).map fun i => UInt8.ofNat (n / 256 ^ i)

def bigEndian : List UInt8 := (littleEndian width n).reverse

def ofLittleEndian (bytes : List UInt8) : ℕ := Nat.ofDigits 256 (bytes.map (·.toNat))

@[simp]
theorem length_littleEndian : (littleEndian width n).length = width := by
  rw [littleEndian, length_map, length_range]

@[simp]
theorem length_bigEndian : (bigEndian width n).length = width := by
  rw [bigEndian, length_reverse, length_littleEndian]

theorem littleEndian_succ :
    littleEndian (width + 1) n = UInt8.ofNat n :: littleEndian width (n / 256) := by
  rw [littleEndian, range_succ_eq_map, map_cons, pow_zero, Nat.div_one, map_map,
    littleEndian]
  refine congrArg _ (map_congr_left fun i _ => ?_)
  rw [Function.comp_apply, Nat.div_div_eq_div_mul, pow_succ']

theorem ofLittleEndian_littleEndian : ofLittleEndian (littleEndian width n) = n % 256 ^ width := by
  induction width generalizing n with
  | zero => rw [pow_zero, Nat.mod_one]; rfl
  | succ width ih =>
    rw [littleEndian_succ, ofLittleEndian, map_cons, Nat.ofDigits_cons]
    have ih := ih (n / 256)
    rw [ofLittleEndian] at ih
    rw [ih, UInt8.toNat_ofNat', pow_succ' 256 width, Nat.mod_mul]

theorem ofLittleEndian_inj {bytes bytes' : List UInt8} (hlength : bytes.length = bytes'.length)
    (h : ofLittleEndian bytes = ofLittleEndian bytes') : bytes = bytes' := by
  have hlt : ∀ l : List UInt8, ∀ d ∈ l.map (·.toNat), d < 256 := by
    intro l d hd
    obtain ⟨b, -, rfl⟩ := mem_map.mp hd
    exact b.toNat_lt
  have hmap := Nat.ofDigits_inj_of_len_eq (by decide : 1 < 256)
    (by rw [length_map, length_map, hlength]) (hlt bytes) (hlt bytes') h
  exact (map_inj_right fun _ _ h => UInt8.toNat_inj.mp h).mp hmap

end Endian
