/-
Decimal texts of integers.

`fromChars` is `std::from_chars` for `int64_t`, without where the number ended: an optional
minus sign and the digits after it; no digits or a number out of range is an error.  `stoul`
is `std::stoul`, which also reads blanks before the number and a plus sign, and `strtoll` is
`std::strtoll`.  `text` is what `std::to_string` writes; `fromChars_text` and `stoul_natText`
read it back.
-/
import AstraDB.CRLF
import Mathlib.Data.List.TakeWhile
import Mathlib.Data.Nat.Digits.Lemmas

open List

namespace Decimal

def isDigit (c : UInt8) : Bool := decide ('0'.toUInt8 ≤ c ∧ c ≤ '9'.toUInt8)

def digit (c : UInt8) : ℕ := c.toNat - '0'.toNat

/-- The number `v` followed by the digits. -/
def value (v : ℕ) (digits : Bytes) : ℕ := digits.foldl (fun v c => v * 10 + digit c) v

def sign (negative : Bool) : Bytes := if negative then ['-'.toUInt8] else []

def signed (negative : Bool) (v : ℕ) : ℤ := if negative then -v else v

/-- `std::from_chars(first, last, int64_t&)`: the number, unless `ec` is set. -/
def fromChars (s : Bytes) : Option Int64 :=
  let negative := decide (s.head? = some '-'.toUInt8)
  let digits := (if negative then s.tail else s).takeWhile isDigit
  if digits.isEmpty then none
  else
    let n := signed negative (value 0 digits)
    if -2 ^ 63 ≤ n ∧ n < 2 ^ 63 then some (Int64.ofInt n) else none

/-- What `std::stoul` throws. -/
inductive StoulError
  | invalidArgument
  | outOfRange
  deriving DecidableEq, Repr

def isSpace (c : UInt8) : Bool := decide (c = 32 ∨ 9 ≤ c ∧ c ≤ 13)

/-- `std::stoul`; a number after a minus sign is negated in 64 bits. -/
def stoul (s : Bytes) : Except StoulError ℕ :=
  let s := s.dropWhile isSpace
  let negative := decide (s.head? = some '-'.toUInt8)
  let signed := negative || decide (s.head? = some '+'.toUInt8)
  let digits := (if signed then s.tail else s).takeWhile isDigit
  if digits.isEmpty then .error .invalidArgument
  else if 2 ^ 64 ≤ value 0 digits then .error .outOfRange
  else .ok (if negative then (2 ^ 64 - value 0 digits) % 2 ^ 64 else value 0 digits)

/-- `std::strtoll` of a C string that has to end where the number ends; a number out of range is
the nearest one in range. -/
def strtoll (s : Bytes) : Option Int64 :=
  let s := (s.takeWhile (· ≠ 0)).dropWhile isSpace
  let negative := decide (s.head? = some '-'.toUInt8)
  let digits := if negative || decide (s.head? = some '+'.toUInt8) then s.tail else s
  if digits.isEmpty || !digits.all isDigit then none
  else some (Int64.ofInt (max (-2 ^ 63) (min (2 ^ 63 - 1) (signed negative (value 0 digits)))))

def natText (n : ℕ) : Bytes :=
  if n = 0 then ['0'.toUInt8]
  else (Nat.digits 10 n).reverse.map fun d => UInt8.ofNat ('0'.toNat + d)

/-- `std::to_string(n)`. -/
def text (n : ℤ) : Bytes := sign (decide (n < 0)) ++ natText n.natAbs

theorem toNat_ofNat_digit {d : ℕ} (hd : d < 10) : (UInt8.ofNat ('0'.toNat + d)).toNat = 48 + d := by
  rw [UInt8.toNat_ofNat', show '0'.toNat = 48 from rfl]
  exact Nat.mod_eq_of_lt (by omega)

variable {c : UInt8} {n : ℕ} {digits : Bytes}

theorem isDigit_iff : isDigit c = true ↔ 48 ≤ c.toNat ∧ c.toNat ≤ 57 := by
  rw [isDigit, decide_eq_true_iff, UInt8.le_iff_toNat_le, UInt8.le_iff_toNat_le]
  exact Iff.rfl

theorem digit_lt (hc : isDigit c = true) : digit c < 10 := by
  have h := isDigit_iff.mp hc
  have h0 : '0'.toNat = 48 := rfl
  rw [digit]
  omega

theorem isDigit_of_mem_natText (hc : c ∈ natText n) : isDigit c = true := by
  rw [natText] at hc
  split at hc
  · rw [mem_singleton.mp hc]
    rfl
  · obtain ⟨d, hd, rfl⟩ := mem_map.mp hc
    have hlt := Nat.digits_lt_base (by decide) (mem_reverse.mp hd)
    rw [isDigit_iff, toNat_ofNat_digit hlt]
    omega

theorem natText_ne_nil (n : ℕ) : natText n ≠ [] := by
  rw [natText]
  split
  · simp
  · next h => simpa using Nat.digits_ne_nil_iff_ne_zero.mpr h

theorem length_natText_le {k : ℕ} (hk : 0 < k) (hn : n < 10 ^ k) : (natText n).length ≤ k := by
  rw [natText]
  split
  · exact hk
  · rw [length_map, length_reverse]
    exact (Nat.digits_length_le_iff (by decide) n).mpr hn

theorem value_natText (n : ℕ) : value 0 (natText n) = n := by
  rw [natText]
  split
  · next h => rw [h]; rfl
  · have hdigit : ∀ d ∈ Nat.digits 10 n, digit (UInt8.ofNat ('0'.toNat + d)) = d := by
      intro d hd
      have hlt := Nat.digits_lt_base (by decide) hd
      rw [digit, toNat_ofNat_digit hlt, show '0'.toNat = 48 from rfl]
      omega
    -- `Nat.digits` has the lowest digit first
    rw [value, foldl_map, foldl_reverse]
    conv_rhs => rw [← Nat.ofDigits_digits 10 n, Nat.ofDigits_eq_foldr]
    refine foldr_ext _ _ _ fun d hd v => ?_
    rw [hdigit d hd, Nat.cast_id]
    omega

theorem fromChars_sign_append (hne : digits ≠ []) (hd : ∀ c ∈ digits, isDigit c = true)
    (negative : Bool) :
    fromChars (sign negative ++ digits)
      = if -2 ^ 63 ≤ signed negative (value 0 digits) ∧ signed negative (value 0 digits) < 2 ^ 63
        then some (Int64.ofInt (signed negative (value 0 digits))) else none := by
  have htake : digits.takeWhile isDigit = digits := takeWhile_eq_self_iff.mpr hd
  have hempty : digits.isEmpty = false := by simpa using hne
  cases negative with
  | true =>
    rw [fromChars]
    simp only [sign, if_true, cons_append, nil_append, List.head?_cons, decide_true,
      tail_cons, htake, hempty, Bool.false_eq_true, if_false]
  | false =>
    -- no digit is taken for a sign
    have hhead : decide (digits.head? = some '-'.toUInt8) = false := by
      rw [decide_eq_false_iff_not]
      intro h
      have := isDigit_iff.mp (hd _ (mem_of_mem_head? h))
      exact absurd this.1 (by decide)
    rw [fromChars]
    simp only [sign, Bool.false_eq_true, if_false, nil_append, hhead, htake, hempty]

theorem stoul_natText (hn : n < 2 ^ 64) : stoul (natText n) = .ok n := by
  have hd : ∀ c ∈ natText n, isDigit c = true := fun c => isDigit_of_mem_natText
  have htake : (natText n).takeWhile isDigit = natText n := takeWhile_eq_self_iff.mpr hd
  have hempty : (natText n).isEmpty = false := by simpa using natText_ne_nil n
  -- a digit is neither a blank nor a sign
  have hspace : (natText n).dropWhile isSpace = natText n := by
    rw [dropWhile_eq_self_iff]
    intro hlt hs
    have hdigit := isDigit_iff.mp (hd _ (getElem_mem hlt))
    rw [isSpace, decide_eq_true_iff, UInt8.le_iff_toNat_le, UInt8.le_iff_toNat_le] at hs
    rcases hs with hs | hs
    · rw [hs] at hdigit
      exact absurd hdigit.1 (by decide)
    · have h13 : (13 : UInt8).toNat = 13 := rfl
      omega
  have hhead : ∀ c, isDigit c = false → decide ((natText n).head? = some c) = false := by
    intro c hc
    rw [decide_eq_false_iff_not]
    intro h
    rw [hd c (mem_of_mem_head? h)] at hc
    exact absurd hc (by decide)
  have hminus := hhead '-'.toUInt8 (by decide)
  have hplus := hhead '+'.toUInt8 (by decide)
  rw [stoul]
  simp only [hspace, hminus, hplus, Bool.or_self, Bool.false_eq_true, if_false, htake, hempty,
    value_natText, if_neg (Nat.not_le.mpr hn)]

theorem signed_natAbs (n : ℤ) : signed (decide (n < 0)) n.natAbs = n := by
  rw [signed]
  split
  · next h =>
    have := of_decide_eq_true h
    omega
  · next h =>
    have : ¬ n < 0 := by simpa using h
    omega

theorem fromChars_text (n : Int64) : fromChars (text n.toInt) = some n := by
  rw [text, fromChars_sign_append (natText_ne_nil _) fun c => isDigit_of_mem_natText,
    value_natText, signed_natAbs, if_pos ⟨n.le_toInt, n.toInt_lt⟩, Int64.ofInt_toInt]

theorem notMem_of_isDigit {b : UInt8} (hb : isDigit b = false) (hsign : b ≠ '-'.toUInt8)
    (hd : ∀ c ∈ digits, isDigit c = true) (negative : Bool) : b ∉ sign negative ++ digits := by
  intro h
  rcases mem_append.mp h with h | h
  · cases negative with
    | true => exact hsign (mem_singleton.mp h)
    | false => cases h
  · exact Bool.false_ne_true (hb.symm.trans (hd b h))

theorem cr_notMem_of_isDigit (hd : ∀ c ∈ digits, isDigit c = true) (negative : Bool) :
    CRLF.cr ∉ sign negative ++ digits :=
  notMem_of_isDigit (by decide) (by decide) hd negative

theorem cr_notMem_text (n : ℤ) : CRLF.cr ∉ text n :=
  cr_notMem_of_isDigit (fun _ => isDigit_of_mem_natText) _

theorem lf_notMem_text (n : ℤ) : CRLF.lf ∉ text n :=
  notMem_of_isDigit (by decide) (by decide) (fun _ => isDigit_of_mem_natText) _

end Decimal
