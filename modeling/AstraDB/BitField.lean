/-
`BITFIELD`: numbers of any width in a bitmap.

The bits of a field are written and read from the least significant one on, while bits of a bitmap
are numbered from the most significant bit of each byte on.  Signed overflow wraps, and a shift by
64 is one by 0, as on the processors that the server is built for; to the language both are
undefined.

* `set_get` — what `SET` writes, `GET` reads;
* `get_iff` — this is the number that other programs see in the same bits only if they are the same
  in both directions.
-/
import AstraDB.Bitmap
import Mathlib.Data.Nat.Bitwise

open Bitmap Loops Bits Int64 Int
open Bits (ofLow ofHigh)

/-- `bits <= 0 || bits > 64` is refused. -/
structure FieldType where
  signed : Bool
  bits : ℕ
  pos : 1 ≤ bits
  le : bits ≤ 64

inductive OverflowMode
  | wrap
  | sat
  | fail
  deriving DecidableEq, Repr

namespace FieldType

variable (t : FieldType)

/-! ### The code -/

def maxValue : UInt64 := (1 <<< UInt64.ofNat t.bits) - 1

def minSigned : Int64 := -(1 <<< Int64.ofNat (t.bits - 1))

def maxSigned : Int64 := (1 <<< Int64.ofNat (t.bits - 1)) - 1

def signExtend (value : UInt64) : UInt64 :=
  if t.signed && t.bits < 64 then
    let signBit : UInt64 := 1 <<< UInt64.ofNat (t.bits - 1)
    if value &&& signBit ≠ 0 then value ||| ~~~((1 <<< UInt64.ofNat t.bits) - 1) else value
  else value

/-- The test for `FAIL`. -/
def overflows (value : Int64) : Bool :=
  if t.signed then value < t.minSigned || t.maxSigned < value
  else value < 0 || t.maxValue < value.toUInt64

/-- What is done for `SAT`. -/
def saturate (value : Int64) : Int64 :=
  if t.signed then
    let value := if value < t.minSigned then t.minSigned else value
    if t.maxSigned < value then t.maxSigned else value
  else
    let value := if value < 0 then 0 else value
    if t.maxValue < value.toUInt64 then t.maxValue.toInt64 else value

/-- What `INCRBY` does for `WRAP`. -/
def reduce (value : Int64) : Int64 := (t.signExtend (value.toUInt64 &&& t.maxValue)).toInt64

def byteOffset (offset : Int64) : Int64 := (offset * Int64.ofNat t.bits) / 8

def bitOffset (offset : Int64) : Int64 := (offset * Int64.ofNat t.bits) % 8

def requiredBytes (offset : Int64) : Int64 := t.byteOffset offset + Int64.ofNat ((t.bits + 7) / 8)

/-- The position of bit `j` of a field, in `GET` and `INCRBY`. -/
def absOffset (offset : Int64) (j : ℕ) : Int64 :=
  t.byteOffset offset * 8 + t.bitOffset offset + Int64.ofNat j

def get (offset : Int64) (bitmap : Bytes) : Int64 :=
  if bitmap.length < (t.requiredBytes offset).toInt then 0
  else
    let fieldValue := forUp 0 t.bits
      (fun j (fieldValue : UInt64) =>
        let position := (t.absOffset offset j).toInt
        if position < bitmap.length * 8 then
          if getBit bitmap position then fieldValue ||| (1 <<< UInt64.ofNat j) else fieldValue
        else fieldValue) 0
    (t.signExtend fieldValue).toInt64

/-- The loop that sets the bits. -/
def write (position : ℕ → Int64) (value : Int64) (bitmap : Bytes) : Bytes :=
  let valueToSet := value.toUInt64
  forUp 0 t.bits
    (fun j bitmap =>
      setBit bitmap (position j).toInt ((valueToSet >>> UInt64.ofNat j) &&& 1 ≠ 0)) bitmap

/-- No reply stands for a null. -/
def set (mode : OverflowMode) (offset value : Int64) (bitmap : Bytes) : Option Int64 × Bytes :=
  if mode = .fail && t.overflows value then (none, bitmap)
  else
    let value := if mode = .sat then t.saturate value else value
    (some value,
      t.write (fun j => offset * Int64.ofNat t.bits + Int64.ofNat j) value bitmap)

def incrBy (mode : OverflowMode) (offset increment : Int64) (bitmap : Bytes) :
    Option Int64 × Bytes :=
  let requiredBytes := t.requiredBytes offset
  let bitmap :=
    if bitmap.length < requiredBytes.toInt then
      bitmap ++ List.replicate (requiredBytes.toInt.toNat - bitmap.length) 0
    else bitmap
  let currentValue := forUp 0 t.bits
    (fun j (currentValue : UInt64) =>
      if getBit bitmap (t.absOffset offset j).toInt then currentValue ||| (1 <<< UInt64.ofNat j)
      else currentValue) 0
  let newValue := (t.signExtend currentValue).toInt64 + increment
  match mode with
  | .fail =>
    if t.overflows newValue then (none, bitmap)
    else (some newValue, t.write (t.absOffset offset) newValue bitmap)
  | .sat =>
    let newValue := t.saturate newValue
    (some newValue, t.write (t.absOffset offset) newValue bitmap)
  | .wrap =>
    let newValue := t.reduce newValue
    (some newValue, t.write (t.absOffset offset) newValue bitmap)

end FieldType

/-! ### The command -/

structure BitFieldEnv extends DatabaseEnv where
  /-- `absl::SimpleAtoi` for an `int` -/
  simpleAtoi32 : Bytes → Option Int32
  /-- what `substr(1)` of an empty string throws -/
  substrError : Bytes

namespace BitField

variable (env : BitFieldEnv)

def error (text : String) : HandlerOutcome := .returns (.ofError (ascii text))

def offsetArg (arg : CommandArg) : Except HandlerOutcome Int64 :=
  match env.simpleAtoi arg.value with
  | none => .error (error "ERR value is not an integer or out of range")
  | some offset => .ok offset

/-- The type, with what is said if there is no number in it. -/
def typeArg (notNumber : String) (arg : CommandArg) : Except HandlerOutcome FieldType :=
  match arg.value with
  | [] => .error (.throws env.substrError)
  | first :: digits =>
    match env.simpleAtoi32 digits with
    | none => .error (error notNumber)
    | some bits =>
      if h : 1 ≤ bits.toInt ∧ bits.toInt ≤ 64 then
        .ok ⟨first = 'i'.toUInt8, bits.toInt.toNat, by omega, by omega⟩
      else .error (error "ERR invalid bitfield type")

def modeArg (arg : CommandArg) : Except HandlerOutcome OverflowMode :=
  if arg.value = ascii "WRAP" then .ok .wrap
  else if arg.value = ascii "SAT" then .ok .sat
  else if arg.value = ascii "FAIL" then .ok .fail
  else .error (error "ERR OVERFLOW only supports WRAP, SAT, FAIL")

def reply : Option Int64 → RespValue
  | none => .ofType .kNullBulkString
  | some value => .ofInteger value

/-- The loop over the arguments: the results and the bitmap. -/
def run : OverflowMode → List CommandArg → Bytes → Except HandlerOutcome (List RespValue × Bytes)
  | _, [], bitmap => .ok ([], bitmap)
  | mode, subcommand :: args, bitmap =>
    if subcommand.value = ascii "OVERFLOW" then
      match args with
      | newMode :: args => do
        let mode ← modeArg newMode
        run mode args bitmap
      | [] => .error (error "ERR wrong number of arguments for 'BITFIELD ... OVERFLOW'")
    else if subcommand.value = ascii "GET" then
      match args with
      | encoding :: offset :: args => do
        let offset ← offsetArg env offset
        let t ← typeArg env "ERR value is not an integer or out of range" encoding
        let (results, bitmap') ← run mode args bitmap
        .ok (.ofInteger (t.get offset bitmap) :: results, bitmap')
      | _ => .error (error "ERR wrong number of arguments for 'BITFIELD GET'")
    else if subcommand.value = ascii "SET" then
      match args with
      | encoding :: offset :: value :: args => do
        let offset ← offsetArg env offset
        let value ← offsetArg env value
        let t ← typeArg env "ERR invalid bitfield type" encoding
        let (result, bitmap) := t.set mode offset value bitmap
        let (results, bitmap) ← run mode args bitmap
        .ok (reply result :: results, bitmap)
      | _ => .error (error "ERR wrong number of arguments for 'BITFIELD SET'")
    else if subcommand.value = ascii "INCRBY" then
      match args with
      | encoding :: offset :: increment :: args => do
        let offset ← offsetArg env offset
        let increment ← offsetArg env increment
        let t ← typeArg env "ERR invalid bitfield type" encoding
        let (result, bitmap) := t.incrBy mode offset increment bitmap
        let (results, bitmap) ← run mode args bitmap
        .ok (reply result :: results, bitmap)
      | _ => .error (error "ERR wrong number of arguments for 'BITFIELD INCRBY'")
    else .error (error "ERR unknown BITFIELD subcommand")

def handleBitField (args : List CommandArg) (victims : List (Bytes × KeyType))
    (db : Store env.toDatabaseEnv) : HandlerOutcome × Store env.toDatabaseEnv :=
  match args with
  | [] => (.returns (wrongNumber "bitfield"), db)
  | key :: args =>
    let (value, db) := db.onKey key.value Stored.get
    match run env .wrap args (value.getD []) with
    | .error outcome => (outcome, db)
    | .ok (results, bitmap) =>
      (.returns (.ofResponse (.ofArray results)), db.set key.value bitmap victims)

end BitField

/-! ### The numbers of a type -/

namespace FieldType

variable (t : FieldType)

def least : ℤ := if t.signed then -2 ^ (t.bits - 1) else 0

def greatest : ℤ := if t.signed then 2 ^ (t.bits - 1) - 1 else 2 ^ t.bits - 1

/-- The number of the type that is the same modulo `2 ^ bits`. -/
def wrap (x : ℤ) : ℤ := (x - t.least) % 2 ^ t.bits + t.least

def clamp (x : ℤ) : ℤ := max t.least (min x t.greatest)

variable {t}

theorem two_pow_eq (t : FieldType) : (2 : ℤ) ^ t.bits = 2 * 2 ^ (t.bits - 1) := by
  have hpos := t.pos
  rw [← pow_succ']
  congr 1
  omega

theorem greatest_eq (t : FieldType) : t.greatest = t.least + 2 ^ t.bits - 1 := by
  have htwo := t.two_pow_eq
  rw [greatest, least]
  split <;> omega

theorem least_le_wrap (x : ℤ) : t.least ≤ t.wrap x := by
  have hnonneg := emod_nonneg (x - t.least) (pow_ne_zero t.bits (two_ne_zero' ℤ))
  rw [wrap]
  omega

theorem wrap_le_greatest (x : ℤ) : t.wrap x ≤ t.greatest := by
  have hlt := emod_lt_of_pos (x - t.least) (pow_pos (two_pos (α := ℤ)) t.bits)
  rw [wrap, greatest_eq]
  omega

theorem wrap_of_mem {x : ℤ} (hle : t.least ≤ x) (hge : x ≤ t.greatest) : t.wrap x = x := by
  rw [greatest_eq] at hge
  rw [wrap, emod_eq_of_lt (by omega) (by omega)]
  omega

theorem wrap_congr {x y : ℤ} (h : x % 2 ^ t.bits = y % 2 ^ t.bits) : t.wrap x = t.wrap y := by
  rw [wrap, wrap, sub_emod, h, ← sub_emod]

theorem wrap_emod (x : ℤ) : t.wrap (x % 2 ^ 64) = t.wrap x :=
  wrap_congr (emod_emod_of_dvd x (pow_dvd_pow 2 t.le))

theorem two_pow_le (t : FieldType) : (2 : ℤ) ^ t.bits ≤ 2 ^ 64 :=
  pow_le_pow_right₀ (by decide) t.le

theorem one_le_two_pow (t : FieldType) : (1 : ℤ) ≤ 2 ^ (t.bits - 1) := one_le_pow₀ (by decide)

theorem two_pow_le_of_lt (h : t.bits < 64) : (2 : ℤ) ^ t.bits ≤ 2 ^ 63 :=
  pow_le_pow_right₀ (by decide) (by omega)

/-! ### Words -/

theorem toNat_maxValue (h : t.bits < 64) : t.maxValue.toNat = 2 ^ t.bits - 1 := by
  have hall : ∀ w : Fin 64, (((1 : UInt64) <<< UInt64.ofNat w) - 1).toNat = 2 ^ w.val - 1 := by
    decide
  exact hall ⟨t.bits, h⟩

theorem maxValue_of_eq (h : t.bits = 64) : t.maxValue = 0 := by
  rw [maxValue, h]
  rfl

theorem toInt_minSigned (t : FieldType) : t.minSigned.toInt = -2 ^ (t.bits - 1) := by
  have hall : ∀ w : Fin 64, (-((1 : Int64) <<< Int64.ofNat w)).toInt = -2 ^ w.val := by decide
  exact hall ⟨t.bits - 1, by have := t.le; omega⟩

theorem toInt_maxSigned (t : FieldType) : t.maxSigned.toInt = 2 ^ (t.bits - 1) - 1 := by
  have hall : ∀ w : Fin 64, (((1 : Int64) <<< Int64.ofNat w) - 1).toInt = 2 ^ w.val - 1 := by
    decide
  exact hall ⟨t.bits - 1, by have := t.le; omega⟩

theorem wrap_emod_two_pow (x : ℤ) : t.wrap x % 2 ^ t.bits = x % 2 ^ t.bits := by
  rw [wrap, emod_add_emod, sub_add_cancel]

variable {v : UInt64} {position : ℕ → Int64}

theorem and_signBit_ne_zero_iff (hv : v.toNat < 2 ^ t.bits) :
    v &&& (1 <<< UInt64.ofNat (t.bits - 1)) ≠ 0 ↔ 2 ^ (t.bits - 1) ≤ v.toNat := by
  have hpos := t.pos
  have hle := t.le
  have htwo : 2 ^ t.bits = 2 ^ (t.bits - 1) * 2 := by
    rw [← pow_succ]
    congr 1
    omega
  have hdiv : v.toNat / 2 ^ (t.bits - 1) < 2 := Nat.div_lt_of_lt_mul (htwo ▸ hv)
  have hbit : v.toNat.testBit (t.bits - 1) = decide (2 ^ (t.bits - 1) ≤ v.toNat) := by
    rw [Nat.testBit_eq_decide_div_mod_eq, Nat.mod_eq_of_lt hdiv]
    refine decide_eq_decide.mpr ?_
    have hdivPos := Nat.div_pos_iff (a := v.toNat) (b := 2 ^ (t.bits - 1))
    have htwoPos := Nat.two_pow_pos (t.bits - 1)
    omega
  rw [Ne, ← UInt64.toNat_inj, UInt64.toNat_and, toNat_one_shiftLeft (by omega),
    show (0 : UInt64).toNat = 0 from rfl, Nat.and_two_pow, hbit]
  simp

theorem toNat_or_not_maxValue (hv : v.toNat < 2 ^ t.bits) (h : t.bits < 64) :
    (v ||| ~~~t.maxValue).toNat = v.toNat + (2 ^ 64 - 2 ^ t.bits) := by
  have hpow : 2 ^ 64 = 2 ^ t.bits * 2 ^ (64 - t.bits) := by
    rw [← pow_add]
    congr 1
    omega
  have hnot : (~~~t.maxValue).toNat = 2 ^ t.bits * (2 ^ (64 - t.bits) - 1) := by
    have hone := Nat.one_le_two_pow (n := t.bits)
    rw [UInt64.toNat_not, toNat_maxValue h, Nat.mul_sub, ← hpow, UInt64.size]
    omega
  rw [UInt64.toNat_or, hnot, Nat.or_comm, ← Nat.two_pow_add_eq_or_of_lt hv, Nat.mul_sub, ← hpow]
  omega

theorem wrap_natCast {n : ℕ} (hn : n < 2 ^ t.bits) :
    t.wrap n = if t.signed = true ∧ 2 ^ (t.bits - 1) ≤ n then (n : ℤ) - 2 ^ t.bits else n := by
  have hcast : ((2 ^ t.bits : ℕ) : ℤ) = 2 ^ t.bits := by norm_cast
  have hhalf : ((2 ^ (t.bits - 1) : ℕ) : ℤ) = 2 ^ (t.bits - 1) := by norm_cast
  have htwo := t.two_pow_eq
  split
  · next h =>
    rw [wrap_congr (y := n - 2 ^ t.bits) (by rw [sub_emod_right])]
    refine wrap_of_mem ?_ ?_
    · rw [least, if_pos h.1]
      omega
    · rw [greatest_eq, least, if_pos h.1]
      omega
  · next h =>
    by_cases hsigned : t.signed = true
    · have hlt := not_and.mp h hsigned
      refine wrap_of_mem ?_ ?_
      · rw [least, if_pos hsigned]
        omega
      · rw [greatest_eq, least, if_pos hsigned]
        omega
    · refine wrap_of_mem ?_ ?_
      · rw [least, if_neg hsigned]
        omega
      · rw [greatest_eq, least, if_neg hsigned]
        omega

theorem toInt64_signExtend (hv : v.toNat < 2 ^ t.bits) :
    (t.signExtend v).toInt64 = Int64.ofInt (t.wrap v.toNat) := by
  have hcast : ((2 ^ t.bits : ℕ) : ℤ) = 2 ^ t.bits := by norm_cast
  have hle := t.two_pow_le
  have hlt := v.toNat_lt
  refine toInt64_eq ?_
  rw [signExtend]
  split
  · next h =>
    rw [Bool.and_eq_true, decide_eq_true_iff] at h
    dsimp only
    split
    · next hsign =>
      rw [and_signBit_ne_zero_iff hv] at hsign
      rw [← maxValue, toNat_or_not_maxValue hv h.2, wrap_natCast hv, if_pos ⟨h.1, hsign⟩]
      omega
    · next hsign =>
      rw [and_signBit_ne_zero_iff hv] at hsign
      rw [wrap_natCast hv, if_neg fun hneg => hsign hneg.2]
      omega
  · next h =>
    by_cases hsigned : t.signed = true
    · -- all 64 bits are there
      have hbits : t.bits = 64 := by
        by_contra hne
        exact h (by simp [hsigned, lt_of_le_of_ne t.le hne])
      have hmod := wrap_emod_two_pow (t := t) v.toNat
      rw [hbits] at hmod
      omega
    · rw [wrap_natCast hv, if_neg fun hneg => hsigned hneg.1]
      omega

/-! ### Positions -/

variable (t) in
/-- The bits of the field have positions that fit in 64 bits. -/
structure Reaches (offset : Int64) : Prop where
  nonneg : 0 ≤ offset.toInt
  le : offset.toInt * t.bits + t.bits ≤ 2 ^ 63

variable {offset : Int64} {bitmap : Bytes}

theorem absOffset_eq (offset : Int64) (j : ℕ) :
    t.absOffset offset j = offset * Int64.ofNat t.bits + Int64.ofNat j := by
  rw [absOffset, byteOffset, bitOffset, div_mul_add_mod]

theorem mul_add_eq (offset : Int64) (n j : ℕ) :
    offset * Int64.ofNat n + Int64.ofNat j = Int64.ofInt (offset.toInt * n + j) := by
  rw [ofInt_add, ofInt_mul, ofInt_toInt, ofInt_eq_ofNat,
    ofInt_eq_ofNat]

theorem Reaches.start_nonneg (h : t.Reaches offset) : 0 ≤ offset.toInt * t.bits :=
  mul_nonneg h.nonneg (natCast_nonneg _)

theorem Reaches.toInt_absOffset (h : t.Reaches offset) {j : ℕ} (hj : j < t.bits) :
    (t.absOffset offset j).toInt = offset.toInt * t.bits + j := by
  have hle := h.le
  have hnonneg := h.start_nonneg
  rw [absOffset_eq, mul_add_eq, toInt_ofInt_of_le (by omega) (by omega)]

theorem Reaches.toInt_requiredBytes (h : t.Reaches offset) :
    (t.requiredBytes offset).toInt = offset.toInt * t.bits / 8 + (t.bits + 7) / 8 := by
  have hle := h.le
  have hnonneg := h.start_nonneg
  have hbits := t.le
  have hstart : offset * Int64.ofNat t.bits = Int64.ofInt (offset.toInt * t.bits) := by
    rw [ofInt_mul, ofInt_toInt, ofInt_eq_ofNat]
  have hmin : -2 ^ 63 ≤ offset.toInt * t.bits := by omega
  have hmax : offset.toInt * t.bits < 2 ^ 63 := by
    have hpos := t.pos
    omega
  rw [requiredBytes, byteOffset, hstart, show (8 : Int64) = Int64.ofInt 8 from rfl,
    ← ofInt_tdiv hmin (le_of_lt_add_one hmax) (by decide) (by decide),
    ← ofInt_eq_ofNat, ← ofInt_add, tdiv_eq_ediv_of_nonneg hnonneg,
    toInt_ofInt_of_le (by omega) (by omega)]
  omega

/-! ### Reading -/

theorem get_eq (t : FieldType) (offset : Int64) (bitmap : Bytes) :
    t.get offset bitmap =
      if bitmap.length < (t.requiredBytes offset).toInt then 0
      else Int64.ofInt
        (t.wrap (ofLow t.bits fun j => getBit bitmap (t.absOffset offset j).toInt)) := by
  rw [get]
  refine if_congr Iff.rfl rfl ?_
  have hguard : (fun j (fieldValue : UInt64) =>
        let position := (t.absOffset offset j).toInt
        if position < bitmap.length * 8 then
          if getBit bitmap position then fieldValue ||| (1 <<< UInt64.ofNat j) else fieldValue
        else fieldValue) =
      fun j (fieldValue : UInt64) =>
        if getBit bitmap (t.absOffset offset j).toInt then fieldValue ||| (1 <<< UInt64.ofNat j)
        else fieldValue := by
    funext j fieldValue
    dsimp only
    split
    · rfl
    · rename_i h
      rw [getBit_of_length_le bitmap (by omega), if_neg (by decide)]
  have hvalue := forUp_or t.le fun j => getBit bitmap (t.absOffset offset j).toInt
  dsimp only
  rw [hguard, toInt64_signExtend (by rw [hvalue]; exact ofLow_lt _ _), hvalue]

theorem toInt_ofInt_wrap (hunsigned : t.signed = false) (hbits : t.bits < 64) {n : ℕ}
    (hn : n < 2 ^ t.bits) : (Int64.ofInt (t.wrap n)).toInt = n := by
  have hcast : ((2 ^ t.bits : ℕ) : ℤ) = 2 ^ t.bits := by norm_cast
  have hle := two_pow_le_of_lt hbits
  have hleast : t.least = 0 := if_neg (by simp [hunsigned])
  rw [wrap_of_mem (by omega) (by rw [greatest_eq]; omega),
    toInt_ofInt_of_le (by omega) (by omega)]

variable (t) in
def field (offset : Int64) (bitmap : Bytes) : ℤ :=
  t.wrap (ofLow t.bits fun j => getBit bitmap (offset.toInt * t.bits + j))

theorem Reaches.wrap_ofLow (h : t.Reaches offset) (bitmap : Bytes) :
    t.wrap (ofLow t.bits fun j => getBit bitmap (t.absOffset offset j).toInt) =
      t.field offset bitmap := by
  rw [field, ofLow_congr fun j hj => by rw [h.toInt_absOffset hj]]

/-! ### Writing -/

section

variable (h : t.Reaches offset)
  (hposition : ∀ j < t.bits, (position j).toInt = offset.toInt * t.bits + j)
include h hposition

theorem getBit_write (value : Int64) (bitmap : Bytes) (p : ℤ) :
    getBit (t.write position value bitmap) p =
      if offset.toInt * t.bits ≤ p ∧ p < offset.toInt * t.bits + t.bits then
        value.toUInt64.toNat.testBit (p - offset.toInt * t.bits).toNat
      else getBit bitmap p := by
  have hle := t.le
  rw [write, getBit_forUp_set (fun bitmap o b q ho => getBit_setBit bitmap o b q ho)
    h.start_nonneg hposition]
  split
  · rename_i hp
    have hbit := shiftRight_and_one_eq_one_iff value.toUInt64
      (j := (p - offset.toInt * t.bits).toNat) (by omega)
    exact Bool.eq_iff_iff.mpr (decide_eq_true_iff.trans hbit)
  · rfl

theorem field_write (value : Int64)
    (bitmap : Bytes) : t.field offset (t.write position value bitmap) = t.wrap value.toInt := by
  have hbits : ∀ j < t.bits, getBit (t.write position value bitmap) (offset.toInt * t.bits + j) =
      value.toUInt64.toNat.testBit j := by
    intro j hj
    rw [getBit_write h hposition, if_pos (by omega), add_sub_cancel_left, toNat_natCast]
  rw [field, ofLow_congr hbits, ofLow_testBit, ← wrap_emod value.toInt,
    ← toNat_toUInt64]
  refine wrap_congr ?_
  push_cast
  exact emod_emod _ _

theorem le_length_write (value : Int64) (bitmap : Bytes) : (offset.toInt * t.bits + t.bits + 7) / 8
    ≤ ((t.write position value bitmap).length : ℤ) := by
  have hnonneg := h.start_nonneg
  have hlength := forUp_induct (P := fun i (bitmap : Bytes) =>
      1 ≤ i → (offset.toInt * t.bits + i + 7) / 8 ≤ (bitmap.length : ℤ))
    (b := fun j bitmap => setBit bitmap (position j).toInt
      ((value.toUInt64 >>> UInt64.ofNat j) &&& 1 ≠ 0))
    (s := bitmap) (Nat.zero_le t.bits) (by omega) ?_
  · exact hlength t.pos
  · intro i bitmap _ hi _ _
    rw [hposition i hi, length_setBit _ (by omega)]
    omega

theorem get_write (value : Int64) (bitmap : Bytes) :
    t.get offset (t.write position value bitmap) = Int64.ofInt (t.wrap value.toInt) := by
  have hlength := le_length_write h hposition value bitmap
  rw [get_eq, h.toInt_requiredBytes, if_neg (by omega), h.wrap_ofLow, field_write h hposition]

end

end FieldType

namespace BitField

def word (text : String) : CommandArg := .ofString (ascii text) .kBulkString

variable {env : BitFieldEnv} {t : FieldType} {encoding offset value : CommandArg} {o v : Int64}

section

variable (htype : ∀ notNumber, typeArg env notNumber encoding = .ok t)
  (hoffset : offsetArg env offset = .ok o)
include htype hoffset

theorem run_get (mode : OverflowMode) (args : List CommandArg) (bitmap : Bytes) :
    run env mode (word "GET" :: encoding :: offset :: args) bitmap =
      (run env mode args bitmap).map fun r => (.ofInteger (t.get o bitmap) :: r.1, r.2) := by
  rw [run, if_neg (by decide), if_pos (by decide)]
  dsimp only
  rw [hoffset, htype]
  rfl

theorem run_set (hvalue : offsetArg env value = .ok v)
    (mode : OverflowMode) (args : List CommandArg) (bitmap : Bytes) :
    run env mode (word "SET" :: encoding :: offset :: value :: args) bitmap =
      (run env mode args (t.set mode o v bitmap).2).map
        fun r => (reply (t.set mode o v bitmap).1 :: r.1, r.2) := by
  rw [run, if_neg (by decide), if_neg (by decide), if_pos (by decide)]
  dsimp only
  rw [hoffset, hvalue, htype]
  rfl

end

/-! ### The results -/

/-- **`SET`, then `GET`.**  The value is reduced modulo `2 ^ bits`; the sign is extended.  All other
bits stay as they are. -/
theorem set_get (htype : ∀ notNumber, typeArg env notNumber encoding = .ok t)
    (hoffset : offsetArg env offset = .ok o) (hvalue : offsetArg env value = .ok v)
    (ho : 0 ≤ o.toInt) (hlt : o.toInt * t.bits + t.bits < 2 ^ 40) (key : CommandArg)
    (victims : List (Bytes × KeyType)) (db : Store env.toDatabaseEnv) :
    ∃ result bitmap,
      handleBitField env
          [key, word "SET", encoding, offset, value, word "GET", encoding, offset] victims db =
        (.returns (.ofResponse (.ofArray [result, .ofInteger (Int64.ofInt (t.wrap v.toInt))])),
          (db.onKey key.value Stored.get).2.set key.value bitmap victims) ∧
      ∀ p, ¬ (o.toInt * t.bits ≤ p ∧ p < o.toInt * t.bits + t.bits) →
        getBit bitmap p = getBit ((db.onKey key.value Stored.get).1.getD []) p := by
  have hreaches : t.Reaches o := ⟨ho, by omega⟩
  have hposition : ∀ j < t.bits,
      (o * Int64.ofNat t.bits + Int64.ofNat j).toInt = o.toInt * t.bits + j := by
    intro j hj
    rw [← FieldType.absOffset_eq, hreaches.toInt_absOffset hj]
  refine ⟨.ofInteger v, t.write (fun j => o * Int64.ofNat t.bits + Int64.ofNat j) v
    ((db.onKey key.value Stored.get).1.getD []), ?_, fun p hp => ?_⟩
  · rw [handleBitField]
    dsimp only
    rw [run_set htype hoffset hvalue, run_get htype hoffset,
      show FieldType.set t .wrap o v _ = (some v, t.write _ v _) from rfl,
      FieldType.get_write hreaches hposition]
    rfl
  · rw [FieldType.getBit_write hreaches hposition, if_neg hp]

def simpleBitField : BitFieldEnv where
  toDatabaseEnv := simpleDatabase
  simpleAtoi32 text := (Decimal.fromChars text).bind fun n : Int64 =>
    if -2 ^ 31 ≤ n.toInt ∧ n.toInt < 2 ^ 31 then some (Int32.ofInt n.toInt) else none
  substrError := ascii "basic_string::substr"

theorem set_get_i5 : ∃ result bitmap,
    handleBitField simpleBitField
        [word "k", word "SET", word "i5", word "3", word "23", word "GET", word "i5", word "3"] []
        Store.empty =
      (.returns (.ofResponse (.ofArray [result, .ofInteger (-9)])),
        ((Store.empty : Store simpleBitField.toDatabaseEnv).onKey (ascii "k") Stored.get).2.set
          (ascii "k") bitmap []) ∧
    getBit bitmap 20 = false := by
  have htype : ∀ notNumber, typeArg simpleBitField notNumber (word "i5") =
      .ok ⟨true, 5, by decide, by decide⟩ := fun _ => rfl
  have hoffset : offsetArg simpleBitField (word "3") = .ok 3 := rfl
  have hvalue : offsetArg simpleBitField (word "23") = .ok 23 := rfl
  obtain ⟨result, bitmap, hreply, hbits⟩ := set_get htype hoffset hvalue (by decide) (by decide)
    (word "k") [] Store.empty
  exact ⟨result, bitmap, hreply, hbits 20 (by decide)⟩

/-- **The digits of a field.**  `GET` of an unsigned field is the number that other programs see
there exactly if it is 0 or all its bytes are present, and its digits are the same in both
directions. -/
theorem get_iff (htype : ∀ notNumber, typeArg env notNumber encoding = .ok t)
    (hunsigned : t.signed = false) (hbits : t.bits < 64) (hoffset : offsetArg env offset = .ok o)
    (mode : OverflowMode) (bitmap : Bytes) :
    ∃ value : Int64,
      run env mode [word "GET", encoding, offset] bitmap = .ok ([.ofInteger value], bitmap) ∧
      (value.toInt = ofHigh t.bits (fun j => getBit bitmap (o.toInt * t.bits + j)) ↔
        if bitmap.length < (t.requiredBytes o).toInt then
          ∀ j < t.bits, getBit bitmap (o.toInt * t.bits + j) = false
        else ∀ j < t.bits, getBit bitmap (t.absOffset o j).toInt =
          getBit bitmap (o.toInt * t.bits + (t.bits - 1 - j : ℕ))) := by
  refine ⟨t.get o bitmap, run_get htype hoffset mode [] bitmap, ?_⟩
  rw [FieldType.get_eq]
  split
  · rw [show (0 : Int64).toInt = ((0 : ℕ) : ℤ) from rfl, natCast_inj, eq_comm,
      ofHigh_eq_zero_iff]
  · rw [FieldType.toInt_ofInt_wrap hunsigned hbits (ofLow_lt _ _), natCast_inj,
      ofHigh_eq, ofLow_eq_iff (ofLow_lt _ _)]
    refine forall₂_congr fun j hj => ?_
    rw [testBit_ofLow, decide_eq_true hj, Bool.true_and]

theorem get_iff_u8 : ∃ value : Int64,
    run simpleBitField .wrap [word "GET", word "u8", word "0"] [0x81] =
      .ok ([.ofInteger value], [0x81]) ∧
    value.toInt = ofHigh 8 (fun j => getBit [0x81] ((0 : Int64).toInt * 8 + j)) := by
  have htype : ∀ notNumber, typeArg simpleBitField notNumber (word "u8") =
      .ok ⟨false, 8, by decide, by decide⟩ := fun _ => rfl
  have hoffset : offsetArg simpleBitField (word "0") = .ok 0 := rfl
  obtain ⟨value, hrun, hiff⟩ := get_iff htype rfl (by decide) hoffset .wrap [0x81]
  exact ⟨value, hrun, hiff.mpr (by decide)⟩

/-- The first bit of a byte is the lowest digit of what `GET` returns. -/
theorem get_first_bit :
    run simpleBitField .wrap [word "GET", word "u8", word "0"] [0x80] =
      .ok ([.ofInteger 1], [0x80]) ∧
    ofHigh 8 (fun j => getBit [0x80] (0 * 8 + j)) = 128 := by
  exact ⟨rfl, by decide⟩

end BitField
