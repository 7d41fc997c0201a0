/-
The RESP builder, and the round trip through the parser.

`Build` switches on the type of a value and takes its content with an accessor, which
falls back to a default on the wrong alternative; `Contents` is what the accessors return,
with the elements of arrays and the entries of maps already built.  The decimal texts come
from `absl::StrCat` (`BuilderEnv`).

* `parse_build` — parsing what was built gives the value back and leaves what follows,
  for all `Plain` values.
-/
import AstraDB.RespStable

open Parser CRLF List

structure BuilderEnv where
  /-- `absl::StrCat` of an `int64_t`. -/
  strCat : Int64 → Bytes
  /-- `absl::StrCat` of a `double`. -/
  strCatDouble : Double → Bytes

/-- `absl::StrCat` writes an integer in decimal. -/
def BuilderEnv.WritesDecimal (env : BuilderEnv) : Prop :=
  ∀ num, env.strCat num = Decimal.text num.toInt

namespace RespBuilder

variable (env : BuilderEnv)

def crlf : Bytes := [cr, lf]

def buildBulkString (str : Bytes) : Bytes :=
  '$'.toUInt8 :: (env.strCat (Int64.ofNat str.length) ++ crlf ++ str ++ crlf)

def buildNullBulkString : Bytes := ['$'.toUInt8, '-'.toUInt8, '1'.toUInt8, cr, lf]

/-- `BuildArray`, of an array of `size` elements that are built to `elems`. -/
def buildArray (size : ℕ) (elems : Bytes) : Bytes :=
  '*'.toUInt8 :: (env.strCat (Int64.ofNat size) ++ crlf ++ elems)

def buildNullArray : Bytes := ['*'.toUInt8, '-'.toUInt8, '1'.toUInt8, cr, lf]

def buildNil : Bytes := buildNullBulkString

def buildBoolean (b : Bool) : Bytes :=
  '#'.toUInt8 :: (if b then 't'.toUInt8 else 'f'.toUInt8) :: crlf

def buildDouble (num : Double) : Bytes := ','.toUInt8 :: (env.strCatDouble num ++ crlf)

def buildNull : Bytes := ['_'.toUInt8, cr, lf]

/-- `BuildMap`, of a map of `size` entries that are built to `entries`. -/
def buildMap (size : ℕ) (entries : Bytes) : Bytes :=
  '%'.toUInt8 :: (env.strCat (Int64.ofNat size) ++ crlf ++ entries)

/-- What `AsString()`, `AsInteger()`, ... return; of arrays and maps the size and what
their elements are built to. -/
structure Contents where
  str : Bytes := []
  num : Int64 := 0
  dbl : Double := 0
  flag : Bool := false
  arr : ℕ × Bytes := (0, [])
  map : ℕ × Bytes := (0, [])

/-- The `switch` of `Build`. -/
def buildAs (type : RespType) (c : Contents) : Bytes :=
  match type with
  | .kSimpleString => '+'.toUInt8 :: (c.str ++ crlf)
  | .kError => '-'.toUInt8 :: (c.str ++ crlf)
  | .kInteger => ':'.toUInt8 :: (env.strCat c.num ++ crlf)
  | .kBulkString => buildBulkString env c.str
  | .kArray => buildArray env c.arr.1 c.arr.2
  | .kNullBulkString => buildNullBulkString
  | .kNullArray => buildNullArray
  | .kBoolean => buildBoolean c.flag
  | .kDouble => buildDouble env c.dbl
  | .kNull => buildNull
  | .kMap => buildMap env c.map.1 c.map.2
  | _ => buildNil

mutual

def build : RespValue → Bytes
  | .ofType type => buildAs env type {}
  | .ofString str type => buildAs env type { str := str }
  | .ofInteger num => buildAs env .kInteger { num := num }
  | .ofDouble num => buildAs env .kDouble { dbl := num }
  | .ofBool b => buildAs env .kBoolean { flag := b }
  | .ofArray arr => buildAs env .kArray { arr := (arr.length, buildElements arr) }
  | .ofMap map => buildAs env .kMap { map := (map.length, buildEntries map) }

/-- The loop of `BuildArray`. -/
def buildElements : List RespValue → Bytes
  | [] => []
  | elem :: arr => build elem ++ buildElements arr

/-- The loop of `BuildMap`. -/
def buildEntries : List (Bytes × RespValue) → Bytes
  | [] => []
  | (key, value) :: map => buildBulkString env key ++ build value ++ buildEntries map

end

/-- The values that survive: simple strings and errors without line ends, integers,
bulk strings as long as a `std::string` can be, booleans, the null values, and arrays of
fewer than `2^31` such values. -/
inductive Plain : RespValue → Prop
  | simpleString {str : Bytes} (hstr : ∀ i, ¬ CRLFAt str i) : Plain (.ofString str .kSimpleString)
  | error {str : Bytes} (hstr : ∀ i, ¬ CRLFAt str i) : Plain (.ofString str .kError)
  | integer (num : Int64) : Plain (.ofInteger num)
  | bulkString {str : Bytes} (hlen : str.length < 2 ^ 63) : Plain (.ofString str .kBulkString)
  | bool (b : Bool) : Plain (.ofBool b)
  | null : Plain (.ofType .kNull)
  | nullBulkString : Plain (.ofType .kNullBulkString)
  | nullArray : Plain (.ofType .kNullArray)
  | array {arr : List RespValue} (hlen : arr.length < 2 ^ 31) (harr : ∀ v ∈ arr, Plain v) :
      Plain (.ofArray arr)

section RoundTrip

open RespParser

variable {env} {penv : ParserEnv}

theorem parse_strCat (henv : env.WritesDecimal) (hp : penv.FindsCRLF) {type : UInt8}
    {f : Int64 → Parser UInt8 RespValue}
    (htype : parseTyped penv (parse penv) type = do
      let line ← readUntilCRLF penv
      let num ← ofOption (parseInt line)
      f num) (num : Int64) (rest : Bytes) :
    parse penv (type :: (env.strCat num ++ cr :: lf :: rest)) = f num rest := by
  rw [henv, parse_line hp htype (not_crlfAt_of_notMem (Decimal.cr_notMem_text _)), parseInt,
    Decimal.fromChars_text, ofOption_some]
  exact bind_of_some (pure_apply num rest)

theorem toInt_ofNat_size {n : ℕ} (hn : n < 2 ^ 63) :
    (Int64.ofNat n).toInt = n ∧ Int64.ofNat n ≠ -1 ∧ ¬ Int64.ofNat n < 0 := by
  have h : (Int64.ofNat n).toInt = n := Int64.toInt_ofNat_of_lt hn
  refine ⟨h, fun hneg => ?_, fun hneg => ?_⟩
  · rw [hneg] at h
    have h1 : (-1 : Int64).toInt = -1 := rfl
    omega
  · rw [Int64.lt_iff_toInt_lt, h] at hneg
    have h0 : (0 : Int64).toInt = 0 := rfl
    omega

theorem parse_buildBulkString (henv : env.WritesDecimal) (hp : penv.FindsCRLF) {str : Bytes}
    (hlen : str.length < 2 ^ 63) (rest : Bytes) :
    parse penv (buildBulkString env str ++ rest) = (some (.ofString str .kBulkString), rest) := by
  obtain ⟨htoInt, hne, hnn⟩ := toInt_ofNat_size hlen
  have happ : buildBulkString env str ++ rest = '$'.toUInt8 ::
      (env.strCat (Int64.ofNat str.length) ++ cr :: lf :: (str ++ [cr, lf] ++ rest)) := by
    simp [buildBulkString, crlf]
  have hblock : block str.length 2 (str ++ [cr, lf] ++ rest) = (some str, rest) :=
    block_append str [cr, lf] rest
  rw [happ, parse_strCat henv hp rfl, if_neg hne, if_neg hnn, htoInt, Int.toNat_natCast,
    bind_of_some hblock]
  rfl

theorem parseElements_build {n : ℕ} (hn : n < 2 ^ 31) (rest : Bytes) :
    ∀ (todo done : List RespValue),
      (∀ v ∈ todo, ∀ rest, parse penv (build env v ++ rest) = (some v, rest)) →
      done.length + todo.length = n →
      parseElements (parse penv) (Int64.ofNat n) (Int32.ofNat done.length, done)
        (buildElements env todo ++ rest) = (some (Int32.ofNat n, done ++ todo), rest) := by
  intro todo
  have htoInt := (toInt_ofNat_size (show n < 2 ^ 63 by omega)).1
  induction todo with
  | nil =>
    intro done _ hlen
    rw [length_nil, Nat.add_zero] at hlen
    -- `int i` counts up to the size without wrapping around, which is what `hn` is for
    have hstop : ¬ (Int32.ofNat done.length).toInt < (Int64.ofNat n).toInt := by
      rw [htoInt, hlen, Int32.toInt_ofNat_of_lt hn]
      exact lt_irrefl _
    rw [parseElements, loop_eq (takes_element (takes_parse penv)), if_neg (by simpa using hstop),
      hlen, append_nil]
    rfl
  | cons v todo ih =>
    intro done hparse hlen
    rw [length_cons] at hlen
    have hgo : (Int32.ofNat done.length).toInt < (Int64.ofNat n).toInt := by
      rw [htoInt, Int32.toInt_ofNat_of_lt (by omega)]
      omega
    have hv := hparse v (mem_cons_self ..) (buildElements env todo ++ rest)
    have hrest := ih (done ++ [v]) (fun w hw => hparse w (mem_cons_of_mem v hw)) (by
      rw [length_append, length_singleton]
      omega)
    rw [length_append, length_singleton, Int32.ofNat_add, append_assoc] at hrest
    rw [parseElements, loop_eq (takes_element (takes_parse penv)), if_pos (decide_eq_true hgo),
      buildElements, append_assoc]
    refine (bind_of_some ?_).trans hrest
    rw [bind_of_some hv]
    rfl

theorem parse_build (henv : env.WritesDecimal) (hp : penv.FindsCRLF) {v : RespValue}
    (hv : Plain v) (rest : Bytes) : parse penv (build env v ++ rest) = (some v, rest) := by
  -- by the constructors of `Plain`: only arrays have a loop behind their first line
  have hnil : ∀ i, ¬ CRLFAt [] i := not_crlfAt_of_notMem (by simp)
  have hone : ∀ i, ¬ CRLFAt ['-'.toUInt8, '1'.toUInt8] i := not_crlfAt_of_notMem (by decide)
  induction hv generalizing rest with
  | @simpleString str hstr =>
    have happ : build env (.ofString str .kSimpleString) ++ rest
        = '+'.toUInt8 :: (str ++ cr :: lf :: rest) := by simp [build, buildAs, crlf]
    rw [happ, parse_line hp rfl hstr]
    rfl
  | @error str hstr =>
    have happ : build env (.ofString str .kError) ++ rest
        = '-'.toUInt8 :: (str ++ cr :: lf :: rest) := by simp [build, buildAs, crlf]
    rw [happ, parse_line hp rfl hstr]
    rfl
  | integer num =>
    have happ : build env (.ofInteger num) ++ rest
        = ':'.toUInt8 :: (env.strCat num ++ cr :: lf :: rest) := by simp [build, buildAs, crlf]
    rw [happ, parse_strCat henv hp rfl]
    rfl
  | bulkString hlen =>
    rw [build]
    exact parse_buildBulkString henv hp hlen rest
  | bool b =>
    have hline : ∀ i, ¬ CRLFAt [if b then 't'.toUInt8 else 'f'.toUInt8] i :=
      not_crlfAt_of_notMem (by cases b <;> decide)
    have happ : build env (.ofBool b) ++ rest
        = '#'.toUInt8 :: ([if b then 't'.toUInt8 else 'f'.toUInt8] ++ cr :: lf :: rest) := by
      simp [build, buildAs, buildBoolean, crlf]
    rw [happ, parse_line hp rfl hline]
    cases b with
    | true => rfl
    | false => rfl
  | null =>
    have happ : build env (.ofType .kNull) ++ rest = '_'.toUInt8 :: ([] ++ cr :: lf :: rest) := by
      simp [build, buildAs, buildNull]
    rw [happ, parse_line hp rfl hnil]
    rfl
  | nullBulkString =>
    have happ : build env (.ofType .kNullBulkString) ++ rest
        = '$'.toUInt8 :: (['-'.toUInt8, '1'.toUInt8] ++ cr :: lf :: rest) := by
      simp [build, buildAs, buildNullBulkString]
    rw [happ, parse_line hp rfl hone]
    rfl
  | nullArray =>
    have happ : build env (.ofType .kNullArray) ++ rest
        = '*'.toUInt8 :: (['-'.toUInt8, '1'.toUInt8] ++ cr :: lf :: rest) := by
      simp [build, buildAs, buildNullArray]
    rw [happ, parse_line hp rfl hone]
    rfl
  | @array arr hlen harr ih =>
    obtain ⟨-, hne, hnn⟩ := toInt_ofNat_size (show arr.length < 2 ^ 63 by omega)
    have happ : build env (.ofArray arr) ++ rest = '*'.toUInt8 ::
        (env.strCat (Int64.ofNat arr.length) ++ cr :: lf :: (buildElements env arr ++ rest)) := by
      simp [build, buildAs, buildArray, crlf]
    have hloop := parseElements_build hlen rest arr [] ih (Nat.zero_add _)
    rw [nil_append] at hloop
    rw [happ, parse_strCat henv hp rfl, if_neg hne, if_neg hnn]
    exact bind_of_some hloop

end RoundTrip

def simpleBuilder : BuilderEnv := ⟨fun num => Decimal.text num.toInt, fun _ => []⟩

theorem parse_build_nested :
    RespParser.parse RespParser.simpleEnv (build simpleBuilder
      (.ofArray [.ofString [cr, lf] .kBulkString, .ofArray [.ofInteger (-5)]]) ++ [7])
      = (some (.ofArray [.ofString [cr, lf] .kBulkString, .ofArray [.ofInteger (-5)]]), [7]) := by
  have hinner : Plain (.ofArray [.ofInteger (-5)]) :=
    .array (by decide) (forall_mem_singleton.mpr (.integer (-5)))
  have hvalue : Plain (.ofArray [.ofString [cr, lf] .kBulkString, .ofArray [.ofInteger (-5)]]) :=
    .array (by decide) (forall_mem_cons.mpr
      ⟨.bulkString (by decide), forall_mem_singleton.mpr hinner⟩)
  exact parse_build (fun _ => rfl) RespParser.simpleEnv_findsCRLF hvalue [7]

end RespBuilder
