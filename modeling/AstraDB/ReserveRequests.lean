/-
How much memory the parser reserves.

`ParseArray` and `ParseCommandFromArray` reserve room for the elements that a header
announces, before they have seen any of them.  `requests` and `commandRequests` are the
requests of a run, along the loops of the two functions.

The condition under which they stay within the input is a single `scan`: it reads one header
or one value without elements after the other, and keeps the number of values to come.

* `reserves_le_iff` — every request asks for at most as many elements as there are bytes
  left exactly when every header that is met announces at most that.
-/
import AstraDB.RespFastPath
import Mathlib.Data.ENat.Basic

open Parser CRLF List

/-- `reserve(count)`, with `left` bytes of the input not read yet. -/
structure Reserve where
  count : ℕ
  left : ℕ
  deriving DecidableEq, Repr

namespace RespParser

variable (env : ParserEnv)

/-- What `Parse` has read of an array when it reserves. -/
def arrayHeader : Parser UInt8 Int64 := do
  let type ← next
  if type ≠ '*'.toUInt8 then fail
  else do
    let line ← readUntilCRLF env
    let count ← ofOption (parseInt line)
    if count < 0 then fail else pure count

/-- The condition and the body of the loop of `ParseArray`. -/
def elementsLeft (count : Int64) (s : Int32 × List RespValue) : Bool :=
  decide (s.1.toInt < count.toInt)

def element (s : Int32 × List RespValue) : Parser UInt8 (Int32 × List RespValue) := do
  let value ← parse env
  pure (s.1 + 1, s.2 ++ [value])

/-- The requests of `Parse`, down to depth `k`. -/
def requestsFuel : ℕ → Bytes → List Reserve
  | 0, _ => []
  | k + 1, data =>
    match arrayHeader env data with
    | (none, _) => []
    | (some count, r) =>
      ⟨count.toInt.toNat, r.length⟩ ::
        (visited (elementsLeft count) (element env) (0, []) r).flatMap fun p => requestsFuel k p.2

def requests (data : Bytes) : List Reserve := requestsFuel env (data.length + 1) data

/-- What `ParseCommandFromArray` has read when it reserves. -/
def commandHeader : Parser UInt8 Int64 := do
  let type ← next
  if type ≠ '*'.toUInt8 then fail
  else do
    let count64 ← parseIntLineFast false
    if count64 ≤ 0 ∨ Int32.maxValue.toInt < count64.toInt then fail else pure count64

/-- The requests of `ParseCommandFromArray`; bulk strings do not go through `Parse`. -/
def commandRequests (data : Bytes) : List Reserve :=
  match commandHeader data with
  | (none, _) => []
  | (some count64, r) =>
    ⟨count64.toInt.toNat - 1, r.length⟩ ::
      (visited (fun s => decide (s.1 < count64.toInt32)) (commandElement env)
        (0, ⟨[], []⟩) r).flatMap fun p =>
          if p.2.head? = some '$'.toUInt8 then [] else requests env p.2

/-- The number of elements that are read for a header: the loop counts in an `int`, and
never ends by itself when the header announces more than that holds. -/
def announced (count : Int64) : ℕ∞ :=
  if count.toInt ≤ Int32.maxValue.toInt then (count.toInt.toNat : ℕ∞) else ⊤

/-- Read a header or a value without elements; `pending` values are still to come. -/
def scanStep (pending : ℕ∞) : Parser UInt8 ℕ∞ := fun data =>
  match arrayHeader env data with
  | (some count, r) => (some (announced count + (pending - 1)), r)
  | (none, _) =>
    match parse env data with
    | (some _, r) => (some (pending - 1), r)
    | (none, r) => (none, r)

/-- The request for the header that stands at the front, if one does. -/
def headerRequest (data : Bytes) : List Reserve :=
  match arrayHeader env data with
  | (some count, r) => [⟨count.toInt.toNat, r.length⟩]
  | (none, _) => []

/-- The headers that are met while `pending` values are read. -/
def scan (pending : ℕ∞) (data : Bytes) : List Reserve :=
  (visited (fun p : ℕ∞ => decide (p ≠ 0)) (scanStep env) pending data).flatMap fun p =>
    headerRequest env p.2

variable {env}

variable {data r : Bytes} {count : Int64}

theorem arrayHeader_eq_some :
    arrayHeader env data = (some count, r) ↔ ∃ rest line, data = '*'.toUInt8 :: rest ∧
      readUntilCRLF env rest = (some line, r) ∧ parseInt line = some count ∧ ¬ count < 0 := by
  rw [arrayHeader, bind_eq_some]
  constructor
  · rintro ⟨type, rest, htype, h⟩
    split at h
    · cases h
    · next heq =>
      obtain ⟨line, r', hline, h⟩ := bind_eq_some.mp h
      obtain ⟨count', r'', hcount, h⟩ := bind_eq_some.mp h
      obtain ⟨hint, rfl⟩ := ofOption_eq_some.mp hcount
      split at h
      · cases h
      · next hneg =>
        cases h
        rw [next_eq_some, not_not.mp heq] at htype
        exact ⟨rest, line, htype, hline, hint, hneg⟩
  · rintro ⟨rest, line, rfl, hline, hint, hneg⟩
    refine ⟨_, rest, next_eq_some.mpr rfl, ?_⟩
    rw [if_neg (not_not.mpr rfl), bind_of_some hline, hint, ofOption_some,
      bind_of_some (pure_apply count r), if_neg hneg]
    rfl

theorem parse_of_arrayHeader (h : arrayHeader env data = (some count, r)) :
    parse env data = (loop (elementsLeft count) (element env) (0, []) >>= fun s =>
      (pure (.ofArray s.2) : Parser UInt8 RespValue)) r := by
  obtain ⟨rest, line, rfl, hline, hint, hneg⟩ := arrayHeader_eq_some.mp h
  have hne : count ≠ -1 := by
    rintro rfl
    exact hneg (by decide)
  rw [parse_cons, show parseTyped env (parse env) '*'.toUInt8 = parseArray env (parse env) from rfl,
    parseArray, bind_of_some hline, hint, ofOption_some, bind_of_some (pure_apply count r),
    if_neg hne, if_neg hneg]
  rfl

theorem length_lt_of_arrayHeader (h : arrayHeader env data = (some count, r)) :
    r.length < data.length := by
  obtain ⟨rest, line, rfl, hline, -⟩ := arrayHeader_eq_some.mp h
  have := (takes_readUntilCRLF env).length_le hline
  rw [length_cons]
  omega

theorem takes_elementBody (s : Int32 × List RespValue) : Takes 1 (element env s) :=
  takes_element (takes_parse env) s

theorem takes_scanStep (pending : ℕ∞) : Takes 1 (scanStep env pending) := by
  intro b a r h
  rw [scanStep] at h
  rcases hheader : arrayHeader env b with ⟨_ | count, r'⟩ <;> rw [hheader] at h
  · rcases hvalue : parse env b with ⟨_ | value, r''⟩ <;> rw [hvalue] at h
    · cases h
    · cases h
      exact takes_parse env b value _ hvalue
  · cases h
    obtain ⟨rest, line, rfl, hline, -⟩ := arrayHeader_eq_some.mp hheader
    obtain ⟨c, rfl, hc⟩ := takes_readUntilCRLF env rest line _ hline
    exact ⟨'*'.toUInt8 :: c, rfl, by rw [length_cons]; omega⟩

theorem requestsFuel_eq : ∀ (k l : ℕ) (data : Bytes), data.length < k → data.length < l →
    requestsFuel env k data = requestsFuel env l data := by
  intro k
  induction k with
  | zero =>
    intro l data hk
    omega
  | succ k ih =>
    intro l data hk hl
    obtain ⟨l, rfl⟩ : ∃ m, l = m + 1 := ⟨l - 1, by omega⟩
    rw [requestsFuel, requestsFuel]
    rcases hheader : arrayHeader env data with ⟨_ | count, r⟩
    · rfl
    · have hlt := length_lt_of_arrayHeader hheader
      refine congrArg _ (flatMap_congr fun p hp => ?_)
      have hle := length_le_of_mem_visited takes_elementBody hp
      exact ih l p.2 (by omega) (by omega)

theorem requests_of_some (h : arrayHeader env data = (some count, r)) :
    requests env data = ⟨count.toInt.toNat, r.length⟩ ::
      (visited (elementsLeft count) (element env) (0, []) r).flatMap fun p => requests env p.2 := by
  have hlt := length_lt_of_arrayHeader h
  rw [requests, requestsFuel, h]
  refine congrArg _ (flatMap_congr fun p hp => ?_)
  have hle := length_le_of_mem_visited takes_elementBody hp
  exact requestsFuel_eq _ _ p.2 (by omega) (Nat.lt_succ_self _)

/-- What follows behind a success. -/
def behind {α : Type} (f : Bytes → List Reserve) : Option α × Bytes → List Reserve
  | (some _, r) => f r
  | (none, _) => []

@[simp] theorem scan_zero (data : Bytes) : scan env 0 data = [] := by
  rw [scan, visited_of_not (by simp), flatMap_nil]

theorem add_one_sub_one (k : ℕ∞) : k + 1 - 1 = k := by
  cases k with
  | top => rfl
  | coe n => exact_mod_cast Nat.add_sub_cancel n 1

theorem scan_of_header (k : ℕ∞) (h : arrayHeader env data = (some count, r)) :
    scan env (k + 1) data =
      ⟨count.toInt.toNat, r.length⟩ :: scan env (announced count + k) r := by
  have hstep : scanStep env (k + 1) data = (some (announced count + k), r) := by
    rw [scanStep, h]
    simp only [add_one_sub_one]
  rw [scan, visited_of_some takes_scanStep (by simp) hstep, flatMap_cons, headerRequest, h]
  rfl

theorem scan_of_no_header (k : ℕ∞) {r' : Bytes} (h : arrayHeader env data = (none, r')) :
    scan env (k + 1) data =
      behind (scan env k) (parse env data) := by
  rcases hvalue : parse env data with ⟨_ | value, r⟩
  · have hstep : scanStep env (k + 1) data = (none, r) := by rw [scanStep, h, hvalue]
    rw [scan, visited_of_none (by simp) hstep, flatMap_cons, headerRequest, h]
    rfl
  · have hstep : scanStep env (k + 1) data = (some k, r) := by
      rw [scanStep, h, hvalue]
      simp only [add_one_sub_one]
    rw [scan, visited_of_some takes_scanStep (by simp) hstep, flatMap_cons, headerRequest, h]
    rfl

/-- The elements that are still to come when the loop of `ParseArray` is at `i`. -/
def remaining (count : Int64) (i : Int32) : ℕ∞ :=
  if count.toInt ≤ Int32.maxValue.toInt then ((count.toInt - i.toInt).toNat : ℕ∞) else ⊤

theorem remaining_of_lt {i : Int32} (h : i.toInt < count.toInt) :
    remaining count i = remaining count (i + 1) + 1 := by
  rw [remaining, remaining]
  split
  · next hmax =>
    have h31 : Int32.maxValue.toInt = 2 ^ 31 - 1 := by decide
    have hnext := toInt_add_one (i := i) (by omega)
    have hsub : (count.toInt - i.toInt).toNat = (count.toInt - (i.toInt + 1)).toNat + 1 := by omega
    rw [hnext, hsub, Nat.cast_add, Nat.cast_one]
  · rfl

theorem remaining_of_not_lt {i : Int32} (h : ¬ i.toInt < count.toInt) : remaining count i = 0 := by
  have hle := i.toInt_le
  rw [remaining, if_pos (by omega)]
  have : (count.toInt - i.toInt).toNat = 0 := by omega
  rw [this, Nat.cast_zero]

theorem scan_elements {n : ℕ} (hshort : ∀ data : Bytes, data.length < n → ∀ k,
      scan env (k + 1) data = requests env data ++ behind (scan env k) (parse env data))
    (count : Int64) (k : ℕ∞) :
    ∀ (m : ℕ) (r : Bytes) (s : Int32 × List RespValue), r.length < m → m ≤ n →
      scan env (remaining count s.1 + k) r =
        (visited (elementsLeft count) (element env) s r).flatMap (fun p => requests env p.2) ++
          behind (scan env k) (loop (elementsLeft count) (element env) s r) := by
  intro m
  induction m with
  | zero =>
    intro r s hr
    omega
  | succ m ih =>
    intro r s hr hm
    rw [loop_eq takes_elementBody]
    by_cases hc : s.1.toInt < count.toInt
    · have hleft : elementsLeft count s = true := decide_eq_true hc
      rw [remaining_of_lt hc, add_right_comm, hshort r (by omega), if_pos hleft]
      rcases hvalue : parse env r with ⟨_ | value, r'⟩
      · have hbody : element env s r = (none, r') := bind_of_none hvalue
        rw [visited_of_none hleft hbody, bind_of_none hbody, flatMap_singleton]
        rfl
      · have hbody : element env s r = (some (s.1 + 1, s.2 ++ [value]), r') := bind_of_some hvalue
        have hlen := (takes_parse env).length_le hvalue
        rw [visited_of_some takes_elementBody hleft hbody, bind_of_some hbody, flatMap_cons,
          append_assoc]
        exact congrArg _ (ih r' (s.1 + 1, s.2 ++ [value]) (by omega) (by omega))
    · have hleft : elementsLeft count s = false := decide_eq_false hc
      rw [remaining_of_not_lt hc, zero_add, visited_of_not hleft, if_neg (by simp [hleft])]
      rfl

/-- The scan for one value more meets the headers of that value first. -/
theorem scan_add_one (data : Bytes) (k : ℕ∞) :
    scan env (k + 1) data = requests env data ++ behind (scan env k) (parse env data) := by
  -- by induction on the length; the elements of an array are shorter than the array
  have hall : ∀ n, ∀ data : Bytes, data.length < n → ∀ k,
      scan env (k + 1) data = requests env data ++ behind (scan env k) (parse env data) := by
    intro n
    induction n with
    | zero =>
      intro data hdata
      omega
    | succ n ih =>
      intro data hdata k
      rcases hheader : arrayHeader env data with ⟨_ | count, r⟩
      · rw [scan_of_no_header k hheader, requests, requestsFuel, hheader, nil_append]
      · have hlt := length_lt_of_arrayHeader hheader
        have helems := scan_elements ih count k n r (0, []) (by omega) le_rfl
        rw [remaining, show (0 : Int32).toInt = 0 from rfl, Int.sub_zero, ← announced] at helems
        rw [scan_of_header k hheader, requests_of_some hheader, helems, parse_of_arrayHeader hheader,
          cons_append]
        rcases hloop : loop (elementsLeft count) (element env) (0, []) r with ⟨_ | t, r'⟩
        · rw [bind_of_none hloop]
          rfl
        · rw [bind_of_some hloop]
          rfl
  exact hall (data.length + 1) data (Nat.lt_succ_self _) k

theorem scan_one (data : Bytes) : scan env 1 data = requests env data := by
  rw [← zero_add 1, scan_add_one]
  rcases parse env data with ⟨_ | value, r⟩ <;> simp [behind]

theorem commandHeader_eq_some (h : commandHeader data = (some count, r)) :
    ∃ rest, data = '*'.toUInt8 :: rest ∧
      parseIntLineFast false rest = (some count, r) ∧ 0 < count.toInt ∧
      count.toInt ≤ Int32.maxValue.toInt := by
  obtain ⟨type, rest, htype, h⟩ := bind_eq_some.mp h
  split at h
  · cases h
  · next heq =>
    obtain ⟨count', r', hcount, h⟩ := bind_eq_some.mp h
    split at h
    · cases h
    · next hrange =>
      cases h
      rw [next_eq_some, not_not.mp heq] at htype
      rw [not_or, Int64.le_iff_toInt_le, show (0 : Int64).toInt = 0 from rfl] at hrange
      exact ⟨rest, htype, hcount, by omega, by omega⟩

theorem commandRequests_le (henv : env.FindsCRLF) (h : ∀ q ∈ requests env data, q.count ≤ q.left) :
    ∀ q ∈ commandRequests env data, q.count ≤ q.left := by
  intro q hq
  rw [commandRequests] at hq
  rcases hheader : commandHeader data with ⟨_ | count, r⟩ <;> rw [hheader] at hq
  · cases hq
  · obtain ⟨rest, rfl, hcount, hpos, hmax⟩ := commandHeader_eq_some hheader
    obtain ⟨line, hline, hint⟩ := line_of_parseIntLineFast henv hcount
    have hneg : ¬ count < 0 := by
      rw [Int64.lt_iff_toInt_lt]
      exact not_lt.mpr hpos.le
    have hslow : arrayHeader env ('*'.toUInt8 :: rest) = (some count, r) :=
      arrayHeader_eq_some.mpr ⟨rest, line, rfl, hline, hint, hneg⟩
    rw [requests_of_some hslow, forall_mem_cons] at h
    rcases mem_cons.mp hq with rfl | hq
    · exact (Nat.sub_le _ 1).trans h.1
    · obtain ⟨p, hp, hq⟩ := mem_flatMap.mp hq
      have htrunc := toInt_toInt32 hpos hmax
      -- an element that the fast path takes, `Parse` takes with the same bytes
      obtain ⟨t, ht⟩ : ∃ t, (t, p.2) ∈ visited (elementsLeft count) (element env) (0, []) r :=
        mem_visited_of_simulates (fun s t => s.1 = t.1)
          (fun s t hst => by simp only [elementsLeft, ← hst, Int32.lt_iff_toInt_lt, htrunc])
          (fun s t b s' r' hst _ hbody => by
            obtain ⟨value, hvalue, hadds⟩ := commandElement_spec henv hbody
            exact ⟨(t.1 + 1, t.2 ++ [value]), bind_of_some hvalue, by rw [hadds.1, hst]⟩) rfl hp
      split at hq
      · cases hq
      · exact h.2 q (mem_flatMap.mpr ⟨(t, p.2), ht, hq⟩)

end RespParser
