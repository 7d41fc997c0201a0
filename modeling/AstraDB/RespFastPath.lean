/-
The fast path agrees with the slow path.

`ParseCommandFromArray` has its own scanner of numbers and its own bulk strings, and
calls `Parse` for elements of other types.  Each element that it takes is one that `Parse`
takes with the same bytes (`commandElement_spec`); over the loop, the command built so far is
the one that `ParseCommand` makes of the array built so far (`Builds`).

* `commandArray_spec`, `parseCommandFromArray_eq_slow` — the command of the fast path is the one of the
  slow path, with the same bytes left.
-/
import AstraDB.RespStable

open Parser CRLF RespValue

namespace RespParser

variable {env : ParserEnv}

variable {b r : Bytes} {s s' : Int32 × Command}

theorem line_of_parseIntLineFast (henv : env.FindsCRLF) {allow : Bool} {n : Int64}
    (h : parseIntLineFast allow b = (some n, r)) :
    ∃ line, readUntilCRLF env b = (some line, r) ∧ parseInt line = some n := by
  obtain ⟨negative, ds, hne, hds, rfl, hn⟩ := parseIntLineFast_eq_some h
  refine ⟨Decimal.sign negative ++ ds, readUntilCRLF_line henv ?_ r, ?_⟩
  · exact not_crlfAt_of_notMem (Decimal.cr_notMem_of_isDigit hds negative)
  · rw [parseInt, Decimal.fromChars_sign_append hne hds, ← hn, if_pos ⟨n.le_toInt, n.toInt_lt⟩,
      Int64.ofInt_toInt]

/-- What an element adds to the command: the first one the name, the others an argument. -/
def Adds (s s' : Int32 × Command) (value : RespValue) : Prop :=
  s'.1 = s.1 + 1 ∧
    if s.1 = 0 then value.isBulkString = true ∧ s'.2 = { s.2 with name := value.asString }
    else ∃ arg, toCommandArg value = some arg ∧ s'.2 = { s.2 with args := s.2.args ++ [arg] }

theorem bulkElement_spec (henv : env.FindsCRLF) (h : bulkElement s b = (some s', r)) :
    ∃ value, parseBulkString env b = (some value, r) ∧ Adds s s' value := by
  obtain ⟨len, b', hlen, h⟩ := bind_eq_some.mp h
  obtain ⟨line, hline, hint⟩ := line_of_parseIntLineFast henv hlen
  -- `ParseBulkString` reads the same length and goes on from the same place
  have hslow : parseBulkString env b
      = (if len = -1 then (pure (.ofType .kNullBulkString) : Parser UInt8 RespValue)
        else if len < 0 then fail
        else do
          let str ← block len.toInt.toNat 2
          pure (.ofString str .kBulkString)) b' := by
    rw [parseBulkString, bind_of_some hline, hint]
    rfl
  rw [hslow]
  split at h
  · cases h
  · next hname =>
    by_cases hnull : len = -1
    · rw [if_pos hnull] at h ⊢
      cases h
      refine ⟨_, rfl, rfl, ?_⟩
      rw [if_neg fun h0 => hname ⟨h0, hnull⟩]
      exact ⟨_, rfl, rfl⟩
    · rw [if_neg hnull] at h ⊢
      split at h
      · cases h
      · next hneg =>
        rw [if_neg hneg]
        obtain ⟨str, b'', hpay, hput⟩ := bind_eq_some.mp h
        obtain ⟨hstr, rfl⟩ := bulkPayload_eq_some.mp hpay
        have hblock : block len.toInt.toNat 2 (str ++ cr :: lf :: b'') = (some str, b'') :=
          block_eq_some.mpr ⟨[cr, lf], by simp, hstr, rfl⟩
        -- the name of the command, or one of its arguments
        split at hput
        · next h0 =>
          cases hput
          refine ⟨.ofString str .kBulkString, by rw [bind_of_some hblock]; rfl, rfl, ?_⟩
          rw [if_pos h0]
          exact ⟨rfl, rfl⟩
        · next h0 =>
          cases hput
          refine ⟨.ofString str .kBulkString, by rw [bind_of_some hblock]; rfl, rfl, ?_⟩
          rw [if_neg h0]
          exact ⟨_, rfl, rfl⟩

theorem otherElement_spec (h : otherElement env s b = (some s', r)) :
    ∃ value, parse env b = (some value, r) ∧ Adds s s' value := by
  obtain ⟨value, b', hvalue, h⟩ := bind_eq_some.mp h
  split at h
  · next h0 =>
    split at h
    · cases h
    · next hbulk =>
      cases h
      refine ⟨value, hvalue, rfl, ?_⟩
      rw [if_pos h0]
      exact ⟨by simpa using hbulk, rfl⟩
  · next h0 =>
    obtain ⟨arg, b'', harg, hput⟩ := bind_eq_some.mp h
    obtain ⟨hsome, rfl⟩ := ofOption_eq_some.mp harg
    cases hput
    refine ⟨value, hvalue, rfl, ?_⟩
    rw [if_neg h0]
    exact ⟨arg, hsome, rfl⟩

theorem commandElement_spec (henv : env.FindsCRLF) (h : commandElement env s b = (some s', r)) :
    ∃ value, parse env b = (some value, r) ∧ Adds s s' value := by
  rw [commandElement] at h
  split at h
  · next hhead =>
    obtain ⟨value, hvalue, hadds⟩ := bulkElement_spec henv h
    refine ⟨value, ?_, hadds⟩
    rw [List.eq_cons_of_mem_head? hhead, parse_cons]
    exact hvalue
  · exact otherElement_spec h

/-- The command and the array that have been built from the same elements. -/
def Builds (s : Int32 × Command) (t : Int32 × List RespValue) : Prop :=
  s.1 = t.1 ∧ t.1.toInt = t.2.length ∧
    match t.2 with
    | [] => s.2 = ⟨[], []⟩
    | first :: rest => first.isBulkString = true ∧ s.2.name = first.asString ∧
        rest.mapM toCommandArg = some s.2.args

theorem toInt_add_one {i : Int32} (h : i.toInt + 1 < 2 ^ 31) : (i + 1).toInt = i.toInt + 1 := by
  have hmin := i.le_toInt
  rw [Int32.toInt_add, show (1 : Int32).toInt = 1 from rfl]
  exact Int.bmod_eq_of_le (by omega) (by omega)

theorem toInt_toInt32 {count : Int64} (hpos : 0 < count.toInt)
    (hmax : count.toInt ≤ Int32.maxValue.toInt) : count.toInt32.toInt = count.toInt := by
  have h31 : Int32.maxValue.toInt = 2 ^ 31 - 1 := by decide
  rw [Int64.toInt_toInt32]
  exact Int.bmod_eq_of_le (by omega) (by omega)

theorem Builds.step {i : Int32} {arr : List RespValue} {value : RespValue} (hst : Builds s (i, arr))
    (hlt : i.toInt + 1 < 2 ^ 31) (hadds : Adds s s' value) : Builds s' (i + 1, arr ++ [value]) := by
  obtain ⟨j, cmd⟩ := s
  obtain ⟨j', cmd'⟩ := s'
  obtain ⟨hj, hlen, hcmd⟩ := hst
  obtain ⟨hj', hadds⟩ := hadds
  simp only at hj hj' hlen hcmd hadds
  rw [hj] at hj' hadds
  subst hj'
  refine ⟨rfl, ?_, ?_⟩
  · rw [toInt_add_one hlt, hlen, List.length_append]
    rfl
  · cases arr with
    | nil =>
      -- the first element is the name
      have h0 : i = 0 := Int32.toInt_inj.mp hlen
      rw [if_pos h0] at hadds
      obtain ⟨hbulk, rfl⟩ := hadds
      subst hcmd
      exact ⟨hbulk, rfl, rfl⟩
    | cons first rest =>
      have h0 : i ≠ 0 := by
        rintro rfl
        rw [List.length_cons] at hlen
        have hz : (0 : Int32).toInt = 0 := rfl
        omega
      rw [if_neg h0] at hadds
      obtain ⟨arg, harg, rfl⟩ := hadds
      obtain ⟨hbulk, hname, hargs⟩ := hcmd
      refine ⟨hbulk, hname, ?_⟩
      show (rest ++ [value]).mapM toCommandArg = some (cmd.args ++ [arg])
      rw [List.mapM_append, hargs]
      simp [harg]

theorem Builds.parseCommand_eq {i : Int32} {arr : List RespValue} (hst : Builds s (i, arr))
    (hpos : 0 < i.toInt) : parseCommand (.ofArray arr) = some s.2 := by
  obtain ⟨-, hlen, hcmd⟩ := hst
  simp only at hlen hcmd
  cases arr with
  | nil =>
    rw [List.length_nil] at hlen
    omega
  | cons first rest =>
    obtain ⟨hbulk, hname, hargs⟩ := hcmd
    rw [parseCommand, if_neg (by simp [isArray, getType, arraySize,
      asArray])]
    simp only [asArray, hbulk, hargs, ← hname, Bool.not_true, Bool.false_eq_true, if_false,
      Option.bind_eq_bind, Option.bind_some]

theorem commandLoop_spec (henv : env.FindsCRLF) {count : Int64} (hpos : 0 < count.toInt)
    (hmax : count.toInt ≤ Int32.maxValue.toInt)
    (h : loop (fun s => decide (s.1 < count.toInt32)) (commandElement env) (0, ⟨[], []⟩) b
      = (some s, r)) :
    ∃ arr, parseElements (parse env) count (0, []) b = (some arr, r) ∧
      parseCommand (.ofArray arr.2) = some s.2 := by
  have h31 : Int32.maxValue.toInt = 2 ^ 31 - 1 := by decide
  have hcount := toInt_toInt32 hpos hmax
  obtain ⟨t, hloop, hst, hend⟩ := loop_simulates Builds
    (fun t : Int32 × List RespValue => decide (t.1.toInt < count.toInt))
    (fun t => do
      let value ← parse env
      pure (t.1 + 1, t.2 ++ [value]))
    (fun s t hst => by simp only [hst.1, Int32.lt_iff_toInt_lt, hcount])
    (fun s t b s' r hst hc hbody => by
      obtain ⟨value, hvalue, hadds⟩ := commandElement_spec henv hbody
      have hlt : s.1 < count.toInt32 := of_decide_eq_true hc
      rw [hst.1, Int32.lt_iff_toInt_lt, hcount] at hlt
      exact ⟨_, by rw [bind_of_some hvalue]; rfl, hst.step (by omega) hadds⟩)
    (show Builds (0, ⟨[], []⟩) (0, []) from ⟨rfl, rfl, rfl⟩) h
  -- the loop was entered, so there is a name
  refine ⟨t, hloop, hst.parseCommand_eq ?_⟩
  have hge : ¬ s.1 < count.toInt32 := of_decide_eq_false hend
  rw [hst.1, Int32.lt_iff_toInt_lt, hcount] at hge
  omega

theorem commandArray_spec (henv : env.FindsCRLF) {rest : Bytes} {c : Command}
    (h : commandArray env b = (some c, rest)) :
    ∃ v, parse env b = (some v, rest) ∧ parseCommand v = some c := by
  obtain ⟨type, b1, htype, harray⟩ := bind_eq_some.mp h
  obtain rfl := next_eq_some.mp htype
  split at harray
  · cases harray
  · next hstar =>
    obtain rfl : type = '*'.toUInt8 := not_not.mp hstar
    obtain ⟨count, b2, hcount, helems⟩ := bind_eq_some.mp harray
    split at helems
    · cases helems
    · next hrange =>
      rw [not_or, Int64.not_le, Int64.lt_iff_toInt_lt, not_lt] at hrange
      obtain ⟨s, b3, hloop, hdone⟩ := bind_eq_some.mp helems
      cases hdone
      have hpos : 0 < count.toInt := hrange.1
      obtain ⟨line, hline, hint⟩ := line_of_parseIntLineFast henv hcount
      obtain ⟨arr, harr, hcmd⟩ := commandLoop_spec henv hpos hrange.2 hloop
      refine ⟨.ofArray arr.2, ?_, hcmd⟩
      have hne : count ≠ -1 := by
        rintro rfl
        exact absurd hpos (by decide)
      have hnn : ¬ count < 0 := by
        rw [Int64.lt_iff_toInt_lt, not_lt]
        exact hpos.le
      rw [parse_cons]
      show parseArray env (parse env) b1 = _
      rw [parseArray, bind_of_some hline, hint, ofOption_some, bind_of_some (pure_apply count b2),
        if_neg hne, if_neg hnn, bind_of_some harr]
      rfl

end RespParser
