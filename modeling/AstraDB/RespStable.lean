/-
More bytes do not change what has been parsed.

Whatever the search for line ends does, every function takes bytes from the front
(`takes_parse`), so `Parse` satisfies its own equation (`parse_eq`).  If the search is right
(`FindsCRLF`), then

* `stable_parse`, `stable_commandArray` — a value or command that has been parsed is
  parsed the same way when more bytes follow.

`ParseIntLineFast` reads its digits in 64 bits: `parseIntLineFast_eq_some` says which
lines it accepts and that an accepted number is the right one.
-/
import AstraDB.RespParser
import AstraDB.SimdCRLF

open Parser CRLF List

/-- The search for line ends finds the first one. -/
def ParserEnv.FindsCRLF (env : ParserEnv) : Prop :=
  ∀ data, 32 ≤ data.length → IsFirstCRLF data (env.findCRLF data)

namespace RespParser

/-! ### Lines -/

section Lines

variable (env : ParserEnv)

theorem takes_readUntilCRLF : Takes 2 (readUntilCRLF env) := by
  intro b line r h
  rw [readUntilCRLF] at h
  by_cases hlong : 32 ≤ b.length
  · rw [if_pos hlong] at h
    rcases hf : env.findCRLF b with _ | pos
    · rw [hf] at h
      cases h
    · rw [hf] at h
      cases h
      refine ⟨b.take (pos + 2), (take_append_drop _ _).symm, ?_⟩
      rw [length_take]
      omega
  · rw [if_neg hlong] at h
    exact takes_untilCRLF b line r h

theorem takes_line {α : Type} {f : Bytes → Parser UInt8 α} (hf : ∀ line, Takes 0 (f line)) :
    Takes 0 (readUntilCRLF env >>= f) :=
  ((takes_readUntilCRLF env).bind_left hf).mono (Nat.zero_le 2)

variable {env}

theorem readUntilCRLF_eq (henv : env.FindsCRLF) : readUntilCRLF env = untilCRLF := by
  funext data
  -- short data goes to the plain search, long data to `FindCRLF`
  have hpos : (if 32 ≤ data.length then env.findCRLF data else firstCRLF data) =
      firstCRLF data := by
    split
    case isTrue hlong => exact (isFirstCRLF_iff.mp (henv data hlong)).symm
    case isFalse => rfl
  rcases hfirst : firstCRLF data with _ | i <;> rw [hfirst] at hpos <;>
    simp only [readUntilCRLF, untilCRLF, hfirst, hpos]

theorem stable_readUntilCRLF (henv : env.FindsCRLF) : Stable (readUntilCRLF env) := by
  rw [readUntilCRLF_eq henv]
  exact stable_untilCRLF

theorem readUntilCRLF_line (henv : env.FindsCRLF) {line : Bytes} (hline : ∀ i, ¬ CRLFAt line i)
    (rest : Bytes) : readUntilCRLF env (line ++ cr :: lf :: rest) = (some line, rest) := by
  rw [readUntilCRLF_eq henv]
  exact untilCRLF_line hline rest

end Lines

/-! ### `Parse` -/

section Parse

variable (env : ParserEnv) {p q : Parser UInt8 RespValue}

theorem takes_element (hp : Takes 1 p) (s : Int32 × List RespValue) :
    Takes 1 (p >>= fun value => (pure (s.1 + 1, s.2 ++ [value]) : Parser UInt8 _)) :=
  hp.bind_left fun _ => takes_pure _

theorem takes_parseElements (hp : Takes 1 p) (count : Int64) (s : Int32 × List RespValue) :
    Takes 0 (parseElements p count s) :=
  takes_loop (takes_element hp) s

theorem takes_parseTyped (hp : Takes 1 p) (type : UInt8) : Takes 0 (parseTyped env p type) := by
  -- along the `switch`, one step for each type
  refine Takes.ite (takes_line env fun _ => takes_pure _) ?_
  refine Takes.ite (takes_line env fun _ => takes_pure _) ?_
  refine Takes.ite (takes_line env fun _ => (takes_ofOption _).bind fun _ => takes_pure _) ?_
  refine Takes.ite (takes_line env fun line => (takes_ofOption _).bind_left fun len => ?_) ?_
  · refine Takes.ite (takes_pure _) (Takes.ite (takes_fail 0) ?_)
    exact ((takes_block _ 2).mono (Nat.zero_le _)).bind fun _ => takes_pure _
  refine Takes.ite (takes_line env fun line => (takes_ofOption _).bind_left fun count => ?_) ?_
  · refine Takes.ite (takes_pure _) (Takes.ite (takes_fail 0) ?_)
    exact (takes_parseElements hp count _).bind fun _ => takes_pure _
  refine Takes.ite (takes_line env fun _ => Takes.ite (takes_fail 0) (takes_pure _)) ?_
  refine Takes.ite (takes_line env fun _ => Takes.ite (takes_pure _) ?_) ?_
  · exact Takes.ite (takes_pure _) (takes_fail 0)
  refine Takes.ite (takes_line env fun _ => (takes_ofOption _).bind fun _ => takes_pure _) ?_
  exact takes_fail 0

theorem agreeBelow_parseArray {n : ℕ} (hp : Takes 1 p) (hpq : AgreeBelow n p q) :
    AgreeBelow n (parseArray env p) (parseArray env q) := by
  refine AgreeBelow.bind (takes_readUntilCRLF env) (AgreeBelow.refl _ _) (fun line => ?_)
    (Nat.le_add_right n 2)
  refine AgreeBelow.bind (takes_ofOption _) (AgreeBelow.refl _ _) (fun count => ?_) le_rfl
  refine AgreeBelow.ite (AgreeBelow.refl _ _) (AgreeBelow.ite (AgreeBelow.refl _ _) ?_)
  refine AgreeBelow.bind (takes_parseElements hp count _) ?_ (fun _ => AgreeBelow.refl n _) le_rfl
  -- the two loops have the same bodies but for the parser of the elements
  refine AgreeBelow.loop (fun s => (takes_element hp s).mono (Nat.zero_le 1)) (fun s => ?_) _
  exact AgreeBelow.bind (hp.mono (Nat.zero_le 1)) hpq (fun _ => AgreeBelow.refl n _) le_rfl

theorem agreeBelow_parseTyped {n : ℕ} (hp : Takes 1 p) (hpq : AgreeBelow n p q) (type : UInt8) :
    AgreeBelow n (parseTyped env p type) (parseTyped env q type) := by
  have hrefl : ∀ r : Parser UInt8 RespValue, AgreeBelow n r r := AgreeBelow.refl n
  exact (hrefl _).ite <| (hrefl _).ite <| (hrefl _).ite <| (hrefl _).ite <|
    (agreeBelow_parseArray env hp hpq).ite (hrefl _)

theorem recursive_parse : Recursive 1
    fun (self : Unit → Parser UInt8 RespValue) _ => parseStep env (self ()) where
  takes _ hp _ := takes_next.bind_left (takes_parseTyped env (hp ()))
  guarded _ _ _ hp hpq _ :=
    AgreeBelow.bind takes_next (AgreeBelow.refl _ _)
      (agreeBelow_parseTyped env (hp ()) (hpq ())) le_rfl

theorem parse_eq : parse env = parseStep env (parse env) := fix_eq (recursive_parse env) ()

theorem takes_parse : Takes 1 (parse env) := takes_fix (recursive_parse env) ()

theorem parse_cons (type : UInt8) (data : Bytes) :
    parse env (type :: data) = parseTyped env (parse env) type data := by
  conv_lhs => rw [parse_eq]
  exact bind_of_some (next_eq_some.mpr rfl)

variable {env}

theorem parse_line (henv : env.FindsCRLF) {type : UInt8} {f : Bytes → Parser UInt8 RespValue}
    (htype : parseTyped env (parse env) type = readUntilCRLF env >>= f) {line : Bytes}
    (hline : ∀ i, ¬ CRLFAt line i) (rest : Bytes) :
    parse env (type :: (line ++ cr :: lf :: rest)) = f line rest := by
  rw [parse_cons, htype, bind_of_some (readUntilCRLF_line henv hline rest)]

theorem stable_parseTyped (henv : env.FindsCRLF) (hp : Takes 1 p) (hs : Stable p) (type : UInt8) :
    Stable (parseTyped env p type) := by
  have hline := stable_readUntilCRLF henv
  refine Stable.ite (hline.bind fun _ => stable_pure _) ?_
  refine Stable.ite (hline.bind fun _ => stable_pure _) ?_
  refine Stable.ite (hline.bind fun _ => (stable_ofOption _).bind fun _ => stable_pure _) ?_
  refine Stable.ite (hline.bind fun line => (stable_ofOption _).bind fun len => ?_) ?_
  · refine Stable.ite (stable_pure _) (Stable.ite stable_fail ?_)
    exact (stable_block _ 2).bind fun _ => stable_pure _
  refine Stable.ite (hline.bind fun line => (stable_ofOption _).bind fun count => ?_) ?_
  · refine Stable.ite (stable_pure _) (Stable.ite stable_fail (Stable.bind ?_ fun _ => stable_pure _))
    exact stable_loop (takes_element hp) (fun s => hs.bind fun _ => stable_pure _) _
  refine Stable.ite (hline.bind fun _ => Stable.ite stable_fail (stable_pure _)) ?_
  refine Stable.ite (hline.bind fun _ => Stable.ite (stable_pure _) ?_) ?_
  · exact Stable.ite (stable_pure _) stable_fail
  refine Stable.ite (hline.bind fun _ => (stable_ofOption _).bind fun _ => stable_pure _) ?_
  exact stable_fail

theorem stable_parse (henv : env.FindsCRLF) : Stable (parse env) :=
  stable_fix (recursive_parse env)
    (fun _ hp hs _ => stable_next.bind (stable_parseTyped henv (hp ()) (hs ()))) ()

end Parse

/-! ### `ParseIntLineFast` -/

section IntLine

open Decimal

theorem value_step {v : Int64} {c : UInt8} (h0 : 0 ≤ v.toInt) (hmax : ¬ kMaxBeforeMul < v)
    (hc : isDigit c = true) (hn : ¬ v * 10 + Int64.ofNat (digit c) < 0) :
    (v * 10 + Int64.ofNat (digit c)).toInt = v.toInt * 10 + digit c := by
  have hd := digit_lt hc
  have hle : v.toInt ≤ 922337203685477580 := by
    have hk : kMaxBeforeMul.toInt = 922337203685477580 := by decide
    rw [Int64.lt_iff_toInt_lt, hk] at hmax
    omega
  have hdig : (Int64.ofNat (digit c)).toInt = digit c := Int64.toInt_ofNat_of_lt (by omega)
  have h10 : (v * 10).toInt = v.toInt * 10 := by
    rw [Int64.toInt_mul, show (10 : Int64).toInt = 10 from rfl]
    exact Int.bmod_eq_of_le (by omega) (by omega)
  rw [Int64.lt_iff_toInt_lt, Int64.toInt_add, h10, hdig, show (0 : Int64).toInt = 0 from rfl,
    Int.bmod_def] at hn
  rw [Int64.toInt_add, h10, hdig, Int.bmod_def]
  -- at most `2^63 + 1`, which would wrap to a negative number
  split at hn <;> split <;> omega

theorem digitsLoop_cons {c : UInt8} {b r : Bytes} {v n : Int64} :
    digitsLoop v (c :: b) = some (n, r) ↔
      (c = cr ∧ b = lf :: r ∧ n = v) ∨
      (c ≠ cr ∧ isDigit c = true ∧ ¬ kMaxBeforeMul < v ∧
        ¬ v * 10 + Int64.ofNat (digit c) < 0 ∧
        digitsLoop (v * 10 + Int64.ofNat (digit c)) b = some (n, r)) := by
  rw [digitsLoop]
  by_cases hcr : c = cr
  · rw [if_pos hcr]
    cases b with
    | nil => simp [hcr]
    | cons d b =>
      by_cases hlf : d = lf
      · rw [hlf, if_neg (by simp)]
        constructor
        · rintro ⟨⟩
          exact .inl ⟨hcr, rfl, rfl⟩
        · rintro (⟨-, h, rfl⟩ | ⟨hne, -⟩)
          · cases h
            rfl
          · exact absurd hcr hne
      · simp [hcr, hlf]
  · by_cases hdigit : isDigit c = true
    · by_cases hmax : kMaxBeforeMul < v
      · simp [hcr, hdigit, hmax]
      · by_cases hneg : v * 10 + Int64.ofNat (digit c) < 0
        · simp [hcr, hdigit, hmax, hneg]
        · simp [hcr, hdigit, hmax, hneg]
    · simp [hcr, hdigit]

theorem digitsLoop_eq_some : ∀ {b r : Bytes} {v n : Int64}, 0 ≤ v.toInt →
    digitsLoop v b = some (n, r) → ∃ ds : Bytes, (∀ c ∈ ds, isDigit c = true) ∧
      b = ds ++ cr :: lf :: r ∧ n.toInt = value v.toInt.toNat ds := by
  intro b
  induction b with
  | nil =>
    intro r v n _ h
    cases h
  | cons c b ih =>
    intro r v n h0 h
    rcases digitsLoop_cons.mp h with ⟨rfl, rfl, rfl⟩ | ⟨-, hdig, hmax, hneg, hrest⟩
    · exact ⟨[], by simp, rfl, (Int.toNat_of_nonneg h0).symm⟩
    · have hstep := value_step h0 hmax hdig hneg
      obtain ⟨ds, hds, rfl, hn⟩ := ih (by omega) hrest
      refine ⟨c :: ds, forall_mem_cons.mpr ⟨hdig, hds⟩, rfl, ?_⟩
      rw [hn, hstep, value, value, foldl_cons]
      congr 2
      omega

theorem digitsLoop_append : ∀ {b r : Bytes} {v n : Int64} (s : Bytes),
    digitsLoop v b = some (n, r) → digitsLoop v (b ++ s) = some (n, r ++ s) := by
  intro b
  induction b with
  | nil =>
    intro r v n s h
    cases h
  | cons c b ih =>
    intro r v n s h
    refine digitsLoop_cons.mpr ?_
    rcases digitsLoop_cons.mp h with ⟨hcr, rfl, hn⟩ | ⟨hcr, hdig, hmax, hneg, hrest⟩
    · exact .inl ⟨hcr, rfl, hn⟩
    · exact .inr ⟨hcr, hdig, hmax, hneg, ih s hrest⟩

theorem sign_append_afterSign (b : Bytes) : sign (isNegative b) ++ afterSign b = b := by
  rw [afterSign, isNegative]
  by_cases h : b.head? = some '-'.toUInt8
  · rw [decide_eq_true h, sign, if_pos rfl, if_pos rfl]
    exact (eq_cons_of_mem_head? h).symm
  · rw [decide_eq_false h, sign, if_neg (by simp), if_neg (by simp), nil_append]

theorem parseIntLineFast_iff {allow : Bool} {b r : Bytes} {n : Int64} :
    parseIntLineFast allow b = (some n, r) ↔ (isNegative b && !allow) = false ∧
      (afterSign b).head?.any isDigit = true ∧
      ∃ v, digitsLoop 0 (afterSign b) = some (v, r) ∧ n = if isNegative b then -v else v := by
  rw [parseIntLineFast]
  cases hsign : isNegative b && !allow with
  | true => simp
  | false =>
    rw [if_neg (by simp)]
    cases hdigit : (afterSign b).head?.any isDigit with
    | false => simp
    | true =>
      rw [if_neg (by simp)]
      rcases digitsLoop 0 (afterSign b) with _ | ⟨v, rest⟩
      · simp
      · constructor
        · rintro ⟨⟩
          exact ⟨rfl, rfl, v, rfl, rfl⟩
        · rintro ⟨-, -, v, h, rfl⟩
          cases h
          rfl

theorem parseIntLineFast_eq_some {allow : Bool} {b r : Bytes} {n : Int64}
    (h : parseIntLineFast allow b = (some n, r)) :
    ∃ (negative : Bool) (ds : Bytes), ds ≠ [] ∧ (∀ c ∈ ds, isDigit c = true) ∧
      b = sign negative ++ ds ++ cr :: lf :: r ∧ n.toInt = signed negative (value 0 ds) := by
  obtain ⟨-, hhead, v, hl, rfl⟩ := parseIntLineFast_iff.mp h
  obtain ⟨ds, hds, heq, hv⟩ := digitsLoop_eq_some (by decide) hl
  refine ⟨isNegative b, ds, ?_, hds, ?_, ?_⟩
  · -- the first byte was seen to be a digit, so the line is not empty
    rintro rfl
    rw [heq, nil_append, List.head?_cons] at hhead
    exact absurd hhead (by decide)
  · rw [append_assoc, ← heq, sign_append_afterSign]
  · have hv' : v.toInt = value 0 ds := hv
    have hlt := v.toInt_lt
    rw [signed]
    split
    · rw [Int64.toInt_neg, hv']
      exact Int.bmod_eq_of_le (by omega) (by omega)
    · exact hv'

theorem takes_parseIntLineFast (allow : Bool) : Takes 1 (parseIntLineFast allow) := by
  intro b n r h
  obtain ⟨negative, ds, -, -, rfl, -⟩ := parseIntLineFast_eq_some h
  refine ⟨sign negative ++ ds ++ [cr, lf], by simp, ?_⟩
  rw [length_append]
  exact Nat.le_add_left_of_le (by decide)

theorem stable_parseIntLineFast (allow : Bool) : Stable (parseIntLineFast allow) := by
  intro b s n r h
  obtain ⟨hsign, hdigit, v, hl, hn⟩ := parseIntLineFast_iff.mp h
  -- what was read is not empty, so the first bytes are still the same
  have hne : afterSign b ≠ [] := by
    intro hnil
    rw [hnil] at hdigit
    cases hdigit
  have hb : b ≠ [] := by
    rintro rfl
    exact hne rfl
  have hneg : isNegative (b ++ s) = isNegative b := by
    rw [isNegative, isNegative, List.head?_append_of_ne_nil _ hb]
  have hafter : afterSign (b ++ s) = afterSign b ++ s := by
    rw [afterSign, afterSign, hneg]
    split
    · exact tail_append_of_ne_nil hb
    · rfl
  refine parseIntLineFast_iff.mpr ⟨by rwa [hneg], ?_, v, ?_, by rwa [hneg]⟩
  · rwa [hafter, List.head?_append_of_ne_nil _ hne]
  · rw [hafter]
    exact digitsLoop_append s hl

end IntLine

/-! ### `ParseCommandFromArray` -/

section Command

variable (env : ParserEnv)

theorem bulkPayload_eq_some {len : ℕ} {b u r : Bytes} :
    bulkPayload len b = (some u, r) ↔ u.length = len ∧ b = u ++ cr :: lf :: r := by
  constructor
  · intro h
    rw [bulkPayload] at h
    split at h
    · cases h
    · next hlen =>
      split at h
      · cases h
      · next hcrlf =>
        rw [not_or, not_not, not_not] at hcrlf
        obtain ⟨h1, hcr⟩ := List.getElem?_eq_some_iff.mp hcrlf.1
        obtain ⟨h2, hlf⟩ := List.getElem?_eq_some_iff.mp hcrlf.2
        cases h
        refine ⟨by rw [length_take]; omega, ?_⟩
        conv_lhs => rw [← take_append_drop len b]
        rw [drop_eq_getElem_cons h1, drop_eq_getElem_cons h2, hcr, hlf]
  · rintro ⟨rfl, rfl⟩
    have hdrop : (u ++ cr :: lf :: r).drop (u.length + 2) = r := by
      rw [← drop_drop, drop_left]
      rfl
    rw [bulkPayload, if_neg (by rw [length_append, length_cons, length_cons]; omega),
      if_neg (by simp), take_left, hdrop]

theorem takes_bulkPayload (len : ℕ) : Takes 0 (bulkPayload len) := by
  intro b u r h
  obtain ⟨-, rfl⟩ := bulkPayload_eq_some.mp h
  exact ⟨u ++ [cr, lf], by simp, Nat.zero_le _⟩

theorem stable_bulkPayload (len : ℕ) : Stable (bulkPayload len) := by
  intro b s u r h
  obtain ⟨hlen, rfl⟩ := bulkPayload_eq_some.mp h
  exact bulkPayload_eq_some.mpr ⟨hlen, append_assoc _ _ _⟩

variable (s : Int32 × Command)

theorem takes_bulkElement : Takes 1 (bulkElement s) := by
  refine (takes_parseIntLineFast true).bind_left fun len => ?_
  refine Takes.ite (takes_fail 0) (Takes.ite (takes_pure _) (Takes.ite (takes_fail 0) ?_))
  exact (takes_bulkPayload _).bind fun _ => Takes.ite (takes_pure _) (takes_pure _)

theorem stable_bulkElement : Stable (bulkElement s) := by
  refine (stable_parseIntLineFast true).bind fun len => ?_
  refine Stable.ite stable_fail (Stable.ite (stable_pure _) (Stable.ite stable_fail ?_))
  exact (stable_bulkPayload _).bind fun _ => Stable.ite (stable_pure _) (stable_pure _)

theorem takes_otherElement : Takes 1 (otherElement env s) := by
  refine (takes_parse env).bind_left fun value => Takes.ite ?_ ?_
  · exact Takes.ite (takes_fail 0) (takes_pure _)
  · exact (takes_ofOption _).bind fun _ => takes_pure _

theorem takes_commandElement : Takes 1 (commandElement env s) := by
  intro b s' r h
  rw [commandElement] at h
  split at h
  · next hhead =>
    obtain ⟨c, hc, hlen⟩ := takes_bulkElement s b.tail s' r h
    refine ⟨'$'.toUInt8 :: c, ?_, Nat.le_succ_of_le hlen⟩
    rw [cons_append, ← hc]
    exact eq_cons_of_mem_head? hhead
  · exact takes_otherElement env s b s' r h

theorem takes_commandArray : Takes 1 (commandArray env) := by
  refine takes_next.bind_left fun type => Takes.ite (takes_fail 0) ?_
  refine ((takes_parseIntLineFast false).mono (Nat.zero_le 1)).bind_left fun count => ?_
  refine Takes.ite (takes_fail 0) ?_
  exact (takes_loop (takes_commandElement env) _).bind fun _ => takes_pure _

theorem takes_parseCommandFromArray : Takes 1 (parseCommandFromArray env) :=
  (takes_commandArray env).attempt

variable {env}

theorem stable_otherElement (henv : env.FindsCRLF) (s : Int32 × Command) :
    Stable (otherElement env s) := by
  refine (stable_parse henv).bind fun value => Stable.ite ?_ ?_
  · exact Stable.ite stable_fail (stable_pure _)
  · exact (stable_ofOption _).bind fun _ => stable_pure _

theorem stable_commandElement (henv : env.FindsCRLF) (s : Int32 × Command) :
    Stable (commandElement env s) := by
  intro b t s' r h
  -- an element has at least one byte, and which kind it is the first byte tells
  have hb : b ≠ [] := by
    rintro rfl
    have := (takes_commandElement env s).length_le h
    simp at this
  rw [commandElement] at h ⊢
  rw [List.head?_append_of_ne_nil _ hb, tail_append_of_ne_nil hb]
  split at h
  · next hhead =>
    rw [if_pos hhead]
    exact stable_bulkElement s b.tail t s' r h
  · next hhead =>
    rw [if_neg hhead]
    exact stable_otherElement henv s b t s' r h

theorem stable_commandArray (henv : env.FindsCRLF) : Stable (commandArray env) := by
  refine stable_next.bind fun type => Stable.ite stable_fail ?_
  refine (stable_parseIntLineFast false).bind fun count => Stable.ite stable_fail ?_
  refine Stable.bind ?_ fun _ => stable_pure _
  exact stable_loop (takes_commandElement env) (stable_commandElement henv) _

/-- Parsing does not depend on what follows, and `ParseCommandFromArray` leaves its input
alone when it fails. -/
theorem parse_append (henv : env.FindsCRLF) (b s : Bytes) :
    (∀ v rest, parse env b = (some v, rest) → parse env (b ++ s) = (some v, rest ++ s)) ∧
    (∀ c rest, parseCommandFromArray env b = (some c, rest) →
      parseCommandFromArray env (b ++ s) = (some c, rest ++ s)) ∧
    ((parseCommandFromArray env b).1 = none → (parseCommandFromArray env b).2 = b) := by
  refine ⟨fun v rest h => stable_parse henv b s v rest h,
    fun c rest h => (stable_commandArray henv).attempt b s c rest h, fun h => ?_⟩
  exact congrArg Prod.snd (attempt_of_none h)

end Command

/-- A build without vector instructions, and without doubles. -/
def simpleEnv : ParserEnv := ⟨Simd.findCRLF .scalar, fun _ => none⟩

theorem simpleEnv_findsCRLF : simpleEnv.FindsCRLF := fun data _ => Simd.findCRLF_scalar data

theorem parse_append_integer :
    parse simpleEnv [58, 51, 13, 10, 7] = (some (.ofInteger 3), [7]) ∧
      parse simpleEnv ([58, 51, 13, 10, 7] ++ [8, 9]) = (some (.ofInteger 3), [7] ++ [8, 9]) := by
  have h : parse simpleEnv [58, 51, 13, 10, 7] = (some (.ofInteger 3), [7]) := rfl
  exact ⟨h, (parse_append simpleEnv_findsCRLF [58, 51, 13, 10, 7] [8, 9]).1 _ _ h⟩

end RespParser
