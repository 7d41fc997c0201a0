/-
Patterns for keys and channels: `KEYS`, `SCAN` with `MATCH`, and `PSUBSCRIBE`.

Each of them has its own test.  For each test, these are the patterns for which it is the one
that the wildcards stand for: `*` for any word and `?` for any byte.

* `patterns_iff` — these patterns, for each of the three.
-/
import AstraDB.Scan
import AstraDB.Wildcards

open Scan Wildcards List

namespace Patterns

/-! ### The tests -/

/-- The test of `KEYS`; `substr(1)` of an empty pattern throws. -/
def keysMatches (pattern key : Bytes) : Option Bool :=
  if pattern = ascii "*" then some true
  else
    match pattern with
    | [] => none
    | _ :: rest => some (find rest key)

/-- The loops over the keys of all workers. -/
def keysLoop (pattern : Bytes) : List Bytes → Option (List Bytes)
  | [] => some []
  | key :: keys => do
    let matching ← keysMatches pattern key
    let result ← keysLoop pattern keys
    some (if matching then key :: result else result)

/-- `substrError` is what `substr` throws, and `allKeys` what `GetAllKeys` returns, for each
worker. -/
def handleKeys (substrError : Bytes) (args : List CommandArg) (allKeys : List (List Bytes)) :
    HandlerOutcome :=
  match args with
  | [pattern] =>
    if !pattern.isBulkString then error "ERR wrong type of pattern argument"
    else
      match keysLoop pattern.value allKeys.flatten with
      | none => .throws substrError
      | some keys =>
        .returns (.ofResponse (.ofArray (keys.map fun key => .ofString key .kBulkString)))
  | _ => error "ERR wrong number of arguments for 'keys' command"

def patternMatches (pattern channel : Bytes) : Bool :=
  if pattern = ascii "*" then true
  else if !has '*' pattern && !has '?' pattern then channel = pattern
  else
    let starPos := pattern.idxOf '*'.toUInt8
    let start := pattern.take starPos
    let suffix := pattern.drop (starPos + 1)
    if starPos < pattern.length ∧ !has '*' suffix then
      if starPos = 0 then endsWith suffix channel
      else if starPos = pattern.length - 1 then channel.take start.length = start
      else
        start.length + suffix.length ≤ channel.length ∧ channel.take start.length = start ∧
          channel.drop (channel.length - suffix.length) = suffix
    else find (pattern.takeWhile fun c => c ≠ '*'.toUInt8 ∧ c ≠ '?'.toUInt8) channel

/-! ### What the wildcards stand for -/

abbrev GlobMatches (pattern word : Bytes) : Prop :=
  Matches '*'.toUInt8 '?'.toUInt8 pattern word

abbrev Literal (word : Bytes) : Prop := Plain '*'.toUInt8 '?'.toUInt8 word

theorem star_ne_question : '*'.toUInt8 ≠ '?'.toUInt8 := by decide

/-- A test that is the one the wildcards of a pattern stand for. -/
def Exact (test : Bytes → Bool) (pattern : Bytes) : Prop :=
  ∀ word, test word = true ↔ GlobMatches pattern word

variable {pattern word start suffix : Bytes}

variable {test : Bytes → Bool}

theorem not_exact {part : Bytes} (hpart : ¬ Literal part)
    (htest : ∀ word, test word = true → part.Sublist word) (pattern : Bytes) :
    ¬ Exact test pattern := by
  intro hexact
  have hword : ∃ word, Literal word ∧ GlobMatches pattern word :=
    exists_plain_match (c := 'x'.toUInt8) (by decide) (by decide) pattern
  obtain ⟨word, hplain, hmatch⟩ := hword
  exact not_plain_of_sublist (htest word ((hexact word).mpr hmatch)) hpart hplain

theorem find_iff : find start word = true ↔ start.IsInfix word := decide_eq_true_iff

theorem endsWith_iff : endsWith suffix word = true ↔ suffix.IsSuffix word := by
  rw [endsWith, Bool.and_eq_true, decide_eq_true_iff, beq_iff_eq]
  constructor
  · rintro ⟨-, h⟩
    exact suffix_iff_eq_drop.mpr h.symm
  · intro h
    exact ⟨h.length_le, (suffix_iff_eq_drop.mp h).symm⟩

theorem startsWith_iff : startsWith start word = true ↔ start.IsPrefix word := by
  rw [startsWith, Bool.and_eq_true, decide_eq_true_iff, beq_iff_eq]
  constructor
  · rintro ⟨-, h⟩
    exact prefix_iff_eq_take.mpr h.symm
  · intro h
    exact ⟨h.length_le, (prefix_iff_eq_take.mp h).symm⟩

theorem literal_iff : (!has '*' pattern && !has '?' pattern) = true ↔ Literal pattern := by
  rw [Bool.and_eq_true, Bool.not_eq_true', Bool.not_eq_true', has, has, contains_eq_mem,
    contains_eq_mem, decide_eq_false_iff_not, decide_eq_false_iff_not]
  exact Iff.rfl

theorem glob_star_literal (h : Literal suffix) :
    GlobMatches ('*'.toUInt8 :: suffix) word ↔ suffix.IsSuffix word := by
  rw [GlobMatches, matches_star_iff star_ne_question]
  constructor
  · rintro ⟨v, hv, hmatch⟩
    rwa [← (matches_plain_iff h).mp hmatch]
  · intro hsuffix
    exact ⟨suffix, hsuffix, (matches_plain_iff h).mpr rfl⟩

theorem glob_literal_star_literal (h : Literal start) (h' : Literal suffix) :
    GlobMatches (start ++ '*'.toUInt8 :: suffix) word ↔
      ∃ middle, word = start ++ middle ++ suffix := by
  rw [GlobMatches, matches_append_iff]
  constructor
  · rintro ⟨u, v, rfl, hu, hv⟩
    rw [(matches_plain_iff h).mp hu]
    obtain ⟨middle, rfl⟩ := (glob_star_literal h').mp hv
    exact ⟨middle, (append_assoc ..).symm⟩
  · rintro ⟨middle, rfl⟩
    exact ⟨start, middle ++ suffix, append_assoc .., (matches_plain_iff h).mpr rfl,
      (glob_star_literal h').mpr (suffix_append ..)⟩

theorem literal_nil : Literal [] := ⟨not_mem_nil, not_mem_nil⟩

theorem glob_literal_star (h : Literal start) :
    GlobMatches (start ++ ['*'.toUInt8]) word ↔ start.IsPrefix word := by
  rw [glob_literal_star_literal h literal_nil]
  constructor
  · rintro ⟨middle, rfl⟩
    rw [append_nil]
    exact prefix_append ..
  · rintro ⟨middle, rfl⟩
    exact ⟨middle, (append_nil _).symm⟩

theorem glob_star_literal_star (h : Literal start) :
    GlobMatches ('*'.toUInt8 :: (start ++ ['*'.toUInt8])) word ↔ start.IsInfix word := by
  rw [GlobMatches, matches_star_iff star_ne_question]
  constructor
  · rintro ⟨v, hv, hmatch⟩
    exact ((glob_literal_star h).mp hmatch).isInfix.trans hv.isInfix
  · rintro ⟨u, v, rfl⟩
    refine ⟨start ++ v, ?_, (glob_literal_star h).mpr (prefix_append ..)⟩
    rw [append_assoc]
    exact suffix_append ..

/-! ### `SCAN` -/

/-- A word with at most a star at each end. -/
def StarsAtEnds (pattern : Bytes) : Prop :=
  ∃ word, Literal word ∧ (pattern = word ∨ pattern = '*'.toUInt8 :: word ∨
    pattern = word ++ ['*'.toUInt8] ∨ pattern = '*'.toUInt8 :: (word ++ ['*'.toUInt8]))

theorem not_literal_cons_star : ¬ Literal ('*'.toUInt8 :: word) := fun h =>
  h.1 mem_cons_self

theorem not_literal_append_star : ¬ Literal (word ++ '*'.toUInt8 :: suffix) := fun h =>
  h.1 (mem_append_right _ mem_cons_self)

theorem scanMatches_star : scanMatches (ascii "*") word = true := by
  rw [scanMatches, if_pos rfl]

theorem scanMatches_of_literal (h : Literal pattern) :
    scanMatches pattern word = true ↔ word = pattern := by
  rw [scanMatches, if_neg, if_pos (literal_iff.mpr h), decide_eq_true_iff]
  rintro rfl
  exact not_literal_cons_star h

theorem scanMatches_of_not_literal (hstar : pattern ≠ ascii "*") (h : ¬ Literal pattern) :
    scanMatches pattern word =
      if pattern.head? = some '*'.toUInt8 ∧ pattern.getLast? = some '*'.toUInt8 ∧
          1 < pattern.length then find pattern.tail.dropLast word
      else if pattern.head? = some '*'.toUInt8 ∧ 1 < pattern.length then
        endsWith pattern.tail word
      else if pattern.getLast? = some '*'.toUInt8 ∧ 1 < pattern.length then
        startsWith pattern.dropLast word
      else find pattern word := by
  rw [scanMatches, if_neg hstar, if_neg fun hlit => h (literal_iff.mp hlit)]

theorem ne_star_of_length (h : 1 < pattern.length) : pattern ≠ ascii "*" := by
  rintro rfl
  exact absurd h (by decide)

theorem scanMatches_both (middle : Bytes) :
    scanMatches ('*'.toUInt8 :: (middle ++ ['*'.toUInt8])) word = find middle word := by
  have hlength : 1 < ('*'.toUInt8 :: (middle ++ ['*'.toUInt8])).length := by
    rw [length_cons, length_append, length_singleton]
    omega
  rw [scanMatches_of_not_literal (ne_star_of_length hlength) not_literal_cons_star, if_pos,
    tail_cons, dropLast_concat]
  exact ⟨rfl, by rw [← cons_append, List.getLast?_concat], hlength⟩

theorem scanMatches_first (hne : suffix ≠ []) (hlast : suffix.getLast? ≠ some '*'.toUInt8) :
    scanMatches ('*'.toUInt8 :: suffix) word = endsWith suffix word := by
  have hlength : 1 < ('*'.toUInt8 :: suffix).length :=
    Nat.succ_lt_succ (length_pos_iff.mpr hne)
  have hlast' : ('*'.toUInt8 :: suffix).getLast? = suffix.getLast? := by
    rw [List.getLast?_cons, List.getLast?_eq_some_getLast hne]
    rfl
  rw [scanMatches_of_not_literal (ne_star_of_length hlength) not_literal_cons_star, if_neg,
    if_pos ⟨rfl, hlength⟩, tail_cons]
  rw [hlast']
  exact fun h => hlast h.2.1

theorem scanMatches_last (hne : start ≠ []) (hhead : start.head? ≠ some '*'.toUInt8) :
    scanMatches (start ++ ['*'.toUInt8]) word = startsWith start word := by
  have hlength : 1 < (start ++ ['*'.toUInt8]).length := by
    rw [length_append, length_singleton]
    exact Nat.succ_lt_succ (length_pos_iff.mpr hne)
  have hhead' : (start ++ ['*'.toUInt8]).head? ≠ some '*'.toUInt8 := by
    rwa [List.head?_append_of_ne_nil _ hne]
  rw [scanMatches_of_not_literal (ne_star_of_length hlength) not_literal_append_star,
    if_neg fun h => hhead' h.1, if_neg fun h => hhead' h.1,
    if_pos ⟨List.getLast?_concat, hlength⟩, dropLast_concat]

theorem scanMatches_neither (h : ¬ Literal pattern) (hhead : pattern.head? ≠ some '*'.toUInt8)
    (hlast : pattern.getLast? ≠ some '*'.toUInt8) :
    scanMatches pattern word = find pattern word := by
  rw [scanMatches_of_not_literal _ h, if_neg fun h => hhead h.1, if_neg fun h => hhead h.1,
    if_neg fun h => hlast h.1]
  rintro rfl
  exact hhead rfl

theorem scanMatches_exact (h : StarsAtEnds pattern) : Exact (scanMatches pattern) pattern := by
  intro key
  obtain ⟨word, hword, rfl | rfl | rfl | rfl⟩ := h
  · rw [scanMatches_of_literal hword]
    exact (matches_plain_iff hword).symm
  · rw [glob_star_literal hword]
    by_cases hne : word = []
    · subst hne
      exact iff_of_true scanMatches_star nil_suffix
    · rw [scanMatches_first hne (fun h => hword.1 (mem_of_getLast? h)), endsWith_iff]
  · rw [glob_literal_star hword]
    by_cases hne : word = []
    · subst hne
      exact iff_of_true scanMatches_star nil_prefix
    · rw [scanMatches_last hne (fun h => hword.1 (mem_of_mem_head? h)), startsWith_iff]
  · rw [glob_star_literal_star hword, scanMatches_both, find_iff]

theorem scanExact_iff (pattern : Bytes) :
    Exact (scanMatches pattern) pattern ↔ StarsAtEnds pattern := by
  refine ⟨fun hexact => ?_, scanMatches_exact⟩
  by_cases hlit : Literal pattern
  · exact ⟨pattern, hlit, .inl rfl⟩
  by_cases hhead : pattern.head? = some '*'.toUInt8
  · obtain ⟨rest, rfl⟩ := List.head?_eq_some_iff.mp hhead
    by_cases hlast : rest.getLast? = some '*'.toUInt8
    · obtain ⟨middle, rfl⟩ := List.getLast?_eq_some_iff.mp hlast
      by_cases hmiddle : Literal middle
      · exact ⟨middle, hmiddle, .inr (.inr (.inr rfl))⟩
      · refine absurd hexact (not_exact hmiddle (fun word hword => ?_) _)
        rw [scanMatches_both] at hword
        exact (find_iff.mp hword).sublist
    · by_cases hrest : Literal rest
      · exact ⟨rest, hrest, .inr (.inl rfl)⟩
      · have hne : rest ≠ [] := fun h => hrest (h ▸ literal_nil)
        refine absurd hexact (not_exact hrest (fun word hword => ?_) _)
        rw [scanMatches_first hne hlast] at hword
        exact (endsWith_iff.mp hword).sublist
  · by_cases hlast : pattern.getLast? = some '*'.toUInt8
    · obtain ⟨start, rfl⟩ := List.getLast?_eq_some_iff.mp hlast
      by_cases hstart : Literal start
      · exact ⟨start, hstart, .inr (.inr (.inl rfl))⟩
      · have hne : start ≠ [] := fun h => hstart (h ▸ literal_nil)
        rw [List.head?_append_of_ne_nil _ hne] at hhead
        refine absurd hexact (not_exact hstart (fun word hword => ?_) _)
        rw [scanMatches_last hne hhead] at hword
        exact (startsWith_iff.mp hword).sublist
    · refine absurd hexact (not_exact hlit (fun word hword => ?_) _)
      rw [scanMatches_neither hlit hhead hlast] at hword
      exact (find_iff.mp hword).sublist

/-! ### `PSUBSCRIBE` -/

/-- A word with at most one star, or stars only. -/
def OneStarOrAll (pattern : Bytes) : Prop :=
  Literal pattern ∨
    (∃ start suffix, Literal start ∧ Literal suffix ∧ pattern = start ++ '*'.toUInt8 :: suffix) ∨
    ∃ n, pattern = replicate (n + 1) '*'.toUInt8

theorem has_star_eq_false (h : '*'.toUInt8 ∉ word) : has '*' word = false := by
  rw [has, contains_eq_mem, decide_eq_false h]

theorem exists_middle_iff : (∃ middle, word = start ++ middle ++ suffix) ↔
    start.length + suffix.length ≤ word.length ∧ start.IsPrefix word ∧ suffix.IsSuffix word := by
  constructor
  · rintro ⟨middle, rfl⟩
    refine ⟨?_, ⟨middle ++ suffix, by rw [append_assoc]⟩, suffix_append ..⟩
    rw [length_append, length_append]
    omega
  · rintro ⟨hlength, ⟨rest, rfl⟩, hsuffix⟩
    rw [length_append] at hlength
    obtain ⟨middle, rfl⟩ := suffix_of_suffix_length_le hsuffix (suffix_append start rest)
      (by omega)
    exact ⟨middle, (append_assoc ..).symm⟩

theorem idxOf_star (hstart : '*'.toUInt8 ∉ start) (suffix : Bytes) :
    (start ++ '*'.toUInt8 :: suffix).idxOf '*'.toUInt8 = start.length ∧
      (start ++ '*'.toUInt8 :: suffix).drop (start.length + 1) = suffix := by
  constructor
  · rw [idxOf_append_of_notMem hstart, idxOf_cons_self, Nat.add_zero]
  · rw [← singleton_append, ← append_assoc]
    exact drop_left' (by rw [length_append, length_singleton])

theorem patternMatches_one (hstart : '*'.toUInt8 ∉ start) (hsuffix : '*'.toUInt8 ∉ suffix) :
    patternMatches (start ++ '*'.toUInt8 :: suffix) word = true ↔
      ∃ middle, word = start ++ middle ++ suffix := by
  obtain ⟨hpos, hdrop⟩ := idxOf_star hstart suffix
  have hlength : (start ++ '*'.toUInt8 :: suffix).length = start.length + (suffix.length + 1) := by
    rw [length_append, length_cons]
  rw [exists_middle_iff, patternMatches]
  split
  · next hstar =>
    -- the star alone
    rw [hstar] at hlength
    have hone : (ascii "*").length = 1 := rfl
    obtain rfl : start = [] := length_eq_zero_iff.mp (by omega)
    obtain rfl : suffix = [] := length_eq_zero_iff.mp (by omega)
    exact iff_of_true rfl ⟨Nat.zero_le _, nil_prefix, nil_suffix⟩
  · rw [if_neg fun hlit => not_literal_append_star (literal_iff.mp hlit)]
    dsimp only
    rw [hpos, hdrop, take_left, hlength,
      if_pos ⟨by omega, by rw [has_star_eq_false hsuffix]; rfl⟩]
    split
    · next hzero =>
      obtain rfl : start = [] := length_eq_zero_iff.mp hzero
      rw [endsWith_iff]
      exact ⟨fun h => ⟨(Nat.zero_add _).symm ▸ h.length_le, nil_prefix, h⟩,
        fun h => h.2.2⟩
    · split
      · next hlast =>
        obtain rfl : suffix = [] := length_eq_zero_iff.mp (by omega)
        rw [decide_eq_true_iff, eq_comm, ← prefix_iff_eq_take]
        exact ⟨fun h => ⟨h.length_le, h, nil_suffix⟩, fun h => h.2.1⟩
      · rw [decide_eq_true_iff, prefix_iff_eq_take, suffix_iff_eq_drop,
          eq_comm (a := start), eq_comm (a := suffix)]

/-- The bytes before the first wildcard. -/
def plainPart (pattern : Bytes) : Bytes :=
  pattern.takeWhile fun c => c ≠ '*'.toUInt8 ∧ c ≠ '?'.toUInt8

theorem patternMatches_other (hlit : ¬ Literal pattern)
    (hone : ∀ start suffix, '*'.toUInt8 ∉ start → '*'.toUInt8 ∉ suffix →
      pattern ≠ start ++ '*'.toUInt8 :: suffix) :
    patternMatches pattern word = find (plainPart pattern) word := by
  have hstar : pattern ≠ ascii "*" := hone [] [] not_mem_nil not_mem_nil
  rw [patternMatches, if_neg hstar, if_neg fun h => hlit (literal_iff.mp h)]
  dsimp only
  rw [if_neg]
  · rfl
  · rintro ⟨hpos, hsuffix⟩
    obtain ⟨start, suffix, rfl, hstart⟩ :=
      eq_append_cons_of_mem (idxOf_lt_length_iff.mp hpos)
    rw [(idxOf_star hstart suffix).1, (idxOf_star hstart suffix).2, has, contains_eq_mem,
      Bool.not_eq_true', decide_eq_false_iff_not] at hsuffix
    exact hone start suffix hstart hsuffix rfl

theorem glob_nil_iff (pattern : Bytes) :
    GlobMatches pattern [] ↔ ∃ n, pattern = replicate n '*'.toUInt8 := by
  constructor
  · intro h
    induction pattern with
    | nil => exact ⟨0, rfl⟩
    | cons c pattern ih =>
      generalize hword : ([] : Bytes) = word at h
      cases h with
      | star u h =>
        obtain ⟨rfl, rfl⟩ := append_eq_nil_iff.mp hword.symm
        obtain ⟨n, rfl⟩ := ih h
        exact ⟨n + 1, rfl⟩
      | one | char => cases hword
  · rintro ⟨n, rfl⟩
    induction n with
    | zero => exact .nil
    | succ n ih => exact .star [] ih

theorem patternMatches_exact (h : OneStarOrAll pattern) :
    Exact (patternMatches pattern) pattern := by
  intro word
  rcases h with hlit | ⟨start, suffix, hstart, hsuffix, rfl⟩ | ⟨n, rfl⟩
  · rw [patternMatches, if_neg, if_pos (literal_iff.mpr hlit), decide_eq_true_iff]
    · exact (matches_plain_iff hlit).symm
    · rintro rfl
      exact not_literal_cons_star hlit
  · rw [patternMatches_one hstart.1 hsuffix.1, glob_literal_star_literal hstart hsuffix]
  · -- stars only match everything
    have hmatch : GlobMatches (replicate (n + 1) '*'.toUInt8) (word ++ []) :=
      .star word ((glob_nil_iff _).mpr ⟨n, rfl⟩)
    rw [append_nil] at hmatch
    refine iff_of_true ?_ hmatch
    cases n with
    | zero =>
      exact (patternMatches_one not_mem_nil not_mem_nil).mpr
        ⟨word, (append_nil _).symm⟩
    | succ n =>
      rw [replicate_succ, patternMatches_other not_literal_cons_star, find_iff]
      · exact nil_infix
      · intro start suffix hstart hsuffix heq
        have hcount := congrArg (List.count '*'.toUInt8) heq
        rw [count_cons_self, count_replicate_self, count_append,
          count_cons_self, count_eq_zero_of_not_mem hstart,
          count_eq_zero_of_not_mem hsuffix] at hcount
        omega

theorem pubSubExact_iff (pattern : Bytes) :
    Exact (patternMatches pattern) pattern ↔ OneStarOrAll pattern := by
  refine ⟨fun hexact => ?_, patternMatches_exact⟩
  by_cases hlit : Literal pattern
  · exact .inl hlit
  by_cases hone : ∃ start suffix, '*'.toUInt8 ∉ start ∧ '*'.toUInt8 ∉ suffix ∧
      pattern = start ++ '*'.toUInt8 :: suffix
  · obtain ⟨start, suffix, hstart, hsuffix, rfl⟩ := hone
    have htest : ∀ word, patternMatches (start ++ '*'.toUInt8 :: suffix) word = true →
        start.IsPrefix word ∧ suffix.IsSuffix word := fun word hword =>
      (exists_middle_iff.mp ((patternMatches_one hstart hsuffix).mp hword)).2
    by_cases hstart' : Literal start
    · by_cases hsuffix' : Literal suffix
      · exact .inr (.inl ⟨start, suffix, hstart', hsuffix', rfl⟩)
      · exact absurd hexact (not_exact hsuffix' (fun word hword => (htest word hword).2.sublist) _)
    · exact absurd hexact (not_exact hstart' (fun word hword => (htest word hword).1.sublist) _)
  · have htest : ∀ word, find (plainPart pattern) word = true ↔ GlobMatches pattern word := by
      intro word
      rw [← hexact word, patternMatches_other hlit]
      exact fun start suffix hstart hsuffix heq => hone ⟨start, suffix, hstart, hsuffix, heq⟩
    cases hpart : plainPart pattern with
    | nil =>
      -- every word passes the test, also the empty one
      have hnil := (htest []).mp (by rw [hpart]; exact find_iff.mpr nil_infix)
      obtain ⟨n, rfl⟩ := (glob_nil_iff pattern).mp hnil
      cases n with
      | zero => exact absurd literal_nil hlit
      | succ n => exact .inr (.inr ⟨n, rfl⟩)
    | cons c part =>
      -- another byte in front does not change the test
      cases pattern with
      | nil => exact absurd literal_nil hlit
      | cons d pattern =>
        rw [plainPart, takeWhile_cons] at hpart
        split at hpart
        · next hd =>
          rw [decide_eq_true_iff] at hd
          have hfound := (htest ('*'.toUInt8 :: plainPart (d :: pattern))).mp
            (find_iff.mpr (suffix_cons ..).isInfix)
          obtain ⟨v, hv, -⟩ := (matches_char_iff hd.1 hd.2).mp hfound
          exact absurd (List.cons.inj hv).1.symm hd.1
        · cases hpart

/-! ### `KEYS` -/

theorem keysLoop_some (h : ∀ key, keysMatches pattern key = some (test key)) (keys : List Bytes) :
    keysLoop pattern keys = some (keys.filter test) := by
  induction keys with
  | nil => rfl
  | cons key keys ih =>
    rw [keysLoop, h, ih, filter_cons]
    rfl

/-- The search for the rest of a pattern is not the right test. -/
theorem not_exact_find_tail {c : UInt8} {rest : Bytes} (hne : c :: rest ≠ ascii "*") :
    ¬ Exact (find rest) (c :: rest) := by
  intro hexact
  by_cases hrest : Literal rest
  · have hself := (hexact rest).mp (find_iff.mpr (infix_refl rest))
    by_cases hc : c = '*'.toUInt8
    · subst hc
      -- the rest is found before the end, too
      have hlonger := (hexact (rest ++ ['*'.toUInt8])).mp
        (find_iff.mpr (prefix_append ..).isInfix)
      obtain ⟨u, hu⟩ := (glob_star_literal hrest).mp hlonger
      rcases rest.eq_nil_or_concat with rfl | ⟨start, d, rfl⟩
      · exact hne rfl
      · rw [concat_eq_append, ← append_assoc] at hu
        obtain ⟨-, hlast⟩ := append_inj' hu rfl
        refine hrest.1 ?_
        rw [concat_eq_append, singleton_inj.mp hlast]
        exact mem_append_right _ mem_cons_self
    · -- the rest itself is too short
      have hlonger : ∃ d, rest = d :: rest := by
        by_cases hc' : c = '?'.toUInt8
        · subst hc'
          obtain ⟨d, v, hv, hmatch⟩ := (matches_one_iff star_ne_question).mp hself
          rw [(matches_plain_iff hrest).mp hmatch] at hv
          exact ⟨d, hv⟩
        · exact ⟨c, (matches_plain_iff (plain_cons_iff.mpr ⟨⟨hc, hc'⟩, hrest⟩)).mp hself⟩
      obtain ⟨d, hd⟩ := hlonger
      exact cons_ne_self d rest hd.symm
  · exact not_exact hrest (fun word hword => (find_iff.mp hword).sublist) _ hexact

/-- `KEYS` replies with the keys that match. -/
def KeysExact (substrError pattern : Bytes) : Prop :=
  ∀ allKeys : List (List Bytes), ∃ keys : List Bytes,
    handleKeys substrError [.ofString pattern .kBulkString] allKeys =
        .returns (.ofResponse (.ofArray (keys.map fun key => .ofString key .kBulkString))) ∧
      ∀ key, key ∈ keys ↔ key ∈ allKeys.flatten ∧ GlobMatches pattern key

section

variable (h : ∀ key, keysMatches pattern key = some (test key))
include h

theorem handleKeys_of_some (substrError : Bytes) (allKeys : List (List Bytes)) :
    handleKeys substrError [.ofString pattern .kBulkString] allKeys =
      .returns (.ofResponse (.ofArray
        ((allKeys.flatten.filter test).map fun key => .ofString key .kBulkString))) := by
  unfold handleKeys
  dsimp only [CommandArg.ofString]
  rw [keysLoop_some h]
  rfl

theorem keysExact_iff_exact
    (substrError : Bytes) : KeysExact substrError pattern ↔ Exact test pattern := by
  constructor
  · intro hkeys word
    obtain ⟨keys, hreply, hmem⟩ := hkeys [[word]]
    rw [handleKeys_of_some h] at hreply
    injection hreply with hresult
    have hresponse := congrArg CommandResult.response hresult
    injection hresponse with harray
    have hkeys := congrArg bulkStrings harray
    rw [bulkStrings_map, bulkStrings_map, Option.some_inj] at hkeys
    have hword := hmem word
    simp only [← hkeys, mem_filter, flatten_singleton, mem_singleton,
      true_and] at hword
    exact hword
  · intro hexact allKeys
    refine ⟨allKeys.flatten.filter test, handleKeys_of_some h substrError allKeys, fun key => ?_⟩
    rw [mem_filter, hexact key]

end

theorem keysExact_iff (substrError pattern : Bytes) :
    KeysExact substrError pattern ↔ pattern = ascii "*" := by
  by_cases hstar : pattern = ascii "*"
  · have htest : ∀ key, keysMatches pattern key = some true := fun key => if_pos hstar
    rw [keysExact_iff_exact htest, iff_true_right hstar, hstar]
    exact fun word => iff_of_true rfl (matches_star word)
  · refine iff_of_false (fun hkeys => ?_) hstar
    cases pattern with
    | nil =>
      -- the first key makes `substr` throw
      obtain ⟨keys, hreply, -⟩ := hkeys [[[]]]
      cases hreply
    | cons c rest =>
      have htest : ∀ key, keysMatches (c :: rest) key = some (find rest key) :=
        fun key => if_neg hstar
      exact not_exact_find_tail hstar ((keysExact_iff_exact htest substrError).mp hkeys)

/-! ### All three -/

/-- A client that calls `SCAN` with `MATCH pattern` until the cursor is 0 has the keys that
match. -/
def FullScanExact (env : ScanEnv) (pattern : Bytes) : Prop :=
  ∀ (manager : ScanStateManager) (args : ℕ → List CommandArg) (allKeys : ℕ → List (List Bytes))
    (count : Int32), options env (args 0) (ascii "*") 10 = .ok (pattern, count) →
    (∀ n, ∃ r, options env (args n) (ascii "*") 10 = .ok r) → manager.nextScanId + 1 ≠ 0 →
    ∃ n, (client env args allKeys (fun _ => []) manager n).cursor = ascii "0" ∧
      (∀ k < n, (client env args allKeys (fun _ => []) manager k).cursor ≠ ascii "0") ∧
      ∀ key, key ∈ (client env args allKeys (fun _ => []) manager n).keys ↔
        key ∈ (allKeys 0).flatten ∧ GlobMatches pattern key

theorem fullScan_keys {env : ScanEnv} {manager : ScanStateManager} {args : ℕ → List CommandArg}
    (allKeys : ℕ → List (List Bytes)) {count : Int32}
    (hfirst : options env (args 0) (ascii "*") 10 = .ok (pattern, count))
    (hargs : ∀ n, ∃ r, options env (args n) (ascii "*") 10 = .ok r)
    (hid : manager.nextScanId + 1 ≠ 0) :
    ∃ n, (client env args allKeys (fun _ => []) manager n).cursor = ascii "0" ∧
      (∀ k < n, (client env args allKeys (fun _ => []) manager k).cursor ≠ ascii "0") ∧
      (client env args allKeys (fun _ => []) manager n).keys =
        filteredKeys pattern (allKeys 0) := by
  refine client_keys hfirst hargs (fun _ call hcall => absurd hcall not_mem_nil) hid ?_
  have hnone : ∑ k ∈ Finset.range ((filteredKeys pattern (allKeys 0)).length + 1),
      starts env [] = 0 := Finset.sum_eq_zero fun _ _ => rfl
  rw [hnone]
  decide

theorem fullScanExact_iff_exact (env : ScanEnv) (pattern : Bytes) :
    FullScanExact env pattern ↔ Exact (scanMatches pattern) pattern := by
  constructor
  · intro hscan word
    have hargs : options env [.ofString (ascii "MATCH") .kBulkString,
        .ofString pattern .kBulkString] (ascii "*") 10 = .ok (pattern, 10) := rfl
    obtain ⟨n, hzero, hbefore, hkeys⟩ := hscan .init (fun _ => _) (fun _ => [[word]]) 10 hargs
      (fun _ => ⟨_, hargs⟩) (by decide)
    obtain ⟨n', hzero', hbefore', hkeys'⟩ :=
      fullScan_keys (fun _ => [[word]]) hargs (fun _ => ⟨_, hargs⟩)
        (by decide : ScanStateManager.init.nextScanId + 1 ≠ 0)
    -- there is one first call after which the cursor is 0
    obtain rfl : n = n' := by
      rcases Nat.lt_trichotomy n n' with hlt | heq | hlt
      · exact absurd hzero (hbefore' n hlt)
      · exact heq
      · exact absurd hzero' (hbefore n' hlt)
    have hword := hkeys word
    simp only [hkeys', filteredKeys, mem_filter, flatten_singleton,
      mem_singleton, true_and] at hword
    exact hword
  · intro hexact manager args allKeys count hfirst hargs hid
    obtain ⟨n, hzero, hbefore, hkeys⟩ := fullScan_keys allKeys hfirst hargs hid
    refine ⟨n, hzero, hbefore, fun key => ?_⟩
    rw [hkeys, filteredKeys, mem_filter, hexact key]

/-- For which patterns each of the three tests is the right one, for all keys and channels. -/
theorem patterns_iff (env : ScanEnv) (substrError pattern : Bytes) :
    (KeysExact substrError pattern ↔ pattern = ascii "*") ∧
      (FullScanExact env pattern ↔ StarsAtEnds pattern) ∧
      ((∀ channel, patternMatches pattern channel = true ↔ GlobMatches pattern channel) ↔
        OneStarOrAll pattern) :=
  ⟨keysExact_iff substrError pattern,
    (fullScanExact_iff_exact env pattern).trans (scanExact_iff pattern), pubSubExact_iff pattern⟩

theorem glob_question :
    GlobMatches (ascii "h?llo") (ascii "hello") ∧ ¬ GlobMatches (ascii "h?llo") (ascii "oh") := by
  refine ⟨.char (by decide) (by decide) (.one _ (.char (by decide) (by decide)
    (.char (by decide) (by decide) (.char (by decide) (by decide) .nil)))), fun h => ?_⟩
  obtain ⟨v, hv, -⟩ := (matches_char_iff (c := 'h'.toUInt8) (by decide) (by decide)).mp h
  have hhead := congrArg List.head? hv
  rw [List.head?_cons] at hhead
  exact absurd hhead (by decide)

theorem patterns_question :
    handleKeys [] [.ofString (ascii "h?llo") .kBulkString] [[ascii "hello"]] =
        .returns (.ofResponse (.ofArray [])) ∧
      ¬ FullScanExact simpleScan (ascii "h?llo") ∧
      patternMatches (ascii "h?llo") (ascii "oh") = true ∧
      GlobMatches (ascii "h?llo") (ascii "hello") ∧ ¬ GlobMatches (ascii "h?llo") (ascii "oh") := by
  refine ⟨rfl, fun hscan => ?_, by decide, glob_question⟩
  have hfalse := ((fullScanExact_iff_exact _ _).mp hscan (ascii "hello")).mpr glob_question.1
  exact absurd hfalse (by decide)

end Patterns
