/-
The order of a sorted set, and the slices of it that `ZRANGE` returns.

`GetRangeByRank` lists the members by score and then by hash.  The database clips the indices of a
slice twice, once as signed and once as unsigned numbers.

* `listsByMember_iff` — members of equal score are not in the order of their bytes, unless their
  hashes are;
* `slices_iff` — when `ZRange` and `ZRangeByRank` return the slice.
-/
import AstraDB.LinkedList
import AstraDB.ZSet

open List LinkedList

set_option linter.unusedSectionVars false

open BPTree ScoredMemberCompact Slices

namespace ZSetBPlus

variable {Member Score : Type} [LinearOrder Score] [Zero Score] {hash : Member → UInt64}
  {l : List (Member × Score)}

section Order

variable [DecidableEq Member] {m : Scores Member Score} {z : ZSetBPlus Member Score}

theorem Consistent.getRank_eq (hz : Consistent hash z m) (hm : Fits hash m)
    (hl : SortedBy (elementOf hash) m l) {i : ℕ} {p : Member × Score} (hp : l[i]? = some p) :
    z.getRank hash p.1 false = some (some i) := by
  have hlookup := (hl.2 p).mp (mem_of_getElem? hp)
  have hmem : elementOf hash p ∈ elementsOf hash m :=
    Finset.mem_image_of_mem _ (mem_pairs.mpr hlookup)
  obtain ⟨hi, hget⟩ := List.getElem?_eq_some_iff.mp hp
  have hsorted := hl.1
  have hdrop : l.drop i = p :: l.drop (i + 1) := by
    rw [drop_eq_getElem_cons hi, hget]
  rw [← take_append_drop i l, hdrop, pairwise_append, pairwise_cons] at hsorted
  have hrank : rankIn (elementsOf hash m) (elementOf hash p) = i := by
    rw [rankIn_eq_length (l := (l.take i).map (elementOf hash))
      (r := (l.drop i).map (elementOf hash)), length_map, length_take,
      Nat.min_eq_left hi.le]
    · rw [← map_append, take_append_drop, elementsOf, hl.sort_eq]
    · intro e he
      obtain ⟨q, hq, rfl⟩ := mem_map.mp he
      exact hsorted.2.2 q hq p mem_cons_self
    · intro e he
      obtain ⟨q, hq, rfl⟩ := mem_map.mp he
      rw [hdrop] at hq
      rcases mem_cons.mp hq with rfl | hq
      · exact lt_irrefl _
      · exact lt_asymm (hsorted.2.1.1 q hq)
  have hlength := hl.length_eq
  have hcount := hm.count
  rw [ZSetBPlus.getRank, hz.lookup_eq, hlookup]
  simp only
  rw [show makeElement hash p.1 p.2 = elementOf hash p from rfl,
    getRank_spec isThreeWay_keyCompareTo layout16_roomy hz.elements
      (hz.treeFits hm), if_pos hmem, if_neg (by decide), hrank]
  simp only [Option.bind_eq_bind, Option.bind_some, Option.map_some, UInt32.toNat_ofNat']
  rw [Nat.mod_eq_of_lt (by omega)]

end Order

section Members

variable [LinearOrder Member] {m : Scores Member Score} {z : ZSetBPlus Member Score}

/-- By score, then by the member itself; the order of strings is that of their bytes. -/
def memberKey (p : Member × Score) : Score ×ₗ Member := toLex (p.2, p.1)

theorem memberKey_injective : Function.Injective (memberKey : Member × Score → _) := by
  intro p q h
  have hpair := Prod.ext_iff.mp (toLex.injective h)
  exact Prod.ext hpair.2 hpair.1

/-- Ranges and ranks are those of the list. -/
structure Lists (hash : Member → UInt64) (z : ZSetBPlus Member Score)
    (l : List (Member × Score)) : Prop where
  range : ∀ start stop reverse withScores, z.getRangeByRank start stop reverse withScores =
    some ((((directed reverse l).take (stop.toNat + 1)).drop start.toNat).map (reply withScores))
  rank : ∀ i p, l[i]? = some p → z.getRank hash p.1 false = some (some i)

/-- Members of equal score have hashes in the order of the members. -/
def HashesInOrder (hash : Member → UInt64) (m : Scores Member Score) : Prop :=
  ∀ a b score, m.lookup a = some score → m.lookup b = some score → a < b → hash a < hash b

theorem Consistent.lists (hz : Consistent hash z m) (hm : Fits hash m)
    (hl : SortedBy (elementOf hash) m l) : Lists hash z l :=
  ⟨hz.getRangeByRank_eq hm hl, fun _ _ => hz.getRank_eq hm hl⟩

theorem Lists.eq {l' : List (Member × Score)} (hl : Lists hash z l) (hl' : Lists hash z l')
    (hlength : l.length < 2 ^ 64) (hlength' : l'.length < 2 ^ 64) : l = l' := by
  have hall : ∀ k : List (Member × Score), k.length < 2 ^ 64 →
      ((((directed false k).take ((-1 : UInt64).toNat + 1)).drop (0 : UInt64).toNat).map
        (reply true)) = k := by
    intro k hk
    have hid : reply true = (id : Member × Score → Member × Score) := rfl
    rw [hid, map_id, take_of_length_le (by exact hk.le)]
    rfl
  have hrange := (hl.range 0 (-1) false true).symm.trans (hl'.range 0 (-1) false true)
  rw [hall l hlength, hall l' hlength'] at hrange
  exact Option.some.inj hrange

theorem sortedBy_elementOf_iff (hl : SortedBy memberKey m l) :
    SortedBy (elementOf hash) m l ↔ HashesInOrder hash m := by
  constructor
  · intro hl' a b score ha hb hab
    -- one of the two is before the other one, in both orders
    have hpairs : l.Pairwise fun p q : Member × Score =>
        (memberKey p < memberKey q ∧ elementOf hash p < elementOf hash q) ∨
          (memberKey q < memberKey p ∧ elementOf hash q < elementOf hash p) :=
      (hl.1.and hl'.1).imp .inl
    have : Std.Symm fun p q : Member × Score =>
        (memberKey p < memberKey q ∧ elementOf hash p < elementOf hash q) ∨
          (memberKey q < memberKey p ∧ elementOf hash q < elementOf hash p) :=
      ⟨fun _ _ h => h.symm⟩
    have hor := hpairs.forall ((hl.2 (a, score)).mpr ha) ((hl.2 (b, score)).mpr hb)
      fun h => hab.ne (congrArg Prod.fst h)
    rcases hor with h | h
    · rcases ScoredMemberCompact.lt_iff.mp h.2 with hscore | hhash
      · exact absurd hscore (lt_irrefl score)
      · exact hhash.2
    · rcases Prod.Lex.toLex_lt_toLex.mp h.1 with hscore | hmember
      · exact absurd hscore (lt_irrefl score)
      · exact absurd hab (lt_asymm hmember.2)
  · intro hhashes
    refine ⟨hl.1.imp_of_mem fun {p q} hp hq hlt => ?_, hl.2⟩
    rw [ScoredMemberCompact.lt_iff]
    rcases Prod.Lex.toLex_lt_toLex.mp hlt with hscore | ⟨hscore, hmember⟩
    · exact .inl hscore
    · have hlookup := (hl.2 p).mp hp
      rw [show p.2 = q.2 from hscore] at hlookup
      exact .inr ⟨hscore, hhashes p.1 q.1 q.2 hlookup ((hl.2 q).mp hq) hmember⟩

/-- The set lists its members by score and then by the members themselves if and only if, for equal
scores, their hashes happen to be in that order. -/
theorem listsByMember_iff (hash : Member → UInt64) (ops : List (Op Member Score))
    (hops : FitsAlong hash ∅ ops) :
    ∃ z l, empty.run hash ops = some ((Runs.results Op.apply ∅ ops).1, z) ∧
      SortedBy memberKey (Runs.results Op.apply ∅ ops).2 l ∧
      (Lists hash z l ↔ HashesInOrder hash (Runs.results Op.apply ∅ ops).2) := by
  obtain ⟨z, hrun, hz, hm⟩ := consistent_empty.run fits_empty hops
  obtain ⟨l, hl⟩ := exists_sortedBy (m := (Runs.results Op.apply ∅ ops).2)
    memberKey_injective.injOn
  obtain ⟨l', hl'⟩ := exists_sortedBy hm.injOn
  refine ⟨z, l, hrun, hl, ?_⟩
  rw [← sortedBy_elementOf_iff hl]
  constructor
  · intro hlists
    have hcount := hm.count
    rw [hlists.eq (hz.lists hm hl') (by rw [hl.length_eq]; omega) (by rw [hl'.length_eq]; omega)]
    exact hl'
  · exact hz.lists hm

theorem listsByMember_iff_ordered : ∃ (z : ZSetBPlus (Fin 8) ℤ) (l : List (Fin 8 × ℤ)),
    empty.run (fun member => UInt64.ofNat member.val) [.add 3 5, .add 4 5] =
      some ([some true, some true], z) ∧ Lists (fun member => UInt64.ofNat member.val) z l := by
  obtain ⟨z, l, hrun, -, hiff⟩ := listsByMember_iff (fun member : Fin 8 => UInt64.ofNat member.val)
    [.add 3 (5 : ℤ), .add 4 5] (by decide)
  have hmono : ∀ a b : Fin 8, a < b → UInt64.ofNat a.val < UInt64.ofNat b.val := by decide
  exact ⟨z, l, hrun, hiff.mpr fun a b _ _ _ hab => hmono a b hab⟩

/-- The strings `a` and `b` have the same score, and the hash of `b` is smaller. -/
theorem not_listsByMember : ∃ z : ZSetBPlus Bytes ℤ,
    FitsAlong (fun member => if member = [98] then 0 else 1) (∅ : Scores Bytes ℤ)
        [.add [97] 5, .add [98] 5] ∧
      empty.run (fun member => if member = [98] then 0 else 1) [.add [97] 5, .add [98] 5] =
        some ([some true, some true], z) ∧
      z.getRangeByRank 0 1 false true = some [([98], 5), ([97], 5)] :=
  ⟨_, by decide, rfl, rfl⟩

end Members

section Slices

variable [DecidableEq Member] {m : Scores Member Score} {z : ZSetBPlus Member Score}

/-- What `Database::ZRange` and `Database::ZRangeByRank` have in common, for a key that is valid or
not and the set that it has. -/
def rangeOf (isValid : Bool) (zset : Option (ZSetBPlus Member Score)) (start stop : Int64)
    (reverse withScores : Bool) : Option (List (Member × Score)) :=
  if !isValid then some []
  else
    match zset with
    | none => some []
    | some z =>
      let size : ℤ := z.size
      if size = 0 then some []
      else
        let start := Stored.fromEnd size 0 start.toInt
        let stop := Stored.fromEnd size (-1) stop.toInt
        if size ≤ start then some []
        else
          let stop := if size ≤ stop then size - 1 else stop
          -- the conversion makes the largest number of a stop of `-1`
          z.getRangeByRank (UInt64.ofInt start) (UInt64.ofInt stop) reverse withScores

def zRange (isValid : Bool) (zset : Option (ZSetBPlus Member Score)) (start stop : Int64)
    (reverse withScores : Bool) : Option (List (Member × Score)) :=
  rangeOf isValid zset start stop reverse withScores

/-- The direction is not passed on. -/
def zRangeByRank (isValid : Bool) (zset : Option (ZSetBPlus Member Score)) (start stop : Int64)
    (_reverse withScores : Bool) : Option (List (Member × Score)) :=
  rangeOf isValid zset start stop false withScores

theorem toNat_ofInt_of_nonneg {i : ℤ} (h0 : 0 ≤ i) (h : i < 2 ^ 64) :
    (UInt64.ofInt i).toNat = i.toNat := by
  rw [UInt64.ofInt, UInt64.toNat_ofNat', Int.emod_eq_of_lt h0 h, Nat.mod_eq_of_lt (by omega)]

theorem rangeOf_eq_rankRange (hz : Consistent hash z m) (hm : Fits hash m)
    (hl : SortedBy (elementOf hash) m l) (start stop : Int64) (reverse withScores : Bool) :
    rangeOf true (some z) start stop reverse withScores =
      some ((Stored.rankRange start.toInt stop.toInt (directed reverse l)).map
        (reply withScores)) := by
  have hlength := hl.length_eq
  have hcount := hm.count
  have hsize : z.size = l.length := hz.size_eq_length hm hl
  rw [rangeOf, Stored.rankRange, length_directed]
  simp only [Bool.not_true, Bool.false_eq_true, if_false, hsize]
  rw [storedFromEnd_eq _ (by decide), storedFromEnd_eq _ (by decide)]
  have hlength' := length_directed reverse l
  generalize hlo : max (resolve l.length start.toInt) 0 = lo
  generalize hhi : max (resolve l.length stop.toInt) (-1) = hi
  by_cases hafter : l.length ≤ lo
  · rw [if_pos hafter, if_pos hafter, ite_self]
    rfl
  · rw [if_neg hafter, if_neg hafter, if_neg (by omega), hz.getRangeByRank_eq hm hl,
      toNat_ofInt_of_nonneg (by omega) (by omega), Stored.slice]
    congr 2
    by_cases hlast : hi = -1
    · -- everything is taken
      rw [if_neg (by omega), hlast, if_pos rfl, take_of_length_le, take_of_length_le]
      · rw [length_drop]
        omega
      · have hmax : (UInt64.ofInt (-1)).toNat = 2 ^ 64 - 1 := by decide
        omega
    · have hclip : (if (l.length : ℤ) ≤ hi then (l.length : ℤ) - 1 else hi) =
          min hi (l.length - 1) := by
        split <;> omega
      rw [hclip, if_neg hlast, toNat_ofInt_of_nonneg (by omega) (by omega), drop_take]
      congr 1
      omega

theorem rankRange_eq {α : Type} (xs : List α) (start stop : ℤ) :
    Stored.rankRange start stop xs = if resolve xs.length stop < 0 then
      xs.drop (max (resolve xs.length start) 0).toNat else slice xs start stop := by
  split
  · next hstop =>
    rw [Stored.rankRange, storedFromEnd_eq _ (by decide),
      storedFromEnd_eq _ (by decide), if_pos (by omega : max _ (-1) = (-1 : ℤ))]
    split
    · rw [drop_of_length_le (by omega)]
    · rw [Stored.slice, take_of_length_le (by rw [length_drop]; omega)]
  · next hstop =>
    rw [slice_eq_listRange, Stored.rankRange, Stored.listRange,
      storedFromEnd_eq _ (show (-1 : ℤ) ≤ 0 by decide) stop,
      if_neg (by omega : ¬ max _ (-1) = (-1 : ℤ))]

theorem map_rankRange_iff {α β : Type} (f : α → β) (xs : List α) (start stop : ℤ) :
    (Stored.rankRange start stop xs).map f = (slice xs start stop).map f ↔
      xs = [] ∨ -xs.length ≤ stop ∨ xs.length ≤ start := by
  have hstart := resolve_cases xs.length start
  have hstop := resolve_cases xs.length stop
  rw [rankRange_eq]
  split
  · next hneg =>
    rw [slice_of_lt xs (by omega), map_nil, map_eq_nil_iff, drop_eq_nil_iff,
      ← length_eq_zero_iff]
    omega
  · next hnonneg => exact iff_of_true rfl (.inr (.inl (by omega)))

/-- The members from `start` to `stop`, in the order that is asked for. -/
def sliceReply (l : List (Member × Score)) (start stop : Int64) (reverse withScores : Bool) :
    List (Member × Score) :=
  (slice (directed reverse l) start.toInt stop.toInt).map (reply withScores)

theorem map_fst_sliceReply (l : List (Member × Score)) (start stop : Int64)
    (reverse withScores : Bool) : (sliceReply l start stop reverse withScores).map Prod.fst =
      slice ((directed reverse l).map Prod.fst) start.toInt stop.toInt := by
  rw [sliceReply, map_map, ← slice_map]
  rfl

section

variable (hz : Consistent hash z m) (hm : Fits hash m) (hl : SortedBy (elementOf hash) m l)
include hz hm hl

theorem zRange_iff (start stop : Int64) (reverse withScores : Bool) :
    zRange true (some z) start stop reverse withScores =
        some (sliceReply l start stop reverse withScores) ↔
      l = [] ∨ -l.length ≤ stop.toInt ∨ l.length ≤ start.toInt := by
  rw [zRange, rangeOf_eq_rankRange hz hm hl, Option.some.injEq, sliceReply, map_rankRange_iff,
    length_directed, ← length_eq_zero_iff, length_directed, length_eq_zero_iff]

theorem zRangeByRank_iff {start stop : Int64} (reverse withScores : Bool)
    (h : l = [] ∨ -l.length ≤ stop.toInt ∨ l.length ≤ start.toInt) :
    zRangeByRank true (some z) start stop reverse withScores =
        some (sliceReply l start stop reverse withScores) ↔
      reverse = false ∨
        min (resolve l.length stop.toInt) (l.length - 1) < max (resolve l.length start.toInt) 0 ∨
        max (resolve l.length start.toInt) 0 = min (resolve l.length stop.toInt) (l.length - 1) ∧
          2 * max (resolve l.length start.toInt) 0 + 1 = l.length := by
  have hforward : rangeOf true (some z) start stop false withScores =
      some (sliceReply l start stop false withScores) :=
    (zRange_iff hz hm hl start stop false withScores).mpr h
  rw [zRangeByRank, hforward, Option.some.injEq]
  cases reverse with
  | false => exact iff_of_true rfl (.inl rfl)
  | true =>
    rw [or_iff_right (by decide)]
    constructor
    · intro heq
      have hfst := congrArg (List.map Prod.fst) heq
      rw [map_fst_sliceReply, map_fst_sliceReply] at hfst
      rw [directed, directed, if_neg (by decide), if_pos rfl, map_reverse] at hfst
      have hmiddle := middle_of_slice_reverse hl.nodup hfst
      rwa [length_map] at hmiddle
    · intro hmiddle
      exact congrArg (List.map (reply withScores)) (slice_reverse_of_middle l hmiddle)

end

/-- Both return the slice if the stop is not too far below zero, or the slice is empty for another
reason, and if moreover the direction, which `ZRangeByRank` does not look at, makes no difference:
nothing is asked for, or only the member in the middle. -/
theorem slices_iff (hash : Member → UInt64) (ops : List (Op Member Score))
    (hops : FitsAlong hash ∅ ops) :
    ∃ z l, empty.run hash ops = some ((Runs.results Op.apply ∅ ops).1, z) ∧
      SortedBy (elementOf hash) (Runs.results Op.apply ∅ ops).2 l ∧
      ∀ (start stop : Int64) (reverse withScores : Bool),
        let first := max (resolve l.length start.toInt) 0
        let last := min (resolve l.length stop.toInt) (l.length - 1)
        zRange true (some z) start stop reverse withScores =
            some (sliceReply l start stop reverse withScores) ∧
          zRangeByRank true (some z) start stop reverse withScores =
            some (sliceReply l start stop reverse withScores) ↔
        (l = [] ∨ -l.length ≤ stop.toInt ∨ l.length ≤ start.toInt) ∧
          (reverse = false ∨ last < first ∨ first = last ∧ 2 * first + 1 = l.length) := by
  obtain ⟨z, hrun, hz, hm⟩ := consistent_empty.run fits_empty hops
  obtain ⟨l, hl⟩ := exists_sortedBy hm.injOn
  refine ⟨z, l, hrun, hl, fun start stop reverse withScores => ?_⟩
  rw [zRange_iff hz hm hl]
  exact and_congr_right (zRangeByRank_iff hz hm hl reverse withScores)

theorem slices_iff_three : ∃ (z : ZSetBPlus ℕ ℤ) (l : List (ℕ × ℤ)),
    empty.run UInt64.ofNat [.add 3 5, .add 4 6, .add 5 7] =
      some ([some true, some true, some true], z) ∧
      zRange true (some z) (-2) (-1) false true = some (sliceReply l (-2) (-1) false true) := by
  obtain ⟨z, l, hrun, hl, hiff⟩ := slices_iff UInt64.ofNat
    [.add 3 (5 : ℤ), .add 4 6, .add 5 7] (by decide)
  have hlength : l.length = 3 := hl.length_eq
  refine ⟨z, l, hrun, ((hiff (-2) (-1) false true).mpr ⟨.inr (.inl ?_), .inl rfl⟩).1⟩
  rw [hlength]
  decide

/-- With two members, a stop of `-3` leads to all of them, and the first one is returned for the
last one if the order is reversed. -/
theorem not_slices_two : ∃ z : ZSetBPlus ℕ ℤ,
    FitsAlong UInt64.ofNat (∅ : Scores ℕ ℤ) [.add 3 5, .add 4 6] ∧
      empty.run UInt64.ofNat [.add 3 5, .add 4 6] = some ([some true, some true], z) ∧
      zRange true (some z) 0 (-3) false true = some [(3, 5), (4, 6)] ∧
      zRangeByRank true (some z) 0 0 true true = some [(3, 5)] :=
  ⟨_, by decide, rfl, rfl, rfl⟩

end Slices

end ZSetBPlus
