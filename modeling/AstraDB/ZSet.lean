/-
Sorted sets: `ZSetBPlus`.

The scores of the members are in one map.  A B+tree has an element for each of them, which is
ordered by score and then by the 64-bit hash of the member, and a second map leads from the hash
back to the member.

`Consistent hash z m` says that all three are about the same members and scores, those of the
finite map `m`.

* `run_consistent` — the map and the tree agree in whole runs.
-/
import AstraDB.BPTreeRank
import AstraDB.Runs
import AstraDB.Slices
import Mathlib.Data.Finmap
import Mathlib.Data.Prod.Lex

open Finmap Option

set_option linter.unusedSectionVars false

open BPTree

namespace Finmap

variable {α β : Type} [DecidableEq α] {m : Finmap fun _ : α => β} {a : α}

theorem erase_of_notMem (h : a ∉ m) : m.erase a = m := by
  refine ext_lookup fun a' => ?_
  by_cases ha' : a' = a
  · rw [ha', lookup_erase, lookup_eq_none.mpr h]
  · exact lookup_erase_ne ha'

theorem insert_of_lookup {b : β} (h : m.lookup a = some b) : m.insert a b = m := by
  refine ext_lookup fun a' => ?_
  by_cases ha' : a' = a
  · rw [ha', lookup_insert, h]
  · exact lookup_insert_of_ne m ha'

theorem lookup_erase_eq_some_iff {a' : α} {b : β} :
    (m.erase a).lookup a' = some b ↔ a' ≠ a ∧ m.lookup a' = some b := by
  by_cases ha' : a' = a
  · rw [ha', lookup_erase]
    exact iff_of_false (by simp) fun h => h.1 rfl
  · rw [lookup_erase_ne ha', and_iff_right ha']

end Finmap

@[ext] structure ScoredMemberCompact (Score : Type) where
  score : Score
  memberHash : UInt64

namespace ScoredMemberCompact

variable {Score : Type}

instance [Zero Score] : Inhabited (ScoredMemberCompact Score) := ⟨⟨0, 0⟩⟩

/-- By score, then by hash. -/
def rankKey (e : ScoredMemberCompact Score) : Score ×ₗ ℕ := toLex (e.score, e.memberHash.toNat)

theorem rankKey_injective : Function.Injective (rankKey : ScoredMemberCompact Score → _) := by
  intro a b h
  have hpair := Prod.ext_iff.mp (toLex.injective h)
  exact ScoredMemberCompact.ext hpair.1 (UInt64.toNat_inj.mp hpair.2)

variable [LinearOrder Score]

def less (a b : ScoredMemberCompact Score) : Bool :=
  if a.score ≠ b.score then a.score < b.score else a.memberHash < b.memberHash

def keyCompareTo (a b : ScoredMemberCompact Score) : ℤ :=
  if less a b then -1 else if less b a then 1 else 0

instance : LinearOrder (ScoredMemberCompact Score) := LinearOrder.lift' rankKey rankKey_injective

theorem lt_iff {a b : ScoredMemberCompact Score} :
    a < b ↔ a.score < b.score ∨ a.score = b.score ∧ a.memberHash < b.memberHash := by
  refine (Prod.Lex.toLex_lt_toLex (x := (a.score, a.memberHash.toNat))).trans ?_
  rw [UInt64.lt_iff_toNat_lt]

theorem less_iff {a b : ScoredMemberCompact Score} : less a b = true ↔ a < b := by
  rw [less, lt_iff]
  split
  · next h => rw [decide_eq_true_iff, or_iff_left fun h' => h h'.1]
  · next h =>
    rw [not_not] at h
    rw [decide_eq_true_iff, h, or_iff_right (lt_irrefl _), and_iff_right rfl]

theorem isThreeWay_keyCompareTo :
    IsThreeWay (keyCompareTo : ScoredMemberCompact Score → ScoredMemberCompact Score → ℤ) := by
  constructor
  · intro a b
    rw [← less_iff, keyCompareTo]
    split_ifs <;> simp [*]
  · intro a b
    rw [← less_iff, keyCompareTo]
    split_ifs with hab hba
    · refine iff_of_false (by decide) fun hba => ?_
      exact lt_asymm (less_iff.mp hab) (less_iff.mp hba)
    · exact iff_of_true (by decide) hba
    · exact iff_of_false (by decide) hba

end ScoredMemberCompact

open ScoredMemberCompact

structure ZSetBPlus (Member Score : Type) where
  /-- ordered by score, then by hash -/
  orderedSet : BPTree (ScoredMemberCompact Score)
  memberToScore : AList fun _ : Member => Score
  hashToMember : AList fun _ : UInt64 => Member

namespace ZSetBPlus

variable {Member Score : Type} [DecidableEq Member] [LinearOrder Score] [Zero Score]
  (hash : Member → UInt64)

def empty : ZSetBPlus Member Score := ⟨BPTree.empty, ∅, ∅⟩

def makeElement (member : Member) (score : Score) : ScoredMemberCompact Score :=
  ⟨score, hash member⟩

def findMemberByHash (h : UInt64) (z : ZSetBPlus Member Score) : Option Member :=
  z.hashToMember.lookup h

/-- Whether the member is a new one.  There is no result if the tree is read out of bounds. -/
def add (member : Member) (score : Score) (z : ZSetBPlus Member Score) :
    Option (Bool × ZSetBPlus Member Score) :=
  match z.memberToScore.lookup member with
  | some oldScore =>
    if oldScore ≠ score then do
      let (tree, _) ← delete layout16 keyCompareTo z.orderedSet (makeElement hash member oldScore)
      let (tree, _) ← insert layout16 keyCompareTo tree (makeElement hash member score)
      some (false, ⟨tree, z.memberToScore.insert member score,
        z.hashToMember.insert (hash member) member⟩)
    else some (false, z)
  | none => do
    let (tree, _) ← insert layout16 keyCompareTo z.orderedSet (makeElement hash member score)
    some (true, ⟨tree, z.memberToScore.insert member score,
      z.hashToMember.insert (hash member) member⟩)

def remove (member : Member) (z : ZSetBPlus Member Score) :
    Option (Bool × ZSetBPlus Member Score) :=
  match z.memberToScore.lookup member with
  | some score => do
    let (tree, _) ← delete layout16 keyCompareTo z.orderedSet (makeElement hash member score)
    some (true, ⟨tree, z.memberToScore.erase member, z.hashToMember.erase (hash member)⟩)
  | none => some (false, z)

def clear (z : ZSetBPlus Member Score) : Option (ZSetBPlus Member Score) := do
  let tree ← BPTree.clear z.orderedSet
  some ⟨tree, ∅, ∅⟩

def size (z : ZSetBPlus Member Score) : ℕ := z.orderedSet.size

def getRank (member : Member) (reverse : Bool) (z : ZSetBPlus Member Score) :
    Option (Option ℕ) :=
  match z.memberToScore.lookup member with
  | none => some none
  | some score => do
    let rank ← BPTree.getRank keyCompareTo z.orderedSet (makeElement hash member score) reverse
    some (rank.map UInt32.toNat)

/-- One round of the loop of `GetRangeByRank`: what is put into the result. -/
def atRank (reverse withScores : Bool) (z : ZSetBPlus Member Score) (i : ℕ) :
    Option (List (Member × Score)) := do
  let rank := UInt32.ofNat (if reverse then z.orderedSet.size - 1 - i else i)
  let path ← fromRank z.orderedSet rank
  if path.length = 0 then some []
  else
    let elem ← BPTreePath.terminal path
    match z.findMemberByHash elem.memberHash with
    | some member => some [(member, if withScores then elem.score else 0)]
    | none => some []

def getRangeByRank (start stop : UInt64) (reverse withScores : Bool) (z : ZSetBPlus Member Score) :
    Option (List (Member × Score)) :=
  let size := z.orderedSet.size
  if size ≤ start.toNat then some []
  else
    let stop := min stop.toNat (size - 1)
    Loops.forUp start.toNat (stop + 1)
      (fun i result => do
        let result ← result
        let more ← z.atRank reverse withScores i
        some (result ++ more))
      (some [])

/-! ### Runs -/

inductive Op (Member Score : Type) where
  | add (member : Member) (score : Score)
  | remove (member : Member)
  | clear

/-- The call, and what it returns; `Clear` returns nothing. -/
def step (z : ZSetBPlus Member Score) :
    Op Member Score → Option (Option Bool × ZSetBPlus Member Score)
  | .add member score => (z.add hash member score).map fun r => (some r.1, r.2)
  | .remove member => (z.remove hash member).map fun r => (some r.1, r.2)
  | .clear => z.clear.map fun z => (none, z)

def run : ZSetBPlus Member Score → List (Op Member Score) →
    Option (List (Option Bool) × ZSetBPlus Member Score)
  | z, [] => some ([], z)
  | z, op :: ops => do
    let (r, z) ← z.step hash op
    let (rs, z) ← run z ops
    some (r :: rs, z)

abbrev Scores (Member Score : Type) := Finmap fun _ : Member => Score

/-- What a call does to the members, and returns. -/
def Op.apply (m : Scores Member Score) : Op Member Score → Option Bool × Scores Member Score
  | .add member score => (some (decide (member ∉ m)), m.insert member score)
  | .remove member => (some (decide (member ∈ m)), m.erase member)
  | .clear => (none, ∅)

/-- The members have different hashes, and the counters of the tree can count them. -/
structure Fits (m : Scores Member Score) : Prop where
  distinct : ∀ a ∈ m, ∀ b ∈ m, hash a = hash b → a = b
  count : m.keys.card < 2 ^ 32

instance (m : Scores Member Score) : Decidable (Fits hash m) :=
  decidable_of_iff ((∀ a ∈ m.keys, ∀ b ∈ m.keys, hash a = hash b → a = b) ∧ m.keys.card < 2 ^ 32)
    ⟨fun h => ⟨fun a ha b hb => h.1 a (mem_keys.mpr ha) b (mem_keys.mpr hb), h.2⟩,
      fun h => ⟨fun a ha b hb => h.1 a (mem_keys.mp ha) b (mem_keys.mp hb), h.2⟩⟩

def pairs (m : Scores Member Score) : Finset (Member × Score) :=
  m.keys.image fun member => (member, (m.lookup member).getD 0)

/-- The element of the tree for a member. -/
def elementOf (p : Member × Score) : ScoredMemberCompact Score := makeElement hash p.1 p.2

def elementsOf (m : Scores Member Score) : Finset (ScoredMemberCompact Score) :=
  (pairs m).image (elementOf hash)

/-- The tree and the maps have the same members and scores. -/
structure Consistent (z : ZSetBPlus Member Score) (m : Scores Member Score) : Prop where
  elements : Represents layout16 z.orderedSet (elementsOf hash m)
  scores : z.memberToScore.toFinmap = m
  members : ∀ h member, z.hashToMember.lookup h = some member ↔ member ∈ m ∧ hash member = h

variable {hash} {m : Scores Member Score} {z : ZSetBPlus Member Score}

theorem mem_pairs {p : Member × Score} : p ∈ pairs m ↔ m.lookup p.1 = some p.2 := by
  rw [pairs, Finset.mem_image]
  constructor
  · rintro ⟨member, hmember, rfl⟩
    obtain ⟨score, hscore⟩ := mem_iff.mp (mem_keys.mp hmember)
    rw [hscore]
    rfl
  · intro hlookup
    refine ⟨p.1, mem_keys.mpr (mem_of_lookup_eq_some hlookup), ?_⟩
    rw [hlookup]
    rfl

theorem mem_elementsOf {e : ScoredMemberCompact Score} : e ∈ elementsOf hash m ↔
    ∃ member, m.lookup member = some e.score ∧ hash member = e.memberHash := by
  rw [elementsOf, Finset.mem_image]
  constructor
  · rintro ⟨p, hp, rfl⟩
    exact ⟨p.1, mem_pairs.mp hp, rfl⟩
  · rintro ⟨member, hlookup, hhash⟩
    exact ⟨(member, e.score), mem_pairs.mpr hlookup, ScoredMemberCompact.ext rfl hhash⟩

theorem elementsOf_insert (hash : Member → UInt64) (m : Scores Member Score) (member : Member)
    (score : Score) : elementsOf hash (m.insert member score) =
      Insert.insert (makeElement hash member score) (elementsOf hash (m.erase member)) := by
  ext e
  rw [Finset.mem_insert, mem_elementsOf, mem_elementsOf]
  constructor
  · rintro ⟨other, hlookup, hhash⟩
    by_cases hother : other = member
    · rw [hother, lookup_insert] at hlookup
      rw [hother] at hhash
      exact .inl (ScoredMemberCompact.ext (Option.some.inj hlookup).symm hhash.symm)
    · rw [lookup_insert_of_ne _ hother] at hlookup
      exact .inr ⟨other, lookup_erase_eq_some_iff.mpr ⟨hother, hlookup⟩, hhash⟩
  · rintro (rfl | ⟨other, hlookup, hhash⟩)
    · exact ⟨member, lookup_insert m, rfl⟩
    · obtain ⟨hother, hlookup⟩ := lookup_erase_eq_some_iff.mp hlookup
      exact ⟨other, (lookup_insert_of_ne m hother).trans hlookup, hhash⟩

variable {member : Member} {score : Score}

theorem elementsOf_erase (hm : Fits hash m) (hscore : m.lookup member = some score) :
    elementsOf hash (m.erase member) =
      (elementsOf hash m).erase (makeElement hash member score) := by
  ext e
  rw [Finset.mem_erase, mem_elementsOf, mem_elementsOf]
  constructor
  · rintro ⟨other, hlookup, hhash⟩
    obtain ⟨hother, hlookup⟩ := lookup_erase_eq_some_iff.mp hlookup
    refine ⟨?_, other, hlookup, hhash⟩
    rintro rfl
    exact hother (hm.distinct other (mem_of_lookup_eq_some hlookup) member
      (mem_of_lookup_eq_some hscore) hhash)
  · rintro ⟨hne, other, hlookup, hhash⟩
    have hother : other ≠ member := by
      rintro rfl
      refine hne (ScoredMemberCompact.ext ?_ hhash.symm)
      exact Option.some.inj (hlookup.symm.trans hscore)
    exact ⟨other, lookup_erase_eq_some_iff.mpr ⟨hother, hlookup⟩, hhash⟩

theorem card_pairs (m : Scores Member Score) : (pairs m).card = m.keys.card :=
  Finset.card_image_of_injective _ fun _ _ h => congrArg Prod.fst h

theorem Fits.injOn (hm : Fits hash m) :
    Set.InjOn (elementOf hash) (pairs m : Set (Member × Score)) := by
  intro p hp q hq hpq
  have hmember := hm.distinct p.1 (mem_of_lookup_eq_some (mem_pairs.mp hp)) q.1
    (mem_of_lookup_eq_some (mem_pairs.mp hq)) (congrArg memberHash hpq)
  exact Prod.ext hmember (congrArg ScoredMemberCompact.score hpq)

theorem card_elementsOf (hm : Fits hash m) : (elementsOf hash m).card = m.keys.card :=
  (Finset.card_image_of_injOn hm.injOn).trans (card_pairs m)

theorem pathsFit {tree : BPTree (ScoredMemberCompact Score)}
    (htree : Represents layout16 tree (elementsOf hash m)) (hm : m.keys.card < 2 ^ 32) :
    PathsFit layout16 tree := by
  refine htree.pathsFit layout16_roomy ?_
  have hdepth := BPNodeLayout.depthLimit_gt (L := layout16) (by decide)
  have hcard : (elementsOf hash m).card ≤ m.keys.card :=
    Finset.card_image_le.trans_eq (card_pairs m)
  omega

theorem Consistent.treeFits (hz : Consistent hash z m) (hm : Fits hash m) :
    PathsFit layout16 z.orderedSet :=
  pathsFit hz.elements hm.count

theorem Consistent.lookup_eq (hz : Consistent hash z m) (member : Member) :
    z.memberToScore.lookup member = m.lookup member := by
  rw [← hz.scores]
  exact (lookup_toFinmap member z.memberToScore).symm

theorem consistent_empty : Consistent hash (empty : ZSetBPlus Member Score) ∅ := by
  refine ⟨represents_empty, rfl, fun h member => ?_⟩
  rw [empty, AList.lookup_empty]
  exact iff_of_false (by simp) fun h => notMem_empty h.1

theorem fits_empty : Fits hash (∅ : Scores Member Score) := by
  refine ⟨fun a ha => absurd ha notMem_empty, ?_⟩
  rw [keys_empty, Finset.card_empty]
  exact Nat.two_pow_pos 32

theorem Consistent.inserted (hz : Consistent hash z m) (hm' : Fits hash (m.insert member score))
    {tree : BPTree (ScoredMemberCompact Score)}
    (htree : Represents layout16 tree (elementsOf hash (m.insert member score))) :
    Consistent hash ⟨tree, z.memberToScore.insert member score,
      z.hashToMember.insert (hash member) member⟩ (m.insert member score) := by
  refine ⟨htree, ?_, fun h other => ?_⟩
  · rw [← hz.scores]
    exact (insert_toFinmap member score z.memberToScore).symm
  · by_cases hh : h = hash member
    · rw [hh, AList.lookup_insert, Option.some.injEq]
      constructor
      · rintro rfl
        exact ⟨mem_insert.mpr (.inl rfl), rfl⟩
      · intro hother
        exact (hm'.distinct other hother.1 member (mem_insert.mpr (.inl rfl)) hother.2).symm
    · rw [AList.lookup_insert_ne hh, hz.members, mem_insert]
      refine and_congr_left fun hhash => ?_
      rw [or_iff_right]
      rintro rfl
      exact hh hhash.symm

section

variable (hz : Consistent hash z m) (hm : Fits hash m)
include hz hm

theorem Consistent.add (hm' : Fits hash (m.insert member score)) :
    ∃ z', z.add hash member score = some (decide (member ∉ m), z') ∧
      Consistent hash z' (m.insert member score) := by
  rw [ZSetBPlus.add, hz.lookup_eq]
  cases hlookup : m.lookup member with
  | none =>
    have hnew := lookup_eq_none.mp hlookup
    obtain ⟨tree, hinsert, htree⟩ := insert_spec isThreeWay_keyCompareTo layout16_roomy hz.elements
      (hz.treeFits hm) (makeElement hash member score)
    have helements := elementsOf_insert hash m member score
    rw [erase_of_notMem hnew] at helements
    rw [← helements] at htree
    refine ⟨_, ?_, hz.inserted hm' htree⟩
    simp only [hinsert, decide_eq_true hnew]
    rfl
  | some oldScore =>
    have hold := mem_of_lookup_eq_some hlookup
    rw [decide_eq_false (not_not.mpr hold)]
    by_cases hscore : oldScore = score
    · rw [← hscore, insert_of_lookup hlookup]
      exact ⟨z, if_neg (not_not.mpr rfl), hz⟩
    · obtain ⟨tree, hdelete, htree⟩ := delete_spec isThreeWay_keyCompareTo layout16_roomy
        hz.elements (hz.treeFits hm) (makeElement hash member oldScore)
      rw [← elementsOf_erase hm hlookup] at htree
      have hcount : (m.erase member).keys.card < 2 ^ 32 := by
        rw [keys_erase]
        exact (Finset.card_erase_le).trans_lt hm.count
      obtain ⟨tree', hinsert, htree'⟩ := insert_spec isThreeWay_keyCompareTo layout16_roomy
        htree (pathsFit htree hcount) (makeElement hash member score)
      rw [← elementsOf_insert] at htree'
      refine ⟨_, (if_pos hscore).trans ?_, hz.inserted hm' htree'⟩
      rw [hdelete]
      simp only [bind_eq_bind, bind_some, hinsert]

theorem Consistent.remove (member : Member) :
    ∃ z', z.remove hash member = some (decide (member ∈ m), z') ∧
      Consistent hash z' (m.erase member) := by
  rw [ZSetBPlus.remove, hz.lookup_eq]
  cases hlookup : m.lookup member with
  | none =>
    have hnew := lookup_eq_none.mp hlookup
    rw [decide_eq_false hnew, erase_of_notMem hnew]
    exact ⟨z, rfl, hz⟩
  | some score =>
    have hold := mem_of_lookup_eq_some hlookup
    rw [decide_eq_true hold]
    obtain ⟨tree, hdelete, htree⟩ := delete_spec isThreeWay_keyCompareTo layout16_roomy
      hz.elements (hz.treeFits hm) (makeElement hash member score)
    rw [← elementsOf_erase hm hlookup] at htree
    refine ⟨⟨tree, z.memberToScore.erase member, z.hashToMember.erase (hash member)⟩, ?_, htree,
      ?_, fun h other => ?_⟩
    · simp only [hdelete]
      rfl
    · rw [← hz.scores]
      exact (erase_toFinmap member z.memberToScore).symm
    · by_cases hh : h = hash member
      · rw [hh, AList.lookup_erase, mem_erase]
        refine iff_of_false (by simp) fun hother => ?_
        exact hother.1.1 (hm.distinct other hother.1.2 member hold hother.2)
      · rw [AList.lookup_erase_ne hh, hz.members, mem_erase]
        refine and_congr_left fun hhash => ?_
        rw [and_iff_right]
        rintro rfl
        exact hh hhash.symm

theorem Consistent.clear :
    ∃ z', z.clear = some z' ∧ Consistent hash z' ∅ := by
  obtain ⟨tree, hclear, htree⟩ :=
    clear_spec hz.elements (hz.treeFits hm)
  refine ⟨⟨tree, ∅, ∅⟩, ?_, htree, rfl, consistent_empty.members⟩
  rw [ZSetBPlus.clear, hclear]
  rfl

theorem Consistent.step {op : Op Member Score}
    (hm' : Fits hash (op.apply m).2) : ∃ z', z.step hash op = some ((op.apply m).1, z') ∧
      Consistent hash z' (op.apply m).2 := by
  cases op with
  | add member score =>
    obtain ⟨z', hadd, hz'⟩ := hz.add hm hm'
    exact ⟨z', by rw [ZSetBPlus.step, hadd]; rfl, hz'⟩
  | remove member =>
    obtain ⟨z', hremove, hz'⟩ := hz.remove hm member
    exact ⟨z', by rw [ZSetBPlus.step, hremove]; rfl, hz'⟩
  | clear =>
    obtain ⟨z', hclear, hz'⟩ := hz.clear hm
    exact ⟨z', by rw [ZSetBPlus.step, hclear]; rfl, hz'⟩

end

/-- After each of the calls, the members that there are then fit. -/
def FitsAlong (hash : Member → UInt64) (m : Scores Member Score) (ops : List (Op Member Score)) :
    Prop :=
  Runs.Along (fun m op => (op.apply m).2) (fun m op => Fits hash (op.apply m).2) m ops

instance (m : Scores Member Score) (ops : List (Op Member Score)) :
    Decidable (FitsAlong hash m ops) := Runs.decidableAlong _ _ _ _

theorem Consistent.run {ops : List (Op Member Score)} (hz : Consistent hash z m) (hm : Fits hash m)
    (hops : FitsAlong hash m ops) :
    ∃ z', z.run hash ops = some ((Runs.results Op.apply m ops).1, z') ∧
      Consistent hash z' (Runs.results Op.apply m ops).2 ∧
      Fits hash (Runs.results Op.apply m ops).2 := by
  induction ops generalizing z m with
  | nil => exact ⟨z, rfl, hz, hm⟩
  | cons op ops ih =>
    obtain ⟨z₁, hstep, hz₁⟩ := hz.step hm hops.1
    obtain ⟨z₂, hrun, hz₂, hm₂⟩ := ih hz₁ hops.1 hops.2
    refine ⟨z₂, ?_, hz₂, hm₂⟩
    rw [ZSetBPlus.run, hstep]
    simp only [bind_eq_bind, bind_some, hrun]
    rfl

/-! ### Ranks -/

theorem Consistent.size_eq (hz : Consistent hash z m) (hm : Fits hash m) :
    z.size = m.keys.card := by
  have hcard := card_elementsOf hm
  exact (hz.elements.size_eq (hcard ▸ hm.count)).trans hcard

theorem Consistent.getRank (hz : Consistent hash z m) (hm : Fits hash m) (member : Member)
    (reverse : Bool) :
    ∃ rank, z.getRank hash member reverse = some rank ∧ (rank.isSome ↔ member ∈ m) := by
  rw [ZSetBPlus.getRank, hz.lookup_eq]
  cases hlookup : m.lookup member with
  | none => exact ⟨none, rfl, by simpa using lookup_eq_none.mp hlookup⟩
  | some score =>
    have hmem : makeElement hash member score ∈ elementsOf hash m :=
      mem_elementsOf.mpr ⟨member, hlookup, rfl⟩
    simp only [getRank_spec isThreeWay_keyCompareTo layout16_roomy hz.elements
      (hz.treeFits hm), if_pos hmem]
    exact ⟨_, rfl, iff_of_true rfl (mem_of_lookup_eq_some hlookup)⟩

theorem exists_map_eq {α β : Type} {f : α → β} {p : α → Prop} {ys : List β}
    (h : ∀ y ∈ ys, ∃ x, p x ∧ f x = y) : ∃ xs : List α, xs.map f = ys ∧ ∀ x ∈ xs, p x := by
  induction ys with
  | nil => exact ⟨[], rfl, by simp⟩
  | cons y ys ih =>
    obtain ⟨x, hx, rfl⟩ := h y List.mem_cons_self
    obtain ⟨xs, rfl, hxs⟩ := ih fun y hy => h y (List.mem_cons_of_mem _ hy)
    exact ⟨x :: xs, rfl, List.forall_mem_cons.mpr ⟨hx, hxs⟩⟩

/-- The members with their scores, in order of their keys. -/
def SortedBy {K : Type} [LinearOrder K] (key : Member × Score → K) (m : Scores Member Score)
    (l : List (Member × Score)) : Prop :=
  l.Pairwise (fun p q => key p < key q) ∧ ∀ p, p ∈ l ↔ m.lookup p.1 = some p.2

variable {l : List (Member × Score)}

section SortedBy

variable {K : Type} [LinearOrder K] {key : Member × Score → K}

theorem SortedBy.sort_eq (hl : SortedBy key m l) : ((pairs m).image key).sort = l.map key := by
  refine Finset.sort_eq_of_mem_iff (List.pairwise_map.mpr hl.1) fun x => ?_
  rw [List.mem_map, Finset.mem_image]
  refine exists_congr fun p => and_congr_left fun _ => ?_
  rw [hl.2, mem_pairs]

theorem exists_sortedBy (hkey : Set.InjOn key (pairs m : Set (Member × Score))) :
    ∃ l, SortedBy key m l := by
  have hpair : ∀ x ∈ ((pairs m).image key).sort, ∃ p, p ∈ pairs m ∧ key p = x := by
    intro x hx
    rwa [Finset.mem_sort, Finset.mem_image] at hx
  obtain ⟨l, hmap, hl⟩ := exists_map_eq hpair
  have hsorted := ((pairs m).image key).sortedLT_sort.pairwise
  rw [← hmap, List.pairwise_map] at hsorted
  refine ⟨l, hsorted, fun p => ⟨fun hp => mem_pairs.mp (hl p hp), fun hp => ?_⟩⟩
  -- the key is that of one in the list, which is the same pair
  have hx : key p ∈ ((pairs m).image key).sort :=
    (Finset.mem_sort _).mpr (Finset.mem_image_of_mem key (mem_pairs.mpr hp))
  rw [← hmap, List.mem_map] at hx
  obtain ⟨q, hq, heq⟩ := hx
  rw [← hkey (hl q hq) (mem_pairs.mpr hp) heq]
  exact hq

theorem SortedBy.nodup (hl : SortedBy key m l) : (l.map Prod.fst).Nodup := by
  refine List.Nodup.map_on ?_ (hl.1.imp fun h heq => ?_)
  · intro p hp q hq hpq
    have hscore := (hl.2 p).mp hp
    rw [hpq, (hl.2 q).mp hq] at hscore
    exact Prod.ext hpq (Option.some.inj hscore).symm
  · rw [heq] at h
    exact lt_irrefl _ h

theorem SortedBy.mem_map_fst (hl : SortedBy key m l) (member : Member) :
    member ∈ l.map Prod.fst ↔ member ∈ m := by
  rw [List.mem_map, mem_iff]
  constructor
  · rintro ⟨p, hp, rfl⟩
    exact ⟨p.2, (hl.2 p).mp hp⟩
  · rintro ⟨score, hlookup⟩
    exact ⟨(member, score), (hl.2 (member, score)).mpr hlookup, rfl⟩

theorem SortedBy.length_eq (hl : SortedBy key m l) : l.length = m.keys.card := by
  have hkeys : (l.map Prod.fst).toFinset = m.keys := by
    ext member
    rw [List.mem_toFinset, hl.mem_map_fst, mem_keys]
  rw [← hkeys, List.toFinset_card_of_nodup hl.nodup, List.length_map]

end SortedBy

/-- The scores are left out if nobody has asked for them. -/
def reply (withScores : Bool) (p : Member × Score) : Member × Score :=
  (p.1, if withScores then p.2 else 0)

/-- The members in the order that is asked for. -/
def directed (reverse : Bool) (l : List (Member × Score)) : List (Member × Score) :=
  if reverse then l.reverse else l

theorem length_directed (reverse : Bool) (l : List (Member × Score)) :
    (directed reverse l).length = l.length := by
  cases reverse
  · rfl
  · exact List.length_reverse

section

variable (hz : Consistent hash z m) (hm : Fits hash m)
include hz hm

section

variable (hl : SortedBy (elementOf hash) m l)
include hl

theorem Consistent.size_eq_length : z.orderedSet.size = l.length :=
  (hz.size_eq hm).trans hl.length_eq.symm

theorem Consistent.atRank_eq (reverse withScores : Bool) {i : ℕ} {p : Member × Score}
    (hp : (directed reverse l)[i]? = some p) :
    z.atRank reverse withScores i = some [reply withScores p] := by
  have hcard := card_elementsOf hm
  have hsize := hz.size_eq_length hm hl
  have hcount := hm.count
  have hlength := hl.length_eq
  obtain ⟨hi, -⟩ := List.getElem?_eq_some_iff.mp hp
  rw [length_directed] at hi
  have hrank : (UInt32.ofNat (if reverse then z.orderedSet.size - 1 - i else i)).toNat =
      if reverse then l.length - 1 - i else i := by
    rw [hsize, UInt32.toNat_ofNat', Nat.mod_eq_of_lt]
    split <;> omega
  have hget : l[if reverse then l.length - 1 - i else i]? = some p := by
    cases reverse with
    | false => exact hp
    | true => exact (List.getElem?_reverse hi).symm.trans hp
  obtain ⟨path, hpath, hne, hterminal⟩ := hz.elements.fromRank_terminal layout16_roomy
    (hz.treeFits hm) (hcard ▸ hm.count) (by
      rw [hrank, elementsOf, hl.sort_eq, List.getElem?_map, hget]
      rfl)
  have hmember : z.findMemberByHash (hash p.1) = some p.1 :=
    (hz.members _ _).mpr
      ⟨mem_of_lookup_eq_some ((hl.2 p).mp (List.mem_of_getElem? hget)), rfl⟩
  rw [atRank, hpath]
  simp only [bind_eq_bind, bind_some]
  rw [if_neg (by simpa using hne), hterminal]
  simp only [bind_some, elementOf, makeElement, hmember]
  rfl

theorem Consistent.getRangeByRank_eq (start stop : UInt64) (reverse withScores : Bool) :
    z.getRangeByRank start stop reverse withScores =
      some ((((directed reverse l).take (stop.toNat + 1)).drop start.toNat).map
        (reply withScores)) := by
  have hsize := hz.size_eq_length hm hl
  have hlength := length_directed reverse l
  rw [getRangeByRank, hsize]
  dsimp only
  split
  · next hstart =>
    rw [List.drop_of_length_le (by rw [List.length_take]; omega)]
    rfl
  · next hstart =>
    have htake : (directed reverse l).take (stop.toNat + 1) =
        (directed reverse l).take (min stop.toNat (l.length - 1) + 1) := by
      rcases Nat.le_total stop.toNat (l.length - 1) with h | h
      · rw [Nat.min_eq_left h]
      · rw [Nat.min_eq_right h, List.take_of_length_le (by omega),
          List.take_of_length_le (by omega)]
    rw [htake]
    rcases Nat.lt_or_ge (min stop.toNat (l.length - 1) + 1) start.toNat with hempty | hle
    · rw [Loops.forUp_of_le hempty.le, List.drop_of_length_le (by rw [List.length_take]; omega)]
      rfl
    · refine Loops.forUp_induct (P := fun i result => result =
        some ((((directed reverse l).take i).drop start.toNat).map (reply withScores))) hle ?_ ?_
      · rw [List.drop_take_self]
        rfl
      · rintro i _ hi hlt rfl
        have hp := List.getElem?_eq_getElem (l := directed reverse l) (i := i) (by omega)
        rw [hz.atRank_eq hm hl reverse withScores hp]
        simp only [bind_eq_bind, bind_some]
        rw [Slices.drop_take_add_one _ hi (by omega), hp, List.map_append]
        rfl

end

theorem Consistent.getRangeByRank_all {stop : UInt64}
    (hstop : m.keys.card ≤ stop.toNat + 1) (reverse withScores : Bool) :
    ∃ l, z.getRangeByRank 0 stop reverse withScores = some l ∧ (l.map Prod.fst).Nodup ∧
      ∀ member, member ∈ l.map Prod.fst ↔ member ∈ m := by
  obtain ⟨l, hl⟩ := exists_sortedBy hm.injOn
  have hlength := hl.length_eq
  have hfst : ((directed reverse l).map (reply withScores)).map Prod.fst =
      (directed reverse l).map Prod.fst := List.map_map
  refine ⟨(directed reverse l).map (reply withScores), ?_, ?_, fun member => ?_⟩
  · rw [hz.getRangeByRank_eq hm hl, List.take_of_length_le (by rw [length_directed]; omega)]
    rfl
  · rw [hfst]
    cases reverse with
    | false => exact hl.nodup
    | true => rw [directed, if_pos rfl, List.map_reverse]; exact List.nodup_reverse.mpr hl.nodup
  · rw [hfst, ← hl.mem_map_fst]
    cases reverse with
    | false => rfl
    | true => rw [directed, if_pos rfl, List.map_reverse, List.mem_reverse]

end

/-- As long as no two members with the same hash are in the set at once, the calls return what they
should, the tree and both maps are about the same members, all of which have a rank and are found
by their ranks. -/
theorem run_consistent (hash : Member → UInt64) (ops : List (Op Member Score))
    (hops : FitsAlong hash ∅ ops) :
    ∃ z, empty.run hash ops = some ((Runs.results Op.apply ∅ ops).1, z) ∧
      let m := (Runs.results Op.apply ∅ ops).2
      Consistent hash z m ∧ z.size = m.keys.card ∧
        (∀ member reverse, ∃ rank, z.getRank hash member reverse = some rank ∧
          (rank.isSome ↔ member ∈ m)) ∧
        ∀ stop reverse withScores, m.keys.card ≤ stop.toNat + 1 →
          ∃ l, z.getRangeByRank 0 stop reverse withScores = some l ∧ (l.map Prod.fst).Nodup ∧
            ∀ member, member ∈ l.map Prod.fst ↔ member ∈ m := by
  obtain ⟨z, hrun, hz, hm⟩ := consistent_empty.run fits_empty hops
  exact ⟨z, hrun, hz, hz.size_eq hm, hz.getRank hm,
    fun stop reverse withScores hstop => hz.getRangeByRank_all hm hstop reverse withScores⟩

theorem run_consistent_two : ∃ z : ZSetBPlus ℕ ℤ,
    empty.run UInt64.ofNat [.add 3 5, .add 4 5, .add 3 6, .remove 4] =
      some ([some true, some true, some false, some true], z) ∧ z.size = 1 := by
  obtain ⟨z, hrun, -, hsize, -⟩ := run_consistent UInt64.ofNat
    [.add 3 (5 : ℤ), .add 4 5, .add 3 6, .remove 4] (by decide)
  exact ⟨z, hrun, hsize⟩

/-- If two members have the same hash and score, then the tree has only one element, and the first
member is not found by its rank. -/
theorem run_collision : ∃ z : ZSetBPlus ℕ ℤ,
    empty.run (fun _ => 0) [.add 3 5, .add 4 5] = some ([some true, some true], z) ∧
      (Runs.results Op.apply (∅ : Scores ℕ ℤ) [.add 3 5, .add 4 5]).2.keys.card = 2 ∧
      z.size = 1 ∧ z.getRangeByRank 0 1 false true = some [(4, 5)] :=
  ⟨_, rfl, by decide, rfl, rfl⟩

end ZSetBPlus
