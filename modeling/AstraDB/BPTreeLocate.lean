/-
Searching in a B+tree.

A query is a three-way comparison `c` with the keys: positive on the keys below it,
zero on at most one key, negative on the keys above.

* `bSearch_spec` — the binary search in one node;
* `locate_spec` — `Locate` ends on the key that matches, or at the place in a leaf
  where it would have to be.
-/
import AstraDB.BPTree
import AstraDB.BPTreeWalk

open BPTreeNode BPTreePath List

set_option linter.unusedSectionVars false

variable {K : Type} [Inhabited K] {L : BPNodeLayout}

/-- A comparison of a query with keys: once it is not positive, it is negative on all
greater keys. -/
def IsQuery [Preorder K] (c : K → ℤ) : Prop := ∀ a b, a < b → c a ≤ 0 → c b < 0

theorem IsQuery.pos_of_lt [Preorder K] {c : K → ℤ} (hc : IsQuery c) {a b : K} (hab : a < b)
    (hb : 0 ≤ c b) : 0 < c a := by
  by_contra h
  have := hc a b hab (by omega)
  omega

theorem IsQuery.below_of_append [Preorder K] {c : K → ℤ} {l l' : List K} {x : K} (hc : IsQuery c)
    (hs : (l ++ x :: l').Pairwise (· < ·)) (hx : 0 ≤ c x) : ∀ y ∈ l, 0 < c y := fun y hy =>
  hc.pos_of_lt ((pairwise_append.mp hs).2.2 y hy x (mem_cons_self ..)) hx

theorem IsQuery.above_of_append [Preorder K] {c : K → ℤ} {l l' : List K} {x : K} (hc : IsQuery c)
    (hs : (l ++ x :: l').Pairwise (· < ·)) (hx : c x ≤ 0) : ∀ y ∈ l', c y < 0 := fun y hy =>
  hc x y ((pairwise_cons.mp (pairwise_append.mp hs).2.1).1 y hy) hx

namespace BPTreeNode

/-- What a search in a node has found out when it stops. -/
structure SearchOk (n : BPTreeNode K) (c : K → ℤ) (res : SearchResult) : Prop where
  index_le : res.index ≤ n.numItems
  below : ∀ i < res.index, 0 < c (n.key i)
  hit : res.found = true → res.index < n.numItems ∧ c (n.key res.index) = 0
  miss : res.found = false → ∀ i, res.index ≤ i → i < n.numItems → c (n.key i) < 0

theorem bSearchLoop_spec {n : BPTreeNode K} {c : K → ℤ}
    (hc : ∀ i j, i < j → j < n.numItems → c (n.key i) ≤ 0 → c (n.key j) < 0) :
    ∀ {fuel lo hi : ℕ}, hi - lo ≤ fuel → lo ≤ hi → hi ≤ n.numItems →
      (∀ i < lo, 0 < c (n.key i)) → (∀ i, hi ≤ i → i < n.numItems → c (n.key i) < 0) →
      SearchOk n c (bSearchLoop n c fuel lo hi) := by
  intro fuel
  induction fuel with
  | zero =>
    intro lo hi hf hle hhi hlo hhi'
    obtain rfl : lo = hi := by omega
    exact ⟨hhi, hlo, fun h => by simp [bSearchLoop] at h, fun _ => hhi'⟩
  | succ fuel ih =>
    intro lo hi hf hle hhi hlo hhi'
    rw [bSearchLoop]
    split
    · simp only
      set mid := (lo + hi) / 2 with hmid
      -- a key below one that is not too great is too small
      have hbelow : ∀ i < mid, 0 ≤ c (n.key mid) → 0 < c (n.key i) := by
        intro i hi0 h0
        by_contra hneg
        have := hc i mid hi0 (by omega) (by omega)
        omega
      split
      · next heq =>
        exact ⟨by show mid ≤ _; omega, fun i hi0 => hbelow i hi0 heq.ge,
          fun _ => ⟨by show mid < _; omega, heq⟩, fun h => by simp at h⟩
      · -- the half that is left keeps both bounds
        split
        · next hneg =>
          refine ih (by omega) (by omega) (by omega) hlo fun i hi0 hi1 => ?_
          rcases Nat.eq_or_lt_of_le hi0 with rfl | hlt'
          · exact hneg
          · exact hc mid i hlt' hi1 hneg.le
        · refine ih (by omega) (by omega) hhi (fun i hi0 => ?_) hhi'
          rcases Nat.eq_or_lt_of_le (show i ≤ mid by omega) with rfl | hlt'
          · omega
          · exact hbelow i hlt' (by omega)
    · obtain rfl : lo = hi := by omega
      exact ⟨hhi, hlo, fun h => by simp at h, fun _ => hhi'⟩

theorem bSearch_spec {n : BPTreeNode K} {c : K → ℤ} (h1 : 1 ≤ n.numItems)
    (hc : ∀ i j, i < j → j < n.numItems → c (n.key i) ≤ 0 → c (n.key j) < 0) :
    ∃ res, n.bSearch c = some res ∧ SearchOk n c res := by
  have hbelow : 0 ≤ c (n.key (n.numItems - 1)) → ∀ i < n.numItems - 1, 0 < c (n.key i) := by
    intro h0 i hi
    by_contra hneg
    have := hc i (n.numItems - 1) hi (by omega) (by omega)
    omega
  unfold bSearch
  simp only
  rw [if_neg (by omega)]
  -- the last key is too small, or the one looked for, or the loop is entered
  split
  · next hlast =>
    split
    · next hpos =>
      refine ⟨_, rfl, le_rfl, fun i hi => ?_, fun h => by simp at h, fun _ i hi hi' => ?_⟩
      · have hi0 : i < n.numItems := hi
        rcases Nat.eq_or_lt_of_le (show i ≤ n.numItems - 1 by omega) with rfl | hlt
        · exact hpos
        · exact hbelow hlast i hlt
      · have hi0 : n.numItems ≤ i := hi
        omega
    · refine ⟨_, rfl, by show n.numItems - 1 ≤ _; omega, hbelow hlast,
        fun _ => ⟨by show n.numItems - 1 < _; omega, by show c (n.key (n.numItems - 1)) = 0; omega⟩,
        fun h => by simp at h⟩
  · refine ⟨_, rfl, bSearchLoop_spec hc (by omega) (by omega) (by omega)
      (fun i hi => absurd hi (by omega)) fun i hi hi' => ?_⟩
    rw [show i = n.numItems - 1 by omega]
    omega

theorem key_lt_of_sorted [Preorder K] {n : BPTreeNode K} (hs : (inorder n).Pairwise (· < ·)) :
    ∀ i j, i < j → j < n.numItems → n.key i < n.key j := by
  intro i j hij hj
  have hmem : n.key i ∈ n.upTo j := by
    obtain ⟨m, rfl⟩ := Nat.exists_eq_add_of_lt hij
    have := interleave_split n.key n.sub i m 0
    rw [Nat.zero_add, show i + 1 + m = i + m + 1 by omega] at this
    rw [upTo, this]
    simp
  rw [inorder_cut hj.le, after_eq_cons hj] at hs
  exact (pairwise_append.mp hs).2.2 _ hmem _ (mem_cons_self ..)

section Sorted

variable [Preorder K] {n : BPTreeNode K} {c : K → ℤ} {res : SearchResult}

section

variable (hok : SearchOk n c res) (hc : IsQuery c) (hs : (inorder n).Pairwise (· < ·))
include hok hc hs

theorem SearchOk.before_pos : ∀ x ∈ n.before res.index, 0 < c x := by
  intro x hx
  have hle := hok.index_le
  cases hi : res.index with
  | zero =>
    rw [hi, before_zero] at hx
    cases hx
  | succ i =>
    have hki : 0 < c (n.key i) := hok.below i (by omega)
    rw [hi, before_succ] at hx
    rcases mem_append.mp hx with hx | hx
    · rw [inorder_cut (show i ≤ n.numItems by omega), after_eq_cons (by omega)] at hs
      exact hc.below_of_append hs hki.le x hx
    · rw [mem_singleton.mp hx]
      exact hki

theorem SearchOk.after_neg (hf : res.found = false) :
    ∀ x ∈ n.after res.index, c x < 0 := by
  intro x hx
  by_cases hlt : res.index < n.numItems
  · have hneg := hok.miss hf res.index le_rfl hlt
    rw [inorder_cut hok.index_le, after_eq_cons hlt] at hs
    rw [after_eq_cons hlt] at hx
    rcases mem_cons.mp hx with rfl | hx
    · exact hneg
    · exact hc.above_of_append hs hneg.le x hx
  · rw [show res.index = n.numItems by have := hok.index_le; omega, after_numItems] at hx
    cases hx

end

end Sorted

end BPTreeNode

namespace BPTree

/-! ### The descent -/

/-- What `Locate` has found out when it stops. -/
structure Located (root : BPTreeNode K) (top : ℕ) (c : K → ℤ) (found : Bool) (p : BPTreePath K) :
    Prop where
  place : Place root top p
  below : ∀ x ∈ left p, 0 < c x
  hit : found = true → OnKey root top p ∧ ∃ x ys, right p = x :: ys ∧ c x = 0
  miss : found = false → (∀ x ∈ right p, c x < 0) ∧
    ∃ leaf pos above, p = ⟨leaf, pos⟩ :: above ∧ Below root top 0 above leaf

section Locate

variable [Preorder K] {root : BPTreeNode K} {top : ℕ} {c : K → ℤ}

variable {h : ℕ} {n : BPTreeNode K} {path : BPTreePath K}

section

variable (hL : L.Roomy) (hroot : Rooted L top root)
include hL hroot

theorem sorted_of_below (hs : (inorder root).Pairwise (· < ·)) (hb : Below root top h path n) :
    (inorder n).Pairwise (· < ·) := by
  rw [← (hb.standing hL hroot).keys] at hs
  exact (pairwise_append.mp (pairwise_append.mp hs).2.1).1

section

variable (hs : (inorder root).Pairwise (· < ·)) (hc : IsQuery c) (hb : Below root top h path n)
include hs hc hb

theorem bSearch_below :
    ∃ res, n.bSearch c = some res ∧ SearchOk n c res :=
  bSearch_spec (hb.standing hL hroot).pos fun i j hij hj =>
    hc _ _ (key_lt_of_sorted (sorted_of_below hL hroot hs hb) i j hij hj)

theorem located_of_search (hpre : ∀ x ∈ pre path, 0 < c x) (hpost : ∀ x ∈ post path, c x < 0)
    {res : SearchResult} (hok : SearchOk n c res) (hend : res.found = false → h = 0) :
    Located root top c res.found (⟨n, res.index⟩ :: path) := by
  have hst := hb.standing hL hroot
  have hplace : Place root top (⟨n, res.index⟩ :: path) := ⟨⟨h, hb⟩, hok.index_le⟩
  have hsn := sorted_of_below hL hroot hs hb
  cases hf : res.found with
  | true =>
    obtain ⟨hlt, hzero⟩ := hok.hit hf
    have hright : right (⟨n, res.index⟩ :: path) = n.key res.index
        :: ((n.sub (res.index + 1) ++ n.after (res.index + 1)) ++ post path) := by
      rw [right, after_eq_cons hlt]
      rfl
    refine ⟨hplace, ?_, fun _ => ⟨⟨⟨h, hb⟩, hlt⟩, _, _, hright, hzero⟩, fun h0 => (by cases h0)⟩
    rw [← hplace.left_append_right hL hroot, hright] at hs
    exact hc.below_of_append hs hzero.ge
  | false =>
    obtain rfl := hend hf
    refine ⟨hplace, fun x hx => ?_, fun h0 => (by cases h0),
      fun _ => ⟨fun x hx => ?_, n, res.index, path, rfl, hb⟩⟩
    · rw [left, upTo_eq, sub_of_leaf hst.shaped.1, append_nil] at hx
      rcases mem_append.mp hx with hx | hx
      · exact hpre x hx
      · exact hok.before_pos hc hsn x hx
    · rw [right] at hx
      rcases mem_append.mp hx with hx | hx
      · exact hok.after_neg hc hsn hf x hx
      · exact hpost x hx

end

theorem locateLoop_spec (htop : top < kMaxDepth)
    (hs : (inorder root).Pairwise (· < ·)) (hc : IsQuery c) :
    ∀ {h : ℕ} {n : BPTreeNode K} {path : BPTreePath K}, Below root top h path n →
      (∀ x ∈ pre path, 0 < c x) → (∀ x ∈ post path, c x < 0) →
      ∃ found p, locateLoop c n path = some (found, p) ∧ Located root top c found p := by
  intro h
  induction h with
  | zero =>
    intro n path hb hpre hpost
    have hst := hb.standing hL hroot
    obtain ⟨res, hres, hok⟩ := bSearch_below hL hroot hs hc hb
    refine ⟨res.found, ⟨n, res.index⟩ :: path, ?_,
      located_of_search hL hroot hs hc hb hpre hpost hok fun _ => rfl⟩
    have hleaf := hst.shaped.1
    obtain ⟨leaf, m, k, t, ch, rfl⟩ := hst.shaped.exists_mk
    obtain rfl : leaf = true := hleaf
    rw [locateLoop, hres]
    simp only [Option.bind_eq_bind, Option.bind_some]
    rw [push_eq (hb.depth_lt hL hroot htop)]
    cases res.found <;> rfl
  | succ h ih =>
    intro n path hb hpre hpost
    have hst := hb.standing hL hroot
    have hsn := sorted_of_below hL hroot hs hb
    obtain ⟨res, hres, hok⟩ := bSearch_below hL hroot hs hc hb
    have hleaf := hst.shaped.2.1
    obtain ⟨leaf, m, k, t, ch, rfl⟩ := hst.shaped.exists_mk
    obtain rfl : leaf = false := hleaf
    rw [locateLoop, hres]
    simp only [Option.bind_eq_bind, Option.bind_some]
    rw [push_eq (hb.depth_lt hL hroot htop)]
    cases hf : res.found with
    | true =>
      refine ⟨true, _, rfl, ?_⟩
      rw [← hf]
      exact located_of_search hL hroot hs hc hb hpre hpost hok fun h0 => by rw [hf] at h0; cases h0
    | false =>
      -- everything off the child searched next is on the right side of the query
      have hbelow : Below root top h (⟨.mk false m k t ch, res.index⟩ :: path) (ch res.index) :=
        ⟨rfl, rfl, hok.index_le, hb⟩
      refine ih hbelow (fun x hx => ?_) (fun x hx => ?_)
      · rcases mem_append.mp hx with hx | hx
        · exact hpre x hx
        · exact hok.before_pos hc hsn x hx
      · rcases mem_append.mp hx with hx | hx
        · exact hok.after_neg hc hsn hf x hx
        · exact hpost x hx

end

theorem locate_spec {t : BPTree K} (hL : L.Roomy) (hroot : Rooted L top t.root)
    (htop : top < kMaxDepth) (hs : (inorder t.root).Pairwise (· < ·)) (hc : IsQuery c) :
    ∃ found p, t.locate c = some (found, p) ∧ Located t.root top c found p :=
  locateLoop_spec hL hroot htop hs hc (h := top) ⟨rfl, rfl⟩ (fun _ h => by cases h)
    fun _ h => by cases h

end Locate

end BPTree
