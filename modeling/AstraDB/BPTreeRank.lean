/-
Ranks of keys, and keys of ranks.

`GetRank` adds up the counts left of a path, and `ToRank` goes down by the counts.
Both work with the `uint32_t` counts of the nodes.

* `getRank_of_run` — `GetRank` and `FromRank`, for every tree that a run from the empty tree reaches.
-/
import AstraDB.BPTreeSet

open List Nat

set_option linter.unusedSectionVars false

open BPTreeNode BPTreePath

namespace BPTree

variable {K : Type} [Inhabited K] {L : BPNodeLayout}

/-! ### Down by the counts -/

section Descent

variable {root : BPTreeNode K} {top : ℕ}

theorem upTo_length_of_leaf {n : BPTreeNode K} (hn : n.isLeaf = true) (i : ℕ) :
    (n.upTo i).length = i := by
  rw [upTo, sub_of_leaf hn, interleave_nils, length_map, length_range]

theorem toRankLast_spec (hL : L.Roomy) (hroot : Rooted L top root) (htop : top < kMaxDepth) :
    ∀ {h : ℕ} {n : BPTreeNode K} {path : BPTreePath K}, Below root top h path n →
      ∃ p, toRankLast n path = some p ∧ OnKey root top p ∧
        (left p).length + 1 = (pre path).length + (inorder n).length := by
  intro h
  induction h with
  | zero =>
    intro n path hb
    have hst := hb.standing hL hroot
    have h1 := hst.pos
    have hleaf := hst.shaped.1
    have hlt : n.numItems - 1 < n.numItems := by omega
    refine ⟨⟨n, n.numItems - 1⟩ :: path, ?_, ⟨⟨0, hb⟩, hlt⟩, ?_⟩
    · obtain ⟨leaf, m, k, t, c, rfl⟩ := hst.shaped.exists_mk
      obtain rfl : leaf = true := hleaf
      rw [toRankLast, if_pos rfl, push_eq (hb.depth_lt hL hroot htop)]
      rfl
    · rw [left, length_append, upTo_length_of_leaf hleaf, length_inorder_of_leaf hleaf]
      dsimp only
      omega
  | succ h ih =>
    intro n path hb
    have hst := hb.standing hL hroot
    have hleaf := hst.shaped.2.1
    obtain ⟨p, hp, hon, hlen⟩ := ih (hb.child hL hroot le_rfl)
    refine ⟨p, ?_, hon, ?_⟩
    · obtain ⟨leaf, m, k, t, c, rfl⟩ := hst.shaped.exists_mk
      obtain rfl : leaf = false := hleaf
      rw [toRankLast, if_neg (by simp), push_eq (hb.depth_lt hL hroot htop)]
      exact hp
    · rw [hlen, inorder_focus hleaf le_rfl, after_numItems, pre]
      simp only [length_append, length_nil]
      omega

/-- The scan over the children of an inner node: `ρ` keys after the start of child `i`
is in child `j`, or at the key after it. -/
theorem scanChildren_spec {h : ℕ} {n : BPTreeNode K} (hn : Shaped L (h + 1) n)
    (hsize : (inorder n).length < 2 ^ 32) : ∀ {m i : ℕ} {ρ : UInt32}, i + m = n.numItems + 1 →
    (n.before i).length + ρ.toNat < (inorder n).length →
    ∃ j ρ' descend, scanChildren n m i ρ = some (j, ρ', descend) ∧ j ≤ n.numItems ∧
      (descend = true → ρ'.toNat < (inorder (n.child j)).length ∧
        (n.before j).length + ρ'.toNat = (n.before i).length + ρ.toNat) ∧
      (descend = false → j < n.numItems ∧
        (n.upTo j).length = (n.before i).length + ρ.toNat) := by
  have hleaf : n.isLeaf = false := hn.2.1
  have hup : ∀ i, (n.upTo i).length = (n.before i).length + (inorder (n.child i)).length :=
    fun i => by rw [upTo_eq, sub_of_inner hleaf, length_append]
  have hsucc : ∀ i, (n.before (i + 1)).length = (n.upTo i).length + 1 := fun i => by
    rw [before_succ, length_append]
    rfl
  have htotal : (n.upTo n.numItems).length = (inorder n).length := by rw [upTo_numItems]
  intro m
  induction m with
  | zero =>
    intro i ρ hi hlt
    have := hsucc n.numItems
    rw [show i = n.numItems + 1 by omega] at hlt
    omega
  | succ m ih =>
    intro i ρ hi hlt
    have hle : (n.upTo i).length ≤ (inorder n).length := by
      rw [inorder_cut (show i ≤ n.numItems by omega), length_append]
      omega
    have hcnt : (n.child i).treeCount.toNat = (inorder (n.child i)).length := by
      have := hup i
      rw [(hn.child (by omega)).count, UInt32.toNat_ofNat', mod_eq_of_lt (by omega)]
    rw [scanChildren]
    -- in child `i`, at the key after it, or further on
    by_cases hdesc : ρ < (n.child i).treeCount
    · simp only
      rw [if_pos hdesc]
      refine ⟨i, ρ, true, rfl, by omega, fun _ => ⟨?_, rfl⟩, fun h => by cases h⟩
      rw [← hcnt]
      exact UInt32.lt_iff_toNat_lt.mp hdesc
    · simp only
      rw [if_neg hdesc]
      have hge : (n.child i).treeCount ≤ ρ := UInt32.not_lt.mp hdesc
      have hsub : (ρ - (n.child i).treeCount).toNat
          = ρ.toNat - (inorder (n.child i)).length := by
        rw [UInt32.toNat_sub_of_le _ _ hge, hcnt]
      have hge' : (inorder (n.child i)).length ≤ ρ.toNat := by
        rw [← hcnt]
        exact UInt32.le_iff_toNat_le.mp hge
      have hupi := hup i
      split
      · next hzero =>
        rw [hzero] at hsub
        have h0 : (0 : UInt32).toNat = 0 := rfl
        refine ⟨i, 0, false, rfl, by omega, fun h => (by cases h), fun _ => ⟨?_, by omega⟩⟩
        -- there is a key after child `i`, since there are keys left
        by_contra hlast
        rw [show i = n.numItems by omega] at hupi hlt hsub hge'
        omega
      · next hzero =>
        have hpos : 1 ≤ (ρ - (n.child i).treeCount).toNat := by
          rw [one_le_iff_ne_zero]
          intro h
          exact hzero (UInt32.toNat.inj h)
        have hsub1 : (ρ - (n.child i).treeCount - 1).toNat
            = ρ.toNat - (inorder (n.child i)).length - 1 := by
          rw [UInt32.toNat_sub_of_le _ _ (UInt32.le_iff_toNat_le.mpr (by exact hpos)), hsub]
          rfl
        have hnext := hsucc i
        obtain ⟨j, ρ', d, h1, h2, h3, h4⟩ := ih (i := i + 1) (ρ := ρ - (n.child i).treeCount - 1)
          (by omega) (by omega)
        refine ⟨j, ρ', d, h1, h2, fun hd => ?_, fun hd => ?_⟩
        · obtain ⟨h5, h6⟩ := h3 hd
          exact ⟨h5, by omega⟩
        · obtain ⟨h5, h6⟩ := h4 hd
          exact ⟨h5, by omega⟩

theorem toRankLoop_spec (hL : L.Roomy) (hroot : Rooted L top root) (htop : top < kMaxDepth)
    (hsize : (inorder root).length < 2 ^ 32) : ∀ {h : ℕ} {n : BPTreeNode K} {path : BPTreePath K}
    {ρ : UInt32}, Below root top h path n → ρ.toNat < (inorder n).length →
      ∃ p, toRankLoop n ρ path = some p ∧ OnKey root top p ∧
        (left p).length = (pre path).length + ρ.toNat := by
  intro h
  induction h with
  | zero =>
    intro n path ρ hb hρ
    have hst := hb.standing hL hroot
    have hleaf := hst.shaped.1
    rw [length_inorder_of_leaf hleaf] at hρ
    refine ⟨⟨n, ρ.toNat⟩ :: path, ?_, ⟨⟨0, hb⟩, hρ⟩, ?_⟩
    · obtain ⟨leaf, m, k, t, c, rfl⟩ := hst.shaped.exists_mk
      obtain rfl : leaf = true := hleaf
      rw [toRankLoop, if_pos rfl, push_eq (hb.depth_lt hL hroot htop)]
    · rw [left, length_append, upTo_length_of_leaf hleaf]
  | succ h ih =>
    intro n path ρ hb hρ
    have hst := hb.standing hL hroot
    have hleaf := hst.shaped.2.1
    have hdepth := hb.depth_lt hL hroot htop
    have hnsize : (inorder n).length < 2 ^ 32 := by
      have := congrArg List.length hst.keys
      simp only [length_append] at this
      omega
    by_cases hzero : ρ = 0
    · have hc := hb.child hL hroot (zero_le n.numItems)
      have hpos : 1 ≤ (inorder (n.child 0)).length := by
        rw [inorder_cut (hc.standing hL hroot).pos, length_append]
        have : (n.child 0).upTo 1 = (n.child 0).sub 0 ++ (n.child 0).key 0 :: (n.child 0).sub 1 :=
          rfl
        rw [this, length_append, length_cons]
        omega
      subst hzero
      obtain ⟨p, hp, hon, hlen⟩ := ih (ρ := 0) hc (by exact hpos)
      refine ⟨p, ?_, hon, ?_⟩
      · obtain ⟨leaf, m, k, t, c, rfl⟩ := hst.shaped.exists_mk
        obtain rfl : leaf = false := hleaf
        rw [toRankLoop, if_neg (by simp), if_pos rfl, push_eq hdepth]
        exact hp
      · rw [hlen, pre, before_zero, append_nil]
    · obtain ⟨j, ρ', d, hscan, hj, hdown, hstop⟩ := scanChildren_spec hst.shaped hnsize
        (m := n.numItems + 1) (i := 0) (ρ := ρ) (by omega)
        (by rw [before_zero, length_nil]; omega)
      rw [before_zero, length_nil, zero_add] at hdown hstop
      cases d with
      | true =>
        obtain ⟨hlt, hsum⟩ := hdown rfl
        obtain ⟨p, hp, hon, hlen⟩ := ih (hb.child hL hroot hj) hlt
        refine ⟨p, ?_, hon, ?_⟩
        · obtain ⟨leaf, m, k, t, c, rfl⟩ := hst.shaped.exists_mk
          obtain rfl : leaf = false := hleaf
          rw [numItems_mk] at hscan
          rw [toRankLoop, if_neg (by simp), if_neg hzero, hscan]
          simp only
          rw [push_eq hdepth]
          exact hp
        · rw [hlen, pre, length_append]
          dsimp only
          omega
      | false =>
        obtain ⟨hlt, hsum⟩ := hstop rfl
        refine ⟨⟨n, j⟩ :: path, ?_, ⟨⟨h + 1, hb⟩, hlt⟩, ?_⟩
        · obtain ⟨leaf, m, k, t, c, rfl⟩ := hst.shaped.exists_mk
          obtain rfl : leaf = false := hleaf
          rw [numItems_mk] at hscan
          rw [toRankLoop, if_neg (by simp), if_neg hzero, hscan]
          simp only
          rw [push_eq hdepth]
          rfl
        · rw [left, length_append, hsum]

end Descent

/-! ### Ranks in a set -/

section Ranks

variable [LinearOrder K] {t : BPTree K} {s : Finset K} {cmp : K → K → ℤ} {top : ℕ}

/-- The number of elements smaller than `x`. -/
def rankIn (s : Finset K) (x : K) : ℕ := (s.filter (· < x)).card

theorem rankIn_eq_length {l r : List K} {x : K} (hs : s.sort = l ++ r) (hl : ∀ y ∈ l, y < x)
    (hr : ∀ y ∈ r, ¬ y < x) : rankIn s x = l.length := by
  have hsorted := s.sortedLT_sort.pairwise
  rw [hs] at hsorted
  rw [rankIn, ← Finset.length_sort (· ≤ ·),
    Finset.sort_eq_of_mem_iff (pairwise_append.mp hsorted).1 fun y => ?_]
  rw [Finset.mem_filter, ← Finset.mem_sort (· ≤ ·), hs, mem_append]
  constructor
  · intro hy
    exact ⟨.inl hy, hl y hy⟩
  · rintro ⟨hy | hy, hlt⟩
    · exact hy
    · exact absurd hlt (hr y hy)

theorem NonEmpty.rankIn_eq (hL : L.Roomy) (ht : NonEmpty L t s top) {p : BPTreePath K}
    (hp : OnKey t.root top p) {x : K} {ys : List K} (hr : right p = x :: ys) :
    x ∈ s ∧ rankIn s x = (left p).length := by
  have hcut := hp.place.left_append_right hL ht.rooted
  rw [hr, ht.keys] at hcut
  have hsorted := s.sortedLT_sort.pairwise
  rw [← hcut] at hsorted
  have hcons := pairwise_cons.mp (pairwise_append.mp hsorted).2.1
  refine ⟨?_, rankIn_eq_length hcut.symm (fun y hy => ?_) fun y hy => ?_⟩
  · rw [← Finset.mem_sort (· ≤ ·), ← hcut]
    simp
  · exact (pairwise_append.mp hsorted).2.2 y hy x (mem_cons_self ..)
  · rcases mem_cons.mp hy with rfl | hy
    · exact lt_irrefl _
    · exact (hcons.1 y hy).not_gt

theorem rankIn_lt_card {x : K} (hx : x ∈ s) : rankIn s x < s.card :=
  Finset.card_lt_card (Finset.filter_ssubset.mpr ⟨x, hx, lt_irrefl x⟩)

theorem getRank_spec (hcmp : IsThreeWay cmp) (hL : L.Roomy) (ht : Represents L t s)
    (hfit : PathsFit L t) (x : K) (reverse : Bool) :
    getRank cmp t x reverse = some (if x ∈ s then
      some (UInt32.ofNat (if reverse then s.card - 1 - rankIn s x else rankIn s x)) else none) := by
  rcases ht.cases hfit with ⟨hr, rfl, -, -⟩ | ⟨top, hn⟩
  · rw [getRank, if_pos (by rw [hr]; rfl), if_neg (Finset.notMem_empty x)]
  · obtain ⟨p, hloc, -, -, hhit, -⟩ := hn.locate_key hcmp hL x
    rw [getRank, if_neg (by rw [hn.isNull_eq]; simp), hloc]
    by_cases hx : x ∈ s
    · obtain ⟨hon, ys, hright⟩ := hhit hx
      have hrank : rank p = UInt32.ofNat (rankIn s x) := by
        rw [hon.rank_eq hL hn.rooted, (hn.rankIn_eq hL hon hright).2]
      have hlt := rankIn_lt_card hx
      have hcount : t.count = UInt32.ofNat (s.card - 1 - rankIn s x) + UInt32.ofNat (rankIn s x)
          + 1 := by
        rw [hn.count, Finset.length_sort, ← UInt32.ofNat_one, ← UInt32.ofNat_add,
          ← UInt32.ofNat_add]
        congr 1
        omega
      rw [if_pos hx]
      simp only [Option.bind_eq_bind, Option.bind_some, decide_eq_true hx, if_true]
      cases reverse with
      | false => simp [hrank]
      | true =>
        simp only [if_true, Option.some.injEq]
        rw [hrank, hcount]
        grind
    · rw [if_neg hx]
      simp [hx]

theorem NonEmpty.fromRank_spec (hL : L.Roomy) (ht : NonEmpty L t s top)
    (hs : s.card < 2 ^ 32) {r : UInt32} (hr : r.toNat < s.card) :
    ∃ p, fromRank t r = some p ∧ OnKey t.root top p ∧ (left p).length = r.toNat := by
  have hlen := ht.length_inorder
  have hcount := ht.toNat_count hs
  have hbelow : Below t.root top top [] t.root := ⟨rfl, rfl⟩
  rw [fromRank]
  -- the greatest rank has a descent of its own
  split
  · next hlast =>
    have hr1 : r.toNat + 1 = s.card := by
      have := congrArg UInt32.toNat hlast
      rw [UInt32.toNat_add, hcount] at this
      have h1 : (1 : UInt32).toNat = 1 := rfl
      rw [h1, mod_eq_of_lt (by omega)] at this
      exact this
    obtain ⟨p, hp, hon, hl⟩ := toRankLast_spec hL ht.rooted ht.depth hbelow
    refine ⟨p, hp, hon, ?_⟩
    rw [hlen] at hl
    simp only [pre, length_nil] at hl
    omega
  · obtain ⟨p, hp, hon, hl⟩ := toRankLoop_spec hL ht.rooted ht.depth (by omega) hbelow
      (by rw [hlen]; exact hr)
    refine ⟨p, hp, hon, ?_⟩
    rw [hl]
    simp [pre]

theorem Represents.fromRank_terminal (hL : L.Roomy) (ht : Represents L t s) (hfit : PathsFit L t)
    (hs : s.card < 2 ^ 32) {r : UInt32} {x : K} (hx : s.sort[r.toNat]? = some x) :
    ∃ p, fromRank t r = some p ∧ p ≠ [] ∧ terminal p = some x := by
  obtain ⟨hlt, -⟩ := List.getElem?_eq_some_iff.mp hx
  rw [Finset.length_sort] at hlt
  rcases ht.cases hfit with ⟨-, rfl, -⟩ | ⟨top, hn⟩
  · exact absurd hlt (Nat.not_lt_zero _)
  · obtain ⟨p, hp, hon, hleft⟩ := hn.fromRank_spec hL hs hlt
    obtain ⟨y, ys, hterm, hright⟩ := hon.right_eq_cons
    have hcut := hon.place.left_append_right hL hn.rooted
    rw [hright, hn.keys] at hcut
    rw [← hcut, ← hleft, List.getElem?_append_right (le_refl _), Nat.sub_self] at hx
    cases hx
    refine ⟨p, hp, ?_, hterm⟩
    rintro rfl
    exact hon

/-! ### Reached trees -/

/-- `GetRank` and `FromRank` on every tree that a run reaches. -/
theorem getRank_of_run (hcmp : IsThreeWay cmp) (hL : L.Roomy) {ops : List (SetOp K)}
    {rs : List (Option Bool)} (hlim : WithinLimits L cmp ops)
    (hrun : run L cmp empty ops = some (t, rs)) :
    let s := (SetOp.applyAll ∅ ops).1
    (∀ x, (getRank cmp t x false).map (Option.map UInt32.toNat)
        = some (if x ∈ s then some (rankIn s x) else none) ∧
      (getRank cmp t x true).map (Option.map UInt32.toNat)
        = some (if x ∈ s then some (t.size - 1 - rankIn s x) else none)) ∧
    ∀ r : UInt32, r.toNat < t.size → ∃ p x, fromRank t r = some p ∧ terminal p = some x ∧
      getRank cmp t x false = some (some r) := by
  intro s
  have h32 : s.card < 2 ^ 32 := hlim.card_lt
  obtain ⟨ht, hfit, hsize⟩ : Represents L t s ∧ PathsFit L t ∧ t.size = s.card :=
    hlim.of_run hcmp hL hrun
  refine ⟨fun x => ?_, fun r hr => ?_⟩
  · rw [getRank_spec hcmp hL ht hfit, getRank_spec hcmp hL ht hfit, hsize]
    by_cases hx : x ∈ s
    · have hlt := rankIn_lt_card hx
      simp only [if_pos hx, Option.map_some, Bool.false_eq_true, if_false, if_true,
        UInt32.toNat_ofNat']
      rw [mod_eq_of_lt (by omega), mod_eq_of_lt (by omega)]
      exact ⟨rfl, rfl⟩
    · simp [hx]
  · rcases ht.cases hfit with ⟨-, hempty, -⟩ | ⟨top, hn⟩
    · rw [hsize, hempty] at hr
      simp at hr
    · rw [hsize] at hr
      obtain ⟨p, hp, hon, hl⟩ := hn.fromRank_spec hL h32 hr
      obtain ⟨x, ys, hterm, hright⟩ := hon.right_eq_cons
      obtain ⟨hx, hrk⟩ := hn.rankIn_eq hL hon hright
      refine ⟨p, x, hp, hterm, ?_⟩
      rw [getRank_spec hcmp hL ht hfit, if_pos hx, hrk, hl]
      simp

theorem getRank_of_run_example :
    ∃ t, run layout16 (fun a b : ℤ => a - b) empty [.insert 5, .insert 3]
        = some (t, [some true, some true]) ∧
      (getRank (fun a b : ℤ => a - b) t 5 false).map (Option.map UInt32.toNat)
        = some (some 1) := by
  obtain ⟨t, hrun⟩ : ∃ t, run layout16 (fun a b : ℤ => a - b) empty [.insert 5, .insert 3]
      = some (t, [some true, some true]) := ⟨_, rfl⟩
  have h := getRank_of_run isThreeWay_int_sub layout16_roomy (layout16_withinLimits (by decide)) hrun
  exact ⟨t, hrun, (h.1 5).1⟩

end Ranks

/-! ### Beyond the counters -/

section Wrap

variable [LinearOrder K]

theorem SetOp.applyAll_inserts : ∀ (l : List K) (s : Finset K),
    (SetOp.applyAll s (l.map .insert)).1 = s ∪ l.toFinset := by
  intro l
  induction l with
  | nil =>
    intro s
    simp [applyAll]
  | cons x l ih =>
    intro s
    rw [map_cons, applyAll]
    simp only [apply]
    rw [ih]
    ext y
    simp

def insertsTo (n : ℕ) : List (SetOp ℤ) := (range n).map fun i : ℕ => .insert (i : ℤ)

theorem applyAll_insertsTo (n : ℕ) :
    (SetOp.applyAll ∅ (insertsTo n)).1 = (Finset.range n).image fun i : ℕ => (i : ℤ) := by
  have hops : insertsTo n = ((range n).map fun i : ℕ => (i : ℤ)).map .insert := by
    rw [insertsTo, map_map]
    rfl
  rw [hops, SetOp.applyAll_inserts]
  ext y
  simp

theorem run_insertsTo {n : ℕ} (hn : n < layout16.depthLimit) :
    ∃ t rs, run layout16 (fun a b : ℤ => a - b) empty (insertsTo n) = some (t, rs) ∧
      Represents layout16 t ((Finset.range n).image fun i : ℕ => (i : ℤ)) ∧
      PathsFit layout16 t := by
  have hlen : (insertsTo n).length < layout16.depthLimit := by
    rwa [insertsTo, length_map, length_range]
  obtain ⟨t, hrun, ht⟩ := run_spec_of_card isThreeWay_int_sub layout16_roomy
    (SetOp.card_lt_of_length hlen)
  rw [applyAll_insertsTo] at ht
  refine ⟨t, _, hrun, ht, ht.pathsFit layout16_roomy ?_⟩
  rwa [Finset.card_image_of_injective _ cast_injective, Finset.card_range]

theorem rankIn_image_range {n m : ℕ} (hm : m < n) :
    rankIn ((Finset.range n).image fun i : ℕ => (i : ℤ)) m = m := by
  have hfilter : ((Finset.range n).image fun i : ℕ => (i : ℤ)).filter (· < (m : ℤ))
      = (Finset.range m).image fun i : ℕ => (i : ℤ) := by
    ext y
    simp only [Finset.mem_filter, Finset.mem_image, Finset.mem_range]
    constructor
    · rintro ⟨⟨i, hi, rfl⟩, hlt⟩
      exact ⟨i, by omega, rfl⟩
    · rintro ⟨i, hi, rfl⟩
      exact ⟨⟨i, by omega, rfl⟩, by omega⟩
  rw [rankIn, hfilter, Finset.card_image_of_injective _ cast_injective, Finset.card_range]

theorem getRank_insertsTo {n m : ℕ} (hn : n < layout16.depthLimit) (hm : m < n) :
    ∃ t rs, run layout16 (fun a b : ℤ => a - b) empty (insertsTo n) = some (t, rs) ∧
      getRank (fun a b : ℤ => a - b) t m false = some (some (UInt32.ofNat m)) := by
  obtain ⟨t, rs, hrun, ht, hfit⟩ := run_insertsTo hn
  refine ⟨t, rs, hrun, ?_⟩
  rw [getRank_spec isThreeWay_int_sub layout16_roomy ht hfit, if_pos (by simpa using hm),
    rankIn_image_range hm]
  rfl

end Wrap

/-- Where ranks are not what they should be: in a tree of wide keys with an empty node,
and behind `2^32` keys. -/
theorem getRank_wrong :
    (∃ t, run ⟨100, by decide, by decide⟩ (fun a b : ℤ => a - b) empty
        [.insert 3, .insert 2, .insert 1] = some (t, [some true, some true, some true]) ∧
      getRank (fun a b : ℤ => a - b) t 4 false = none) ∧
    ∃ t rs, run layout16 (fun a b : ℤ => a - b) empty (insertsTo (2 ^ 32 + 1)) = some (t, rs) ∧
      getRank (fun a b : ℤ => a - b) t (2 ^ 32 : ℕ) false = some (some 0) := by
  refine ⟨⟨_, rfl, rfl⟩, getRank_insertsTo ?_ (lt_succ_self _)⟩
  have := BPNodeLayout.depthLimit_gt (show layout16.keySize ≤ 26 by decide)
  omega

end BPTree
