/-
The B+tree as a set.

`Represents L t s` says that the tree `t` is well formed and that its keys, in order,
are the elements of the finite set `s`.  Every operation takes a tree that represents
a set to one that represents the set it should, as long as the paths fit.

* `run_prefix_refines` — runs from the empty tree, after every call.

`Contains` reads through the null root of an empty tree, unlike the other operations,
and the theorem about runs says what `Contains` answers on trees that hold a key.
-/
import AstraDB.BPTreeClear
import AstraDB.BPTreeDelete
import AstraDB.BPTreeHeight
import AstraDB.BPTreeInsert
import AstraDB.BPTreeLocate

open Finset List BPNodeLayout

set_option linter.unusedSectionVars false

open BPTreeNode BPTreePath

variable {K : Type} [Inhabited K] {L : BPNodeLayout}

/-! ### The order of the keys -/

/-- `Policy::KeyCompareTo`: a three-way comparison for the order of the keys. -/
structure IsThreeWay [LinearOrder K] (cmp : K → K → ℤ) : Prop where
  neg_iff : ∀ a b, cmp a b < 0 ↔ a < b
  pos_iff : ∀ a b, 0 < cmp a b ↔ b < a

section Order

variable [LinearOrder K] {cmp : K → K → ℤ}

theorem IsThreeWay.zero_iff (hcmp : IsThreeWay cmp) (a b : K) : cmp a b = 0 ↔ a = b := by
  have h1 := hcmp.neg_iff a b
  have h2 := hcmp.pos_iff a b
  constructor
  · intro h0
    exact le_antisymm (not_lt.mp fun h => by have := h2.mpr h; omega)
      (not_lt.mp fun h => by have := h1.mpr h; omega)
  · rintro rfl
    have h1' := mt h1.mp (lt_irrefl a)
    have h2' := mt h2.mp (lt_irrefl a)
    omega

theorem IsThreeWay.isQuery (hcmp : IsThreeWay cmp) (q : K) : IsQuery (cmp q) := by
  intro a b hab ha
  have hqa : q ≤ a := not_lt.mp fun h => by
    have := (hcmp.pos_iff q a).mpr h
    omega
  exact (hcmp.neg_iff q b).mpr (hqa.trans_lt hab)

theorem isThreeWay_int_sub : IsThreeWay (fun a b : ℤ => a - b) :=
  ⟨fun a b => by omega, fun a b => by omega⟩

end Order

/-! ### Sorted lists of finite sets -/

section SortedLists

variable [LinearOrder K] {s : Finset K} {l r : List K} {x : K}

omit [Inhabited K] in
theorem Finset.sort_eq_of_mem_iff (hl : l.Pairwise (· < ·)) (hmem : ∀ y, y ∈ l ↔ y ∈ s) :
    s.sort = l := by
  obtain rfl : l.toFinset = s := by
    ext y
    rw [mem_toFinset, hmem]
  exact (toFinset_sort (· ≤ ·) (hl.imp fun h => h.ne)).mpr (hl.imp fun h => h.le)

theorem Finset.sort_insert_of_split (hs : s.sort = l ++ r) (hl : ∀ y ∈ l, y < x)
    (hr : ∀ y ∈ r, x < y) : (insert x s).sort = l ++ x :: r := by
  have hsorted := s.sortedLT_sort.pairwise
  rw [hs, List.pairwise_append] at hsorted
  refine sort_eq_of_mem_iff ?_ fun y => ?_
  · rw [List.pairwise_append, List.pairwise_cons]
    refine ⟨hsorted.1, ⟨hr, hsorted.2.1⟩, fun a ha b hb => ?_⟩
    rcases List.mem_cons.mp hb with rfl | hb
    · exact hl a ha
    · exact hsorted.2.2 a ha b hb
  · rw [mem_insert, ← mem_sort (· ≤ ·), hs]
    simp only [List.mem_append, List.mem_cons]
    tauto

theorem Finset.sort_erase_of_split (hs : s.sort = l ++ x :: r) : (s.erase x).sort = l ++ r := by
  have hsorted := s.sortedLT_sort.pairwise
  rw [hs] at hsorted
  have hnodup : (l ++ x :: r).Nodup := hsorted.imp fun h => h.ne
  have hx : x ∉ l ++ r := by
    rw [List.nodup_middle] at hnodup
    exact (List.nodup_cons.mp hnodup).1
  refine sort_eq_of_mem_iff (hsorted.sublist ?_) fun y => ?_
  · exact List.Sublist.append_left (List.sublist_cons_self x r) l
  · rw [mem_erase, ← mem_sort (· ≤ ·), hs]
    simp only [List.mem_append, List.mem_cons] at hx ⊢
    constructor
    · intro hy
      exact ⟨fun h => hx (h ▸ hy), by tauto⟩
    · rintro ⟨hne, hy⟩
      tauto

end SortedLists

namespace BPTree

/-! ### Trees and the sets they represent -/

/-- A well formed tree with the given keys, in order. -/
def Holds (L : BPNodeLayout) (t : BPTree K) (keys : List K) : Prop :=
  (t.root = .null ∧ keys = [] ∧ t.count = 0 ∧ t.height = 0) ∨
    ∃ top, Rooted L top t.root ∧ inorder t.root = keys ∧ t.count = UInt32.ofNat keys.length ∧
      t.height = UInt32.ofNat (top + 1)

def Represents [LinearOrder K] (L : BPNodeLayout) (t : BPTree K) (s : Finset K) : Prop :=
  Holds L t s.sort

section Ops

variable [LinearOrder K] {t : BPTree K} {s : Finset K} {cmp : K → K → ℤ}

theorem represents_empty : Represents L (empty : BPTree K) ∅ :=
  .inl ⟨rfl, sort_empty _, rfl, rfl⟩

theorem Represents.count_eq (ht : Represents L t s) : t.count = UInt32.ofNat s.card := by
  rcases ht with ⟨-, hs, hc, -⟩ | ⟨top, -, -, hc, -⟩
  · rw [hc, ← length_sort (· ≤ ·), hs]
    rfl
  · rw [hc, length_sort]

theorem Represents.size_eq (ht : Represents L t s) (hs : s.card < 2 ^ 32) : t.size = s.card := by
  rw [size, ht.count_eq, UInt32.toNat_ofNat', Nat.mod_eq_of_lt hs]

/-- What is known of a tree that represents a set with elements. -/
structure NonEmpty (L : BPNodeLayout) (t : BPTree K) (s : Finset K) (top : ℕ) : Prop where
  rooted : Rooted L top t.root
  keys : inorder t.root = s.sort
  count : t.count = UInt32.ofNat s.sort.length
  height : t.height = UInt32.ofNat (top + 1)
  depth : top < kMaxDepth
  sorted : (inorder t.root).Pairwise (· < ·)

/-- The tree is no higher than a path is long. -/
def PathsFit (L : BPNodeLayout) (t : BPTree K) : Prop :=
  ∀ top, Rooted L top t.root → t.height = UInt32.ofNat (top + 1) → top < kMaxDepth

theorem Represents.cases (ht : Represents L t s) (hfit : PathsFit L t) :
    (t.root = .null ∧ s = ∅ ∧ t.height = 0 ∧ t.count = 0) ∨ ∃ top, NonEmpty L t s top := by
  rcases ht with ⟨hr, hk, hc, hh⟩ | ⟨top, hr, hk, hc, hh⟩
  · refine .inl ⟨hr, ?_, hh, hc⟩
    rw [← card_eq_zero, ← length_sort (· ≤ ·), hk]
    rfl
  · refine .inr ⟨top, hr, hk, hc, hh, hfit top hr hh, ?_⟩
    rw [hk]
    exact s.sortedLT_sort.pairwise

variable {top : ℕ}

theorem Represents.length_inorder (ht : Represents L t s) (hr : Rooted L top t.root) :
    (inorder t.root).length = s.card := by
  rcases ht with ⟨hnull, -⟩ | ⟨_, -, hk, -⟩
  · exact absurd hnull hr.shaped.ne_null
  · rw [hk, length_sort]

theorem Represents.pathsFit (hL : L.Roomy) (ht : Represents L t s) (hs : s.card < L.depthLimit) :
    PathsFit L t := by
  intro top hr _
  refine hr.top_lt hL ?_
  rwa [ht.length_inorder hr]

theorem Represents.pathsFit_of_height (hL : L.Roomy) (ht : Represents L t s)
    (hs : s.card < 2 ^ 32) (hh : t.height.toNat ≤ kMaxDepth) : PathsFit L t := by
  intro top hr heq
  -- fewer than `2^32` keys: the field `height_` has not wrapped around
  have hle := (two_pow_le_minKeys hL top).trans hr.minKeys_le
  rw [ht.length_inorder hr] at hle
  have htop : top < 32 := (Nat.pow_lt_pow_iff_right (by decide)).mp (hle.trans_lt hs)
  rw [heq, UInt32.toNat_ofNat', Nat.mod_eq_of_lt (by omega)] at hh
  exact hh

section

variable (ht : NonEmpty L t s top)
include ht

theorem NonEmpty.height_toNat : t.height.toNat = top + 1 := by
  have hlt : top < 16 := ht.depth
  rw [ht.height, UInt32.toNat_ofNat', Nat.mod_eq_of_lt (by omega)]

theorem NonEmpty.length_inorder : (inorder t.root).length = s.card := by
  rw [ht.keys, length_sort]

theorem NonEmpty.toNat_count (hs : s.card < 2 ^ 32) :
    t.count.toNat = s.card := by
  rw [ht.count, length_sort, UInt32.toNat_ofNat', Nat.mod_eq_of_lt hs]

end

theorem NonEmpty.mem_iff (hL : L.Roomy) (ht : NonEmpty L t s top) {p : BPTreePath K}
    (hp : Place t.root top p) (y : K) : y ∈ s ↔ y ∈ left p ∨ y ∈ right p := by
  rw [← mem_sort (· ≤ ·), ← ht.keys, ← hp.left_append_right hL ht.rooted, mem_append]

theorem NonEmpty.isNull_eq (ht : NonEmpty L t s top) : isNull t.root = false := by
  obtain ⟨leaf, m, k, c, ch, h⟩ := ht.rooted.shaped.exists_mk
  rw [h]
  rfl

theorem NonEmpty.locate_key (hcmp : IsThreeWay cmp) (hL : L.Roomy) (ht : NonEmpty L t s top) (x : K) :
    ∃ p, t.locate (cmp x) = some (decide (x ∈ s), p) ∧ Place t.root top p ∧
      (∀ y ∈ left p, y < x) ∧
      (x ∈ s → OnKey t.root top p ∧ ∃ ys, right p = x :: ys) ∧
      (x ∉ s → (∀ y ∈ right p, x < y) ∧
        ∃ leaf pos above, p = ⟨leaf, pos⟩ :: above ∧ Below t.root top 0 above leaf) := by
  obtain ⟨found, p, hloc, hok⟩ := locate_spec hL ht.rooted ht.depth ht.sorted (hcmp.isQuery x)
  have hmem := ht.mem_iff hL hok.place
  have hleft : ∀ y ∈ left p, y < x := fun y hy => (hcmp.pos_iff x y).mp (hok.below y hy)
  cases hf : found with
  | true =>
    obtain ⟨hon, y, ys, hr, hy⟩ := hok.hit hf
    obtain rfl : x = y := (hcmp.zero_iff x y).mp hy
    have hx : x ∈ s := (hmem x).mpr (.inr (by rw [hr]; exact mem_cons_self ..))
    refine ⟨p, ?_, hok.place, hleft, fun _ => ⟨hon, ys, hr⟩, fun h => absurd hx h⟩
    rw [hloc, hf, decide_eq_true hx]
  | false =>
    obtain ⟨hright, hleaf⟩ := hok.miss hf
    have hgt : ∀ y ∈ right p, x < y := fun y hy => (hcmp.neg_iff x y).mp (hright y hy)
    have hx : x ∉ s := by
      rw [hmem]
      rintro (h | h)
      · exact lt_irrefl x (hleft x h)
      · exact lt_irrefl x (hgt x h)
    refine ⟨p, ?_, hok.place, hleft, fun h => absurd h hx, fun _ => ⟨hgt, hleaf⟩⟩
    rw [hloc, hf, decide_eq_false hx]

/-! ### The operations -/

theorem contains_spec (hcmp : IsThreeWay cmp) (hL : L.Roomy) (ht : Represents L t s)
    (hfit : PathsFit L t) (hne : s.Nonempty) (x : K) :
    contains cmp t x = some (decide (x ∈ s)) := by
  rcases ht.cases hfit with ⟨-, rfl, -⟩ | ⟨top, hn⟩
  · exact absurd hne (by simp)
  · obtain ⟨p, hloc, -⟩ := hn.locate_key hcmp hL x
    rw [contains, hloc]
    rfl

theorem initSingle_rooted (hL : L.Roomy) (x : K) :
    Rooted L 0 ((createNode true).initSingle x) := by
  refine ⟨⟨rfl, ?_⟩, le_rfl, treeCount_of_leaf rfl⟩
  have : 3 ≤ L.kMaxLeafKeys := hL.1
  show 1 ≤ L.kMaxLeafKeys
  omega

section

variable (hcmp : IsThreeWay cmp) (hL : L.Roomy) (ht : Represents L t s) (hfit : PathsFit L t)
include hcmp hL ht hfit

theorem insert_spec (x : K) :
    ∃ t', insert L cmp t x = some (t', decide (x ∉ s)) ∧ Represents L t' (Insert.insert x s) := by
  rcases ht.cases hfit with ⟨hr, rfl, -, -⟩ | ⟨top, hn⟩
  · refine ⟨{ t with
      root := (createNode true).initSingle x
      count := 1
      height := 1
      numNodes := t.numNodes + 1 }, ?_, .inr ⟨0, initSingle_rooted hL x, ?_, ?_, rfl⟩⟩
    · rw [insert, if_pos (by rw [hr]; rfl), decide_eq_true (notMem_empty x)]
    · rw [insert_empty_eq, sort_singleton]
      rfl
    · rw [length_sort, insert_empty_eq, card_singleton]
      rfl
  · obtain ⟨p, hloc, hplace, hleft, hhit, hmiss⟩ := hn.locate_key hcmp hL x
    rw [insert, if_neg (by rw [hn.isNull_eq]; simp), hloc]
    by_cases hx : x ∈ s
    · refine ⟨t, ?_, ?_⟩
      · simp [hx]
      · rwa [insert_eq_of_mem hx]
    · -- the search has ended in a leaf, between the smaller and the greater keys
      obtain ⟨hright, leaf, pos, above, rfl, hb⟩ := hmiss hx
      have hst := hb.standing hL hn.rooted
      have hpos : pos ≤ leaf.numItems := hplace.2
      have hslot : ∀ r rest, above = r :: rest → r.node.child r.pos = leaf := by
        rintro r rest rfl
        exact hb.1.symm
      have hgrown := insertAt_spec hL hst.context hst.shaped hst.low_le rfl hslot hpos t x
      set t' := (if leaf.numItems = L.kMaxLeafKeys then insertToFullLeaf L t x leaf pos above
        else { t with
          root := writeBack (increaseSubtreeCounts above 1) (leaf.leafInsert pos x) }) with ht'
      have hcut := hplace.left_append_right hL hn.rooted
      have hsort : (Insert.insert x s).sort
          = left (⟨leaf, pos⟩ :: above) ++ x :: right (⟨leaf, pos⟩ :: above) :=
        sort_insert_of_split (by rw [hcut, hn.keys]) hleft hright
      obtain ⟨g, hg, hgh⟩ := hgrown.rooted
      refine ⟨{ t' with count := t'.count + 1 }, ?_, .inr ⟨top + g, hg, ?_, ?_, ?_⟩⟩
      · simp [hx, ht']
      · rw [hsort, left, right]
        refine hgrown.keys_eq.trans ?_
        simp
      · show t'.count + 1 = _
        rw [hgrown.count_eq, hn.count, length_sort, length_sort,
          card_insert_of_notMem hx, UInt32.ofNat_add, UInt32.ofNat_one]
      · rw [hgh, hn.height, ← UInt32.ofNat_add, show top + 1 + g = top + g + 1 by omega]

theorem delete_spec (x : K) :
    ∃ t', delete L cmp t x = some (t', decide (x ∈ s)) ∧ Represents L t' (s.erase x) := by
  rcases ht.cases hfit with ⟨hr, rfl, -, -⟩ | ⟨top, hn⟩
  · refine ⟨t, ?_, by simpa using ht⟩
    rw [delete, if_pos (by rw [hr]; rfl), decide_eq_false (notMem_empty x)]
  · obtain ⟨p, hloc, hplace, hleft, hhit, hmiss⟩ := hn.locate_key hcmp hL x
    rw [delete, if_neg (by rw [hn.isNull_eq]; simp), hloc]
    by_cases hx : x ∈ s
    · obtain ⟨hon, ys, hr⟩ := hhit hx
      obtain ⟨t', hdel, hshrunk⟩ := deletePath_spec hL hn.rooted hn.depth t hon hr
      have hcut := hplace.left_append_right hL hn.rooted
      have hsort : (s.erase x).sort = left p ++ ys :=
        sort_erase_of_split (by rw [← hn.keys, ← hcut, hr])
      have hcard : s.card = (s.erase x).card + 1 := (card_erase_add_one hx).symm
      have hcount : t'.count = UInt32.ofNat (s.erase x).sort.length := by
        rw [hshrunk.count_eq, hn.count, length_sort, length_sort, hcard,
          UInt32.ofNat_add, UInt32.ofNat_one]
        grind
      refine ⟨t', by simp [hx, hdel], ?_⟩
      -- the tree is empty now, has kept its height, or has lost a level
      rcases hshrunk.tree with ⟨hnil, hroot, htop, hh⟩ | ⟨hk, ⟨hroot, hh⟩ | ⟨top', htop, hroot, hh⟩⟩
      · refine .inl ⟨hroot, by rw [hsort, hnil], ?_, ?_⟩
        · rw [hcount, hsort, hnil]
          rfl
        · rw [hh, hn.height, htop]
          rfl
      · exact .inr ⟨top, hroot, by rw [hk, hsort], hcount, by rw [hh, hn.height]⟩
      · refine .inr ⟨top', hroot, by rw [hk, hsort], hcount, ?_⟩
        rw [hh, hn.height, htop, UInt32.ofNat_add _ 1, UInt32.ofNat_one]
        grind
    · refine ⟨t, by simp [hx], ?_⟩
      rwa [erase_eq_of_notMem hx]

end

theorem clear_spec (ht : Represents L t s) (hfit : PathsFit L t) :
    ∃ t', clear t = some t' ∧ Represents L t' ∅ := by
  rcases ht.cases hfit with ⟨hr, rfl, -, -⟩ | ⟨top, hn⟩
  · exact ⟨t, by rw [clear, if_pos (by rw [hr]; rfl)], ht⟩
  · have hacc := clearAccesses_eq hn.rooted.shaped (Nat.le_of_lt hn.depth)
    rw [clear, if_neg (by rw [hn.isNull_eq]; simp), hacc]
    exact ⟨_, rfl, .inl ⟨rfl, sort_empty _, rfl, rfl⟩⟩

end Ops

/-! ### Runs -/

/-- A call that changes the tree. -/
inductive SetOp (K : Type) where
  | insert (x : K)
  | delete (x : K)
  | clear
  deriving DecidableEq

/-- The call on a tree; `Clear()` returns nothing. -/
def step (L : BPNodeLayout) (cmp : K → K → ℤ) (t : BPTree K) :
    SetOp K → Option (BPTree K × Option Bool)
  | .insert x => (insert L cmp t x).map fun r => (r.1, some r.2)
  | .delete x => (delete L cmp t x).map fun r => (r.1, some r.2)
  | .clear => (clear t).map fun t => (t, none)

def run (L : BPNodeLayout) (cmp : K → K → ℤ) :
    BPTree K → List (SetOp K) → Option (BPTree K × List (Option Bool))
  | t, [] => some (t, [])
  | t, op :: ops => do
    let (t, r) ← step L cmp t op
    let (t, rs) ← run L cmp t ops
    some (t, r :: rs)

section Runs

variable [LinearOrder K]

/-- What the call does to a set, and returns. -/
def SetOp.apply (s : Finset K) : SetOp K → Finset K × Option Bool
  | .insert x => (Insert.insert x s, some (decide (x ∉ s)))
  | .delete x => (s.erase x, some (decide (x ∈ s)))
  | .clear => (∅, none)

def SetOp.applyAll : Finset K → List (SetOp K) → Finset K × List (Option Bool)
  | s, [] => (s, [])
  | s, op :: ops =>
    let r := op.apply s
    let rs := applyAll r.1 ops
    (rs.1, r.2 :: rs.2)

theorem SetOp.card_applyAll_le : ∀ (ops : List (SetOp K)) (s : Finset K),
    (SetOp.applyAll s ops).1.card ≤ s.card + ops.length := by
  intro ops
  induction ops with
  | nil =>
    intro s
    exact le_rfl
  | cons op ops ih =>
    intro s
    have hop : (op.apply s).1.card ≤ s.card + 1 := by
      cases op with
      | insert x => exact card_insert_le x s
      | delete x => exact (card_erase_le).trans (Nat.le_succ _)
      | clear => simp [apply]
    have := ih (op.apply s).1
    rw [applyAll, length_cons]
    simp only
    omega

variable {ops : List (SetOp K)}

theorem SetOp.card_lt_of_length {m : ℕ} (hlen : ops.length < m) (k : ℕ) :
    (SetOp.applyAll ∅ (ops.take k)).1.card < m := by
  have h1 := SetOp.card_applyAll_le (ops.take k) (∅ : Finset K)
  have h2 := length_take_le' k ops
  rw [card_empty] at h1
  omega

variable {t : BPTree K} {s : Finset K} {cmp : K → K → ℤ}

section

variable (hcmp : IsThreeWay cmp) (hL : L.Roomy)
include hcmp hL

theorem step_spec (ht : Represents L t s) (hfit : PathsFit L t) (op : SetOp K) :
    ∃ t', step L cmp t op = some (t', (op.apply s).2) ∧ Represents L t' (op.apply s).1 := by
  cases op with
  | insert x =>
    obtain ⟨t', h1, h2⟩ := insert_spec hcmp hL ht hfit x
    exact ⟨t', by rw [step, h1]; rfl, h2⟩
  | delete x =>
    obtain ⟨t', h1, h2⟩ := delete_spec hcmp hL ht hfit x
    exact ⟨t', by rw [step, h1]; rfl, h2⟩
  | clear =>
    obtain ⟨t', h1, h2⟩ := clear_spec ht hfit
    exact ⟨t', by rw [step, h1]; rfl, h2⟩

theorem run_spec : ∀ {ops : List (SetOp K)} {t : BPTree K}
    {s : Finset K}, Represents L t s →
    (∀ k t' rs, run L cmp t (ops.take k) = some (t', rs) →
      Represents L t' (SetOp.applyAll s (ops.take k)).1 → PathsFit L t') →
    ∃ t', run L cmp t ops = some (t', (SetOp.applyAll s ops).2) ∧
      Represents L t' (SetOp.applyAll s ops).1 := by
  intro ops
  induction ops with
  | nil =>
    intro t s ht _
    exact ⟨t, rfl, ht⟩
  | cons op ops ih =>
    intro t s ht hfit
    obtain ⟨t1, h1, h2⟩ := step_spec hcmp hL ht (hfit 0 t [] rfl ht) op
    -- a run of `k` calls from `t1` is one of `k + 1` calls from `t`
    obtain ⟨t2, h3, h4⟩ := ih h2 fun k t' rs hrun hrep => by
      refine hfit (k + 1) t' ((op.apply s).2 :: rs) ?_ hrep
      rw [take_succ_cons, run, h1]
      simp only [Option.bind_eq_bind, Option.bind_some]
      rw [hrun]
      rfl
    refine ⟨t2, ?_, h4⟩
    rw [run, h1]
    simp only [Option.bind_eq_bind, Option.bind_some]
    rw [h3]
    rfl

theorem run_spec_of_card (hcard : ∀ k, (SetOp.applyAll ∅ (ops.take k)).1.card < L.depthLimit) :
    ∃ t, run L cmp empty ops = some (t, (SetOp.applyAll ∅ ops).2) ∧
      Represents L t (SetOp.applyAll ∅ ops).1 :=
  run_spec hcmp hL represents_empty fun k _ _ _ hrep => hrep.pathsFit hL (hcard k)

end

/-- Along a run from the empty tree, the counters can count the keys and a path has
room for the levels of the tree, as `Push` asserts. -/
structure WithinLimits (L : BPNodeLayout) (cmp : K → K → ℤ) (ops : List (SetOp K)) : Prop where
  count : ∀ k, (SetOp.applyAll ∅ (ops.take k)).1.card < 2 ^ 32
  height : ∀ k t rs, run L cmp empty (ops.take k) = some (t, rs) → t.height.toNat ≤ kMaxDepth

section

variable (hlim : WithinLimits L cmp ops)
include hlim

theorem WithinLimits.take (k : ℕ) :
    WithinLimits L cmp (ops.take k) :=
  ⟨fun j => by rw [take_take]; exact hlim.count _,
    fun j => by rw [take_take]; exact hlim.height _⟩

theorem WithinLimits.card_lt : (SetOp.applyAll ∅ ops).1.card < 2 ^ 32 := by
  have hcount := hlim.count ops.length
  rwa [take_length] at hcount

theorem WithinLimits.run_spec (hcmp : IsThreeWay cmp) (hL : L.Roomy) :
    ∃ t, run L cmp empty ops = some (t, (SetOp.applyAll ∅ ops).2) ∧
      Represents L t (SetOp.applyAll ∅ ops).1 ∧ PathsFit L t ∧
      t.size = (SetOp.applyAll ∅ ops).1.card := by
  have hfit : ∀ k t' rs, run L cmp empty (ops.take k) = some (t', rs) →
      Represents L t' (SetOp.applyAll ∅ (ops.take k)).1 → PathsFit L t' :=
    fun k t' rs hrun hrep => hrep.pathsFit_of_height hL (hlim.count k) (hlim.height k t' rs hrun)
  obtain ⟨t, hrun, ht⟩ := BPTree.run_spec hcmp hL represents_empty hfit
  have hall := hfit ops.length t
  rw [take_length] at hall
  exact ⟨t, hrun, ht, hall _ hrun ht, ht.size_eq hlim.card_lt⟩

end

theorem WithinLimits.of_run {rs : List (Option Bool)} (hlim : WithinLimits L cmp ops)
    (hcmp : IsThreeWay cmp) (hL : L.Roomy) (hrun : run L cmp empty ops = some (t, rs)) :
    Represents L t (SetOp.applyAll ∅ ops).1 ∧ PathsFit L t ∧
      t.size = (SetOp.applyAll ∅ ops).1.card := by
  obtain ⟨t', hrun', ht'⟩ := hlim.run_spec hcmp hL
  rw [hrun] at hrun'
  cases hrun'
  exact ht'

/-- With keys of at most 26 bytes, only the number of keys is limited. -/
theorem withinLimits_of_keySize_le (hcmp : IsThreeWay cmp) (hk : L.keySize ≤ 26)
    (hcount : ∀ k, (SetOp.applyAll ∅ (ops.take k)).1.card < 2 ^ 32) : WithinLimits L cmp ops := by
  have hL := roomy_of_keySize_le (hk.trans (by decide))
  have hdepth := depthLimit_gt hk
  refine ⟨hcount, fun k t rs hrun => ?_⟩
  have hcard : ∀ j, (SetOp.applyAll ∅ ((ops.take k).take j)).1.card < L.depthLimit := fun j => by
    rw [take_take]
    have := hcount (min j k)
    omega
  obtain ⟨t', hrun', ht'⟩ := run_spec_of_card hcmp hL hcard
  rw [hrun] at hrun'
  cases hrun'
  have hfit := ht'.pathsFit hL (by have := hcount k; omega)
  rcases ht'.cases hfit with ⟨-, -, hh, -⟩ | ⟨top, hn⟩
  · rw [hh]
    exact Nat.zero_le _
  · rw [hn.height_toNat]
    exact hn.depth

/-- After every call of a run from the empty tree, the calls so far returned what they
return on the set, `Size()` is its number of elements and, once there are any,
`Contains` decides membership. -/
theorem run_prefix_refines (hcmp : IsThreeWay cmp) (hL : L.Roomy) (ops : List (SetOp K))
    (hlim : WithinLimits L cmp ops) (k : ℕ) :
    ∃ t, run L cmp empty (ops.take k) = some (t, (SetOp.applyAll ∅ (ops.take k)).2) ∧
      t.size = (SetOp.applyAll ∅ (ops.take k)).1.card ∧
      ((SetOp.applyAll ∅ (ops.take k)).1.Nonempty → ∀ y,
        contains cmp t y = some (decide (y ∈ (SetOp.applyAll ∅ (ops.take k)).1))) := by
  obtain ⟨t, hrun, ht, hfit, hsize⟩ := (hlim.take k).run_spec hcmp hL
  exact ⟨t, hrun, hsize, fun hne y => contains_spec hcmp hL ht hfit hne y⟩

end Runs

/-- The layout for keys of 16 bytes, such as those of a sorted set. -/
def layout16 : BPNodeLayout := ⟨16, by decide, by decide⟩

theorem layout16_roomy : layout16.Roomy := roomy_of_keySize_le (by decide)

theorem layout16_withinLimits {ops : List (SetOp ℤ)} (hlen : ops.length < 2 ^ 32) :
    WithinLimits layout16 (fun a b : ℤ => a - b) ops :=
  withinLimits_of_keySize_le isThreeWay_int_sub (by decide) (SetOp.card_lt_of_length hlen)

theorem run_prefix_refines_example :
    ∃ t, run layout16 (fun a b : ℤ => a - b) empty [.insert 3, .insert 5, .delete 3]
        = some (t, [some true, some true, some true]) ∧ t.size = 1 ∧
      contains (fun a b : ℤ => a - b) t 5 = some true := by
  obtain ⟨t, h1, h2, h3⟩ := run_prefix_refines isThreeWay_int_sub layout16_roomy
    [.insert 3, .insert 5, .delete 3] (layout16_withinLimits (by decide)) 3
  exact ⟨t, h1, h2, h3 (by decide) 5⟩

/-- Where the run theorem stops: `Contains` of a tree emptied again reads the null root,
and nodes that hold only two keys are split into one without any, which the next search
reads. -/
theorem contains_out_of_bounds :
    (∃ t, run layout16 (fun a b : ℤ => a - b) empty [.insert 1, .delete 1]
        = some (t, [some true, some true]) ∧ t.size = 0 ∧
      contains (fun a b : ℤ => a - b) t 1 = none) ∧
    ∃ t, run ⟨100, by decide, by decide⟩ (fun a b : ℤ => a - b) empty
        [.insert 3, .insert 2, .insert 1] = some (t, [some true, some true, some true]) ∧
      contains (fun a b : ℤ => a - b) t 4 = none :=
  ⟨⟨_, rfl, rfl, rfl⟩, ⟨_, rfl, rfl⟩⟩

end BPTree
