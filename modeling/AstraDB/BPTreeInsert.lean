/-
Insertion into a B+tree.

`Insert` puts the key where `Locate` ended: the result holds the keys left of that
place, the key, and the keys right of it.

* `insertUp_spec` — handing a new right neighbour up the path, by way of free room,
  rebalancing or splitting;
* `insertToFullLeaf_spec`, `insertAt_spec` — inserting at a place in a leaf.
-/
import AstraDB.BPTree
import AstraDB.BPTreeContext

open List

set_option linter.unusedSectionVars false

open BPTreeNode BPTreePath

namespace BPTree

variable {K : Type} [Inhabited K] {L : BPNodeLayout}

/-- A tree of height `top'` that holds `keys`, grown from one of height `top`. -/
structure Grown (L : BPNodeLayout) (top : ℕ) (t t' : BPTree K) (keys : List K) : Prop where
  rooted : ∃ g, Rooted L (top + g) t'.root ∧ t'.height = t.height + UInt32.ofNat g
  keys_eq : inorder t'.root = keys
  count_eq : t'.count = t.count

variable {top h : ℕ}

theorem Grown.of_root {t : BPTree K} {root : BPTreeNode K} {keys : List K} (hr : Rooted L top root)
    (hk : inorder root = keys) : Grown L top t { t with root := root } keys :=
  ⟨⟨0, hr, by simp⟩, hk, rfl⟩

theorem Grown.of_numNodes {t t' : BPTree K} {keys : List K} {k : UInt32}
    (hg : Grown L top { t with numNodes := k } t' keys) : Grown L top t t' keys :=
  ⟨hg.rooted, hg.keys_eq, hg.count_eq⟩

/-- `n'` is `n` with `x`, and the keys `b` behind it, put in at `i`. -/
structure Inserted (L : BPNodeLayout) (h : ℕ) (n : BPTreeNode K) (i : ℕ) (x : K) (b : List K)
    (n' : BPTreeNode K) : Prop where
  shaped : Shaped L h n'
  num : n'.numItems = n.numItems + 1
  keys : inorder n' = n.upTo i ++ x :: (b ++ n.after i)
  surplus : Surplus n' 0

section Inserted

variable {n n' : BPTreeNode K} {i m : ℕ} {x : K} {b : List K}

theorem length_inserted (hi : i ≤ n.numItems) :
    (n.upTo i ++ x :: (b ++ n.after i)).length = (inorder n).length + b.length + 1 := by
  rw [inorder_cut hi]
  simp only [length_append, length_cons]
  omega

theorem Inserted.filled (hins : Inserted L h n i x b n') (hlow : L.low h ≤ n.numItems + 1) :
    Filled L h n' :=
  Filled.of_surplus hins.shaped (hins.num ▸ hlow) hins.surplus

theorem Inserted.grown (hins : Inserted L h n i x b n') {p : BPTreePath K}
    (hctx : Context L top h p m) (hi : i ≤ n.numItems) (hlow : p ≠ [] → L.low h ≤ n.numItems)
    (hm : m = (inorder n).length + b.length) (t : BPTree K) :
    Grown L top t { t with root := writeBack (increaseSubtreeCounts p 1) n' }
      (pre p ++ ((n.upTo i ++ x :: (b ++ n.after i)) ++ post p)) := by
  have hnum := hins.num
  have key := writeBack_spec hctx hins.shaped (d := 1) (by omega)
    (fun hne => by have := hlow hne; omega) hins.surplus
    (by rw [hins.keys, length_inserted hi, ← hm, UInt32.ofNat_add, UInt32.ofNat_one])
  rw [hins.keys] at key
  exact Grown.of_root key.1 key.2

end Inserted

/-! ### The inner nodes -/

/-- A parent whose child below the path, or a neighbour of it, got one key more: it is
written back, and all counts above it are raised. -/
theorem writeBack_parent {m pp : ℕ} {parent par : BPTreeNode K} {rest : BPTreePath K} {mid : List K}
    (hctx : Context L top h (⟨parent, pp⟩ :: rest) m) (hpar : Shaped L (h + 1) par)
    (hnum : par.numItems = parent.numItems) (hcount : par.innerTreeCount = parent.innerTreeCount)
    (hkeys : inorder par = parent.before pp ++ (mid ++ parent.after pp)) (hmid : mid.length = m + 1) :
    Rooted L top (writeBack (increaseSubtreeCounts rest 1) (par.increaseTreeCount 1)) ∧
      inorder (writeBack (increaseSubtreeCounts rest 1) (par.increaseTreeCount 1))
        = pre (⟨parent, pp⟩ :: rest) ++ (mid ++ post (⟨parent, pp⟩ :: rest)) := by
  obtain ⟨-, h1, hmin, hrc, hrest⟩ := hctx
  have hlen : UInt32.ofNat (total ⟨parent, pp⟩ m) + 1
      = UInt32.ofNat (inorder (par.increaseTreeCount 1)).length := by
    rw [inorder_increaseTreeCount, hkeys, total, ← UInt32.ofNat_one, ← UInt32.ofNat_add]
    simp only [length_append, hmid]
    congr 1
    omega
  have key := writeBack_spec hrest (hpar.increaseTreeCount 1) (d := 1)
    (by rw [numItems_increaseTreeCount, hnum]; exact h1)
    (fun hne => by rw [numItems_increaseTreeCount, hnum]; exact hmin hne)
    (by
      rw [Surplus, treeCount_increaseTreeCount hpar.ne_null hpar.2.1,
        treeCount_of_inner hpar.2.1, hcount, hrc, hlen, UInt32.add_zero])
    hlen
  refine ⟨key.1, key.2.trans ?_⟩
  rw [inorder_increaseTreeCount, hkeys, pre, post]
  simp

/-- A key and the child after it inserted into an inner node whose count already
includes that child. -/
theorem inserted_innerInsert {n c : BPTreeNode K} (hn : Shaped L (h + 1) n) {i : ℕ}
    (hi : i ≤ n.numItems) (hroom : n.numItems < L.kMaxInnerKeys) (x : K) (hc : Filled L h c)
    {d e : UInt32} (hs : Surplus n d) (he : d + e = c.treeCount + 1) :
    Inserted L (h + 1) n i x (inorder c) ((n.innerInsert i x c).increaseTreeCount e) := by
  obtain ⟨hshaped, hnum, hkeys, hcount⟩ := innerInsert_spec hn hi hroom x hc
  refine ⟨hshaped.increaseTreeCount e, by simpa using hnum, by simpa using hkeys, ?_⟩
  have hlen : (inorder n).length = (n.upTo i).length + (n.after i).length := by
    rw [inorder_cut hi, length_append]
  rw [Surplus, hlen, treeCount_of_inner hn.2.1, UInt32.ofNat_add] at hs
  rw [Surplus, treeCount_increaseTreeCount hshaped.ne_null hshaped.2.1,
    treeCount_of_inner hshaped.2.1, hcount, hs, inorder_increaseTreeCount, hkeys, length_append,
    length_cons, length_append, UInt32.ofNat_add, UInt32.ofNat_add, UInt32.ofNat_add,
    UInt32.ofNat_one]
  have := hc.count
  grind

/-- Room made for a key and the child after it by rebalancing the full node. -/
theorem insertRebalanced_spec {m pos : ℕ} {p : BPTreePath K} {node right root : BPTreeNode K}
    {x : K} (hctx : Context L top (h + 1) p m) (hn : Shaped L (h + 1) node)
    (hfull : node.numItems = L.kMaxInnerKeys) (hs : Surplus node right.treeCount)
    (hpos : pos ≤ node.numItems) (hright : Filled L h right)
    (hm : m = (inorder node).length + (inorder right).length)
    (hr : insertRebalanced L p node pos x right = some root) :
    Rooted L top root ∧ inorder root
      = pre p ++ ((node.upTo pos ++ x :: (inorder right ++ node.after pos)) ++ post p) := by
  cases p with
  | nil => cases hr
  | cons r rest =>
    obtain ⟨parent, pp⟩ := r
    have hf : Frame L (h + 1) parent pp := hctx.1
    set n := parent.setChild pp node with hndef
    have hfn : Frame L (h + 1) n pp := hf.setChild node
    have hchild : n.child pp = node := child_setChild_self hf.ne_null pp node
    simp only [insertRebalanced] at hr
    cases hreb : n.rebalanceChild L pp pos with
    | none =>
      rw [← hndef, hreb] at hr
      cases hr
    | some res =>
      obtain ⟨mm, q, jp⟩ := res
      have hR : Rebalanced L (h + 1) n pp pos right.treeCount mm q jp :=
        rebalanceChild_spec hfn (by rw [hchild]; exact hn) (by rw [hchild]; exact hfull)
          (by rw [hchild]; exact hs) (hpos.trans hfull.le) hreb
      obtain ⟨hq, hqlow⟩ := hR.shaped_child
      rw [← hndef, hreb] at hr
      simp only [Option.some.injEq] at hr
      -- the parent once the key is in
      set par := (if q ≠ pp then (mm.setChild pp ((mm.child pp).increaseTreeCount
          (-right.treeCount))).setChild q (((mm.child q).innerInsert jp x right).increaseTreeCount
            (right.treeCount + 1))
        else mm.setChild q (((mm.child q).innerInsert jp x right).increaseTreeCount 1)) with hpar
      have hin : Shaped L (h + 2) par ∧ inorder par = n.before pp
          ++ (((n.child pp).upTo pos ++ x :: (inorder right ++ (n.child pp).after pos))
            ++ n.after pp) := by
        -- the place stayed in the full child, or went over to a neighbour
        by_cases hqp : q = pp
        · subst hqp
          rw [hpar, if_neg (by simp)]
          have hins := inserted_innerInsert hq hR.ins_le hR.room x hright hR.surplus rfl
          exact hR.insert_same (hins.filled (by omega)) hins.keys
        · rw [hpar, if_pos hqp]
          have hins := inserted_innerInsert hq hR.ins_le hR.room x hright
            (hR.frame.others q hR.pos_le hqp).surplus (UInt32.zero_add _)
          refine hR.insert_other (Filled.of_surplus (hR.shaped.increaseTreeCount _)
            (by simpa using hR.low_le) ?_) (by simp) (hins.filled (by omega)) hins.keys
          rw [Surplus, treeCount_increaseTreeCount hR.shaped.ne_null hR.shaped.2.1, hR.surplus,
            inorder_increaseTreeCount]
          grind
      have hnum : par.numItems = parent.numItems := by
        rw [hpar]
        split <;> simp [hR.num, hndef]
      have hinner : par.innerTreeCount = parent.innerTreeCount := by
        rw [hpar]
        split <;> simp [hR.count, hndef]
      rw [hchild, hndef, before_setChild, after_setChild] at hin
      rw [← hr]
      exact writeBack_parent hctx hin.1 hnum hinner hin.2 (by rw [length_inserted hpos, hm])

/-! ### Splitting a full node around an insertion -/

section Split

variable {h pos : ℕ} {n : BPTreeNode K} {d : UInt32}

/-- A split node once the new key is in one of its halves: two nodes, the key between
them, and the keys of the three. -/
structure Halves (L : BPNodeLayout) (h : ℕ) (l right : BPTreeNode K) (keys : List K)
    (median : K) : Prop where
  left_filled : Filled L h l
  right_filled : Filled L h right
  keys_eq : inorder l ++ median :: inorder right = keys

variable {l right : BPTreeNode K} {x median : K} {b : List K}

theorem split_insert_left (hkeys : inorder n = inorder l ++ median :: inorder right)
    (hpos : pos ≤ l.numItems) (hn : pos ≤ n.numItems) (hup : l.upTo pos = n.upTo pos) :
    (l.upTo pos ++ x :: (b ++ l.after pos)) ++ median :: inorder right
      = n.upTo pos ++ x :: (b ++ n.after pos) := by
  rw [inorder_cut hn, inorder_cut hpos, hup, append_assoc] at hkeys
  rw [append_cancel_left hkeys, hup]
  simp

theorem split_insert_right {jp : ℕ} (hkeys : inorder n = inorder l ++ median :: inorder right)
    (hjp : jp ≤ right.numItems) (hn : pos ≤ n.numItems)
    (hup : inorder l ++ median :: right.upTo jp = n.upTo pos) :
    inorder l ++ median :: (right.upTo jp ++ x :: (b ++ right.after jp))
      = n.upTo pos ++ x :: (b ++ n.after pos) := by
  rw [inorder_cut hn, inorder_cut hjp, ← hup] at hkeys
  have hafter : n.after pos = right.after jp := by
    have : (inorder l ++ median :: right.upTo jp) ++ n.after pos
        = (inorder l ++ median :: right.upTo jp) ++ right.after jp := by simpa using hkeys
    exact append_cancel_left this
  rw [← hup, hafter]
  simp

/-- The two halves of a full node, and what comes of them once something is put in at a place of
the node. -/
theorem split_full (hL : L.Roomy) (hn : Shaped L h n) (hfull : n.numItems = L.cap h)
    (hd : Surplus n d) (hpos : pos ≤ n.numItems) (fresh : Bool) :
    let r := n.split (createNode fresh)
    let keys := n.upTo pos ++ x :: (b ++ n.after pos)
    (Shaped L h r.1 ∧ r.1.numItems = L.cap h / 2 ∧ Surplus r.1 d) ∧
      (Filled L h r.2.1 ∧ r.2.1.numItems = L.low h) ∧
      (pos ≤ r.1.numItems → ∀ {l}, Inserted L h r.1 pos x b l → Halves L h l r.2.1 keys r.2.2) ∧
      (¬ pos ≤ r.1.numItems → ∀ {l right}, Filled L h l → inorder l = inorder r.1 →
        Inserted L h r.2.1 (pos - r.1.numItems - 1) x b right → Halves L h l right keys r.2.2) := by
  have hcap := hL.cap h
  have hlow : L.low h = (L.cap h - 1) / 2 := rfl
  obtain ⟨hl, hr, hmed, hlc, hrc⟩ := split_spec hn (by omega) fresh
  intro r keys
  rw [hfull] at hl hr hmed
  have hkeys : inorder n = inorder r.1 ++ r.2.2 :: inorder r.2.1 := by
    have := interleave_split n.key n.sub (L.cap h / 2) (L.cap h - (L.cap h / 2 + 1)) 0
    rw [show L.cap h / 2 + 1 + (L.cap h - (L.cap h / 2 + 1)) = L.cap h by omega, Nat.zero_add]
      at this
    rw [hl.inorder_eq, hr.inorder_eq, hmed, inorder_eq, hfull, this]
  have hlnum : r.1.numItems = L.cap h / 2 := hl.num
  have hrnum : r.2.1.numItems = L.low h := by
    rw [hr.num, hlow]
    omega
  have hright : Filled L h r.2.1 := ⟨hr.shaped hn (by omega), hrnum.ge, hrc⟩
  refine ⟨⟨hl.shaped hn (by omega), hlnum, ?_⟩, ⟨hright, hrnum⟩, fun hle l hins => ?_,
    fun hgt l right hfilled hinorder hins => ?_⟩
  · rw [Surplus, hlc, hd, hkeys, length_append, length_cons, UInt32.ofNat_add,
      UInt32.ofNat_add, UInt32.ofNat_add]
    grind
  · have hup := hl.run.interleave_eq (a := 0) (x := pos) (by omega)
    rw [Nat.add_zero] at hup
    refine ⟨hins.filled (by omega), hright, ?_⟩
    rw [hins.keys]
    exact split_insert_left hkeys hle hpos hup
  · have hrun := hr.run.interleave_eq (a := 0) (x := pos - r.1.numItems - 1) (by omega)
    have hsplit := interleave_split n.key n.sub (L.cap h / 2) (pos - r.1.numItems - 1) 0
    rw [show L.cap h / 2 + 1 + (pos - r.1.numItems - 1) = pos by omega, Nat.zero_add] at hsplit
    rw [Nat.add_zero, Nat.add_zero] at hrun
    refine ⟨hfilled, hins.filled (by omega), ?_⟩
    rw [hinorder, hins.keys]
    refine split_insert_right hkeys (by omega) hpos ?_
    rw [upTo, upTo, hrun, hl.inorder_eq, hmed, hsplit]

/-- A full inner node split, and a key with the child after it put into a half.  The
surplus of the node, that child, goes along with the left half. -/
theorem innerSplit_spec (hL : L.Roomy) {child : BPTreeNode K} (hn : Shaped L (h + 1) n)
    (hfull : n.numItems = L.cap (h + 1)) (hs : Surplus n child.treeCount) (hpos : pos ≤ n.numItems)
    (hc : Filled L h child) (x : K) :
    let r := n.split (createNode false)
    let keys := n.upTo pos ++ x :: (inorder child ++ n.after pos)
    (pos ≤ r.1.numItems →
      Halves L (h + 1) ((r.1.innerInsert pos x child).increaseTreeCount 1) r.2.1 keys r.2.2) ∧
    (¬ pos ≤ r.1.numItems →
      Halves L (h + 1) (r.1.increaseTreeCount (-child.treeCount))
        ((r.2.1.innerInsert (pos - r.1.numItems - 1) x child).increaseTreeCount
          (child.treeCount + 1)) keys r.2.2) := by
  obtain ⟨⟨hl, hlnum, hlsur⟩, ⟨hr, hrnum⟩, hleft, hright⟩ := split_full hL hn hfull hs hpos false
  have hcap := hL.cap (h + 1)
  have hcapdef : L.cap (h + 1) = L.kMaxInnerKeys := rfl
  have hlowdef : L.low (h + 1) = (L.cap (h + 1) - 1) / 2 := rfl
  refine ⟨fun hle => hleft hle (inserted_innerInsert hl hle (by omega) x hc hlsur rfl),
    fun hgt => hright hgt (Filled.of_surplus (hl.increaseTreeCount _)
      (by rw [numItems_increaseTreeCount]; omega) ?_) (inorder_increaseTreeCount ..)
      (inserted_innerInsert hr.shaped (by omega) (by omega) x hc hr.surplus (UInt32.zero_add _))⟩
  rw [Surplus, treeCount_increaseTreeCount hl.ne_null hl.2.1, hlsur, inorder_increaseTreeCount]
  grind

end Split

/-! ### Up the path -/

theorem newRoot_spec {l right : BPTreeNode K} (hL : L.Roomy) (hl : Filled L h l)
    (hr : Filled L h right) (x : K) :
    let n := ((((createNode false).initSingle x).setChild 0 l).setChild 1 right).setTreeCount
      (l.treeCount + right.treeCount + 1)
    Rooted L (h + 1) n ∧ inorder n = inorder l ++ x :: inorder right := by
  intro n
  have h0 : n.child 0 = l := rfl
  have h1 : n.child 1 = right := rfl
  have hkeys : inorder n = inorder l ++ x :: inorder right := rfl
  refine ⟨⟨shaped_succ_iff.mpr ⟨by simp [n, createNode, initSingle, setKey, mapKeys, setNumItems,
    setChild, mapChildren, setTreeCount], rfl, ?_, fun i hi => ?_⟩, le_rfl, ?_⟩, hkeys⟩
  · have : 3 ≤ L.kMaxInnerKeys := hL.2
    show 1 ≤ L.kMaxInnerKeys
    omega
  · have hi' : i ≤ 1 := hi
    rcases Nat.le_one_iff_eq_zero_or_eq_one.mp hi' with rfl | rfl
    · exact hl
    · exact hr
  · show l.treeCount + right.treeCount + 1 = _
    rw [hkeys, hl.count, hr.count, length_append, length_cons, UInt32.ofNat_add,
      UInt32.ofNat_add, UInt32.ofNat_one]
    grind

/-- The loop of `InsertToFullLeaf`: `node` and `right`, with `x` between them, take the
place of the node below the path. -/
theorem insertUp_spec (hL : L.Roomy) : ∀ {p : BPTreePath K} {h m : ℕ}
    {node right : BPTreeNode K} {x : K} {keys : List K} {t : BPTree K}, Context L top h p m →
    Halves L h node right keys x → keys.length = m + 1 →
    Grown L top t (insertUp L p node right x t) (pre p ++ (keys ++ post p)) := by
  intro p
  induction p with
  | nil =>
    rintro h m node right x keys t hctx ⟨hnode, hright, rfl⟩ -
    obtain rfl : h = top := hctx
    obtain ⟨hroot, hkeys⟩ := newRoot_spec hL hnode hright x
    refine ⟨⟨1, hroot, rfl⟩, ?_, rfl⟩
    rw [pre, post, nil_append, append_nil]
    exact hkeys
  | cons r rest ih =>
    rintro h m child right x keys t hctx ⟨hchild, hright, rfl⟩ hm
    obtain ⟨n, pos⟩ := r
    obtain ⟨hf, h1, hmin, hrc, hrest⟩ := hctx
    set node := n.setChild pos child with hnode
    have hself : node.child pos = child := child_setChild_self hf.ne_null pos child
    have hfn : Frame L h node pos := hf.setChild child
    have hshaped : Shaped L (h + 1) node := hfn.shaped (by rw [hself]; exact hchild)
    have hpos : pos ≤ node.numItems := hfn.pos_le
    have hlen := length_inorder_setChild hf child
    have htotal : total ⟨n, pos⟩ m = (inorder node).length + (inorder right).length := by
      rw [length_append, length_cons] at hm
      rw [hlen, total, total]
      omega
    -- the count of the node still includes what went over to `right`
    have hsur : Surplus node right.treeCount := by
      rw [Surplus, treeCount_of_inner hfn.inner, hnode, innerTreeCount_setChild, hrc, htotal,
        UInt32.ofNat_add, hright.count]
    -- the keys of the result, seen from the node
    have hgoal : pre (⟨n, pos⟩ :: rest) ++ ((inorder child ++ x :: inorder right)
        ++ post (⟨n, pos⟩ :: rest))
        = pre rest ++ ((node.upTo pos ++ x :: (inorder right ++ node.after pos)) ++ post rest) := by
      rw [pre, post, upTo_eq, sub_of_inner hfn.inner, hself, hnode, before_setChild, after_setChild]
      simp
    rw [hgoal]
    simp only [insertUp]
    by_cases hroom : node.numItems < L.kMaxInnerKeys
    · rw [if_pos hroom]
      exact (inserted_innerInsert hshaped hpos hroom x hright hsur rfl).grown hrest hpos
        (fun hne => (hmin hne).trans_eq (numItems_setChild n pos child).symm) htotal t
    · rw [if_neg hroom]
      have hfull : node.numItems = L.cap (h + 1) := by
        have : node.numItems ≤ L.cap (h + 1) := hshaped.numItems_le
        have hc : L.cap (h + 1) = L.kMaxInnerKeys := rfl
        omega
      cases hreb : insertRebalanced L rest node pos x right with
      | some root =>
        obtain ⟨hr1, hr2⟩ := insertRebalanced_spec hrest hshaped hfull hsur hpos hright htotal hreb
        exact Grown.of_root hr1 hr2
      | none =>
        obtain ⟨hleft, hrt⟩ := innerSplit_spec hL hshaped hfull hsur hpos hright x
        rcases hsp : node.split (createNode false) with ⟨l, nextRight, median⟩
        rw [hsp] at hleft hrt
        simp only at hleft hrt ⊢
        have hlength := htotal ▸ length_inserted (x := x) (b := inorder right) hpos
        -- whichever half has the new key, the pair of halves is handed on
        split
        · next hle =>
          exact (ih hrest (hleft hle) hlength).of_numNodes
        · next hle =>
          exact (ih hrest (hrt hle) hlength).of_numNodes

/-! ### The leaf -/

section Leaf

variable {top m pos : ℕ} {leaf : BPTreeNode K} {above : BPTreePath K}

theorem inserted_leafInsert {n : BPTreeNode K} (hn : Shaped L 0 n) {i : ℕ} (hi : i ≤ n.numItems)
    (hroom : n.numItems < L.kMaxLeafKeys) (x : K) : Inserted L 0 n i x [] (n.leafInsert i x) := by
  obtain ⟨hshaped, hnum, hkeys⟩ := leafInsert_spec hn hi hroom x
  exact ⟨hshaped, hnum, hkeys, surplus_of_leaf hshaped.1⟩

theorem leafSplit_spec (hL : L.Roomy) (hleaf : Shaped L 0 leaf)
    (hfull : leaf.numItems = L.kMaxLeafKeys) (hpos : pos ≤ leaf.numItems) (x : K) :
    let r := leaf.split (createNode true)
    let keys := leaf.upTo pos ++ x :: ([] ++ leaf.after pos)
    (pos ≤ r.1.numItems → Halves L 0 (r.1.leafInsert pos x) r.2.1 keys r.2.2) ∧
    (¬ pos ≤ r.1.numItems →
      Halves L 0 r.1 (r.2.1.leafInsert (pos - r.1.numItems - 1) x) keys r.2.2) := by
  obtain ⟨⟨hl, hlnum, hlsur⟩, ⟨hr, hrnum⟩, hleft, hright⟩ :=
    split_full hL hleaf hfull (surplus_of_leaf hleaf.1) hpos true
  have hcap := hL.cap 0
  have hcapdef : L.cap 0 = L.kMaxLeafKeys := rfl
  have hlowdef : L.low 0 = (L.cap 0 - 1) / 2 := rfl
  exact ⟨fun hle => hleft hle (inserted_leafInsert hl hle (by omega) x),
    fun hgt => hright hgt (Filled.of_surplus hl (by omega) hlsur) rfl
      (inserted_leafInsert hr.shaped (by omega) (by omega) x)⟩

theorem rebalanceLeafAndInsert_spec {root : BPTreeNode K} {x : K} (hctx : Context L top 0 above m)
    (hleaf : Shaped L 0 leaf) (hm : m = (inorder leaf).length)
    (hslot : ∀ r rest, above = r :: rest → r.node.child r.pos = leaf)
    (hfull : leaf.numItems = L.kMaxLeafKeys) (hpos : pos ≤ leaf.numItems)
    (hr : rebalanceLeafAndInsert L x pos above = some root) :
    Rooted L top root ∧
      inorder root = pre above ++ ((leaf.upTo pos ++ x :: leaf.after pos) ++ post above) := by
  cases above with
  | nil => cases hr
  | cons r rest =>
    obtain ⟨parent, pp⟩ := r
    have hf : Frame L 0 parent pp := hctx.1
    have hchild : parent.child pp = leaf := hslot _ _ rfl
    simp only [rebalanceLeafAndInsert] at hr
    cases hreb : parent.rebalanceChild L pp pos with
    | none =>
      rw [hreb] at hr
      cases hr
    | some res =>
      obtain ⟨mm, q, jp⟩ := res
      have hR : Rebalanced L 0 parent pp pos 0 mm q jp :=
        rebalanceChild_spec hf (by rw [hchild]; exact hleaf) (by rw [hchild]; exact hfull)
          (by rw [hchild]; exact surplus_of_leaf hleaf.1)
          (hpos.trans hfull.le) hreb
      obtain ⟨hq, hqlow⟩ := hR.shaped_child
      have hins := inserted_leafInsert hq hR.ins_le hR.room x
      rw [hreb] at hr
      simp only [Option.some.injEq] at hr
      set par := mm.setChild q ((mm.child q).leafInsert jp x) with hpar
      have hin : Shaped L 1 par ∧ inorder par = parent.before pp
          ++ (((parent.child pp).upTo pos ++ x :: ([] ++ (parent.child pp).after pos))
            ++ parent.after pp) := by
        by_cases hqp : q = pp
        · subst hqp
          exact hR.insert_same (hins.filled (by omega)) hins.keys
        · have hb : Filled L 0 (mm.child pp) :=
            Filled.of_surplus hR.shaped hR.low_le hR.surplus
          have := hR.insert_other (r := []) hb rfl (hins.filled (by omega)) hins.keys
          rwa [setChild_child_self] at this
      rw [hchild] at hin
      rw [← hr]
      exact writeBack_parent hctx hin.1 (by simp [hpar, hR.num]) (by simp [hpar, hR.count]) hin.2
        (hm ▸ length_inserted (b := []) hpos)

section

variable (hL : L.Roomy) (hctx : Context L top 0 above m) (hleaf : Shaped L 0 leaf)
include hL hctx hleaf

theorem insertToFullLeaf_spec (hm : m = (inorder leaf).length)
    (hslot : ∀ r rest, above = r :: rest → r.node.child r.pos = leaf)
    (hfull : leaf.numItems = L.kMaxLeafKeys) (hpos : pos ≤ leaf.numItems) (t : BPTree K) (x : K) :
    Grown L top t (insertToFullLeaf L t x leaf pos above)
      (pre above ++ ((leaf.upTo pos ++ x :: leaf.after pos) ++ post above)) := by
  simp only [insertToFullLeaf]
  cases hreb : rebalanceLeafAndInsert L x pos above with
  | some root =>
    obtain ⟨h1, h2⟩ := rebalanceLeafAndInsert_spec hctx hleaf hm hslot hfull hpos hreb
    exact Grown.of_root h1 h2
  | none =>
    -- no room next to the leaf: it is split, and the median goes up
    obtain ⟨hleft, hrt⟩ := leafSplit_spec hL hleaf hfull hpos x
    rcases hsp : leaf.split (createNode true) with ⟨l, right, median⟩
    rw [hsp] at hleft hrt
    simp only at hleft hrt ⊢
    have hlength := hm ▸ length_inserted (x := x) (b := []) hpos
    split
    · next hle =>
      exact (insertUp_spec hL hctx (hleft hle) hlength).of_numNodes
    · next hle =>
      exact (insertUp_spec hL hctx (hrt hle) hlength).of_numNodes

theorem insertAt_spec (hlow : above ≠ [] → L.low 0 ≤ leaf.numItems) (hm : m = (inorder leaf).length)
    (hslot : ∀ r rest, above = r :: rest → r.node.child r.pos = leaf) (hpos : pos ≤ leaf.numItems)
    (t : BPTree K) (x : K) :
    Grown L top t
      (if leaf.numItems = L.kMaxLeafKeys then insertToFullLeaf L t x leaf pos above
        else { t with
          root := writeBack (increaseSubtreeCounts above 1) (leaf.leafInsert pos x) })
      (pre above ++ ((leaf.upTo pos ++ x :: leaf.after pos) ++ post above)) := by
  split
  · next hfull =>
    exact insertToFullLeaf_spec hL hctx hleaf hm hslot hfull hpos t x
  · next hfull =>
    have hroom : leaf.numItems < L.kMaxLeafKeys := lt_of_le_of_ne hleaf.2 hfull
    exact (inserted_leafInsert hleaf hpos hroom x).grown hctx hpos hlow hm t

end

end Leaf

end BPTree
