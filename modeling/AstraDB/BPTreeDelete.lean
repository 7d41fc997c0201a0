/-
Deletion from a B+tree.

* `deleteUp_spec` — repairing the node that lost a key, and its ancestors, by merging
  or rebalancing, up to a root that may shrink;
* `deletePath_spec` — `Delete(path)` takes out the key the path stands on.
-/
import AstraDB.BPTree
import AstraDB.BPTreeWalk

set_option linter.unusedSectionVars false

open BPTreeNode BPTreePath

namespace BPTree

variable {K : Type} [Inhabited K] {L : BPNodeLayout}

/-- A tree that holds `keys`, shrunk from one of height `top`. -/
structure Shrunk (L : BPNodeLayout) (top : ℕ) (t t' : BPTree K) (keys : List K) : Prop where
  count_eq : t'.count = t.count
  tree : (keys = [] ∧ t'.root = .null ∧ top = 0 ∧ t'.height = t.height - 1) ∨
    (inorder t'.root = keys ∧
      ((Rooted L top t'.root ∧ t'.height = t.height) ∨
        ∃ top', top = top' + 1 ∧ Rooted L top' t'.root ∧ t'.height = t.height - 1))

theorem Shrunk.of_root {top : ℕ} {t : BPTree K} {root : BPTreeNode K} {keys : List K}
    (hr : Rooted L top root) (hk : inorder root = keys) :
    Shrunk L top t { t with root := root } keys :=
  ⟨rfl, .inr ⟨hk, .inl ⟨hr, rfl⟩⟩⟩

theorem deleteUp_nil_spec (hL : L.Roomy) {top : ℕ} {node : BPTreeNode K} {t : BPTree K}
    (hn : Shaped L top node) (hs : Surplus node 0) :
    Shrunk L top t (deleteUp L [] node t) (inorder node) := by
  rw [deleteUp, hn.minItems_eq]
  have hcap := hL.cap top
  by_cases hzero : node.numItems = 0
  · rw [if_pos ⟨by omega, hzero⟩]
    refine ⟨rfl, ?_⟩
    cases top with
    | zero =>
      have hleaf : node.isLeaf = true := hn.1
      refine .inl ⟨?_, by simp [hleaf], rfl, rfl⟩
      rw [← List.length_eq_zero_iff, length_inorder_of_leaf hleaf, hzero]
    | succ top =>
      have hleaf : node.isLeaf = false := hn.2.1
      have hchild := hn.child (i := 0) (Nat.zero_le _)
      refine .inr ⟨?_, .inr ⟨top, rfl, ?_, rfl⟩⟩
      · rw [if_neg (by simp [hleaf]), inorder_eq node, hzero, interleave_zero, sub_of_inner hleaf]
      · rw [if_neg (by simp [hleaf])]
        exact ⟨hchild.shaped, (hL.low_pos top).trans hchild.low_le, hchild.count⟩
  · rw [if_neg fun h => hzero h.2]
    exact Shrunk.of_root ⟨hn, by omega, surplus_zero_iff.mp hs⟩ rfl

theorem deleteUp_spec (hL : L.Roomy) {top : ℕ} : ∀ {p : BPTreePath K} {h m : ℕ}
    {node : BPTreeNode K} {t : BPTree K}, Context L top h p (m + 1) → Shaped L h node →
    Surplus node 0 → m = (inorder node).length →
    Shrunk L top t (deleteUp L p node t) (pre p ++ (inorder node ++ post p)) := by
  intro p
  induction p with
  | nil =>
    intro h m node t hctx hn hs _
    obtain rfl : h = top := hctx
    rw [pre, post, List.nil_append, List.append_nil]
    exact deleteUp_nil_spec hL hn hs
  | cons r rest ih =>
    intro h m node t hctx hn hs hm
    have hctx' := hctx
    obtain ⟨parent, pos⟩ := r
    obtain ⟨hf, h1, hmin, hrc, hrest⟩ := hctx
    have hcap := hL.cap h
    -- lowering a count by one, also when it has wrapped around
    have hone : ∀ a : ℕ, UInt32.ofNat (a + 1) + (-1) = UInt32.ofNat a := fun a => by
      rw [UInt32.ofNat_add, UInt32.ofNat_one]
      grind
    have htotal : total ⟨parent, pos⟩ (m + 1) = total ⟨parent, pos⟩ m + 1 := by
      rw [total, total]
      omega
    simp only [deleteUp]
    rw [hn.minItems_eq]
    split
    · next hweak =>
      have hfn : Frame L h (parent.setChild pos node) pos := hf.setChild node
      have hself := child_setChild_self hf.ne_null pos node
      obtain ⟨g1, g2, g3, g4⟩ := mergeOrRebalanceChild_spec hL hfn (by rw [hself]; exact hn)
        (by rw [hself]; exact hs) (by rw [hself]; exact hweak) (by rw [numItems_setChild]; exact h1)
      have hlen := length_inorder_setChild hf node
      rcases hmr : (parent.setChild pos node).mergeOrRebalanceChild L pos with ⟨par, retired⟩
      rw [hmr] at g1 g2 g3 g4
      simp only [numItems_setChild, innerTreeCount_setChild] at g1 g2 g3 g4 ⊢
      have hlen' : (inorder par).length = total ⟨parent, pos⟩ m := by rw [g2, hlen, hm]
      have hsur : Surplus (par.increaseTreeCount (-1)) 0 := by
        rw [Surplus, treeCount_increaseTreeCount g1.ne_null g1.2.1, treeCount_of_inner g1.2.1, g3,
          hrc, htotal, hone, inorder_increaseTreeCount, hlen', UInt32.add_zero]
      have hkeys : pre (⟨parent, pos⟩ :: rest) ++ (inorder node ++ post (⟨parent, pos⟩ :: rest))
          = pre rest ++ (inorder (par.increaseTreeCount (-1)) ++ post rest) := by
        rw [inorder_increaseTreeCount, g2, hfn.inorder_eq, hself, before_setChild, after_setChild,
          pre, post]
        simp
      rw [hkeys]
      have hmin' : rest ≠ [] → L.low (h + 1) ≤ parent.numItems := hmin
      have h1' : 1 ≤ parent.numItems := h1
      cases retired with
      | true =>
        -- the parent has lost a key in turn
        rw [if_pos rfl]
        have key := ih (t := { t with numNodes := t.numNodes - 1 })
          (m := total ⟨parent, pos⟩ m) (htotal ▸ hrest) (g1.increaseTreeCount (-1)) hsur
          (by rw [inorder_increaseTreeCount, hlen'])
        exact ⟨key.count_eq, key.tree⟩
      | false =>
        -- keys were moved, none lost: only the counts are left to lower
        rw [if_neg (by simp)]
        rw [if_neg (by simp), Nat.sub_zero] at g4
        have key := writeBack_spec hrest (g1.increaseTreeCount (-1)) (d := -1)
          (by rw [numItems_increaseTreeCount, g4]; exact h1')
          (fun hne => by rw [numItems_increaseTreeCount, g4]; exact hmin' hne) hsur
          (by rw [htotal, hone, inorder_increaseTreeCount, hlen'])
        exact Shrunk.of_root key.1 key.2
    · have hlowdef : L.low h = (L.cap h - 1) / 2 := rfl
      have key := writeBack_spec hctx' hn (d := -1) (by omega) (fun _ => by omega) hs
        (by rw [hone, hm])
      exact Shrunk.of_root key.1 key.2

/-- A record of a context may be exchanged for one that looks the same from outside. -/
theorem Context.replace {top : ℕ} {r r' : BPTreeRecord K} {rest : BPTreePath K}
    (hf : ∀ h, Frame L h r.node r.pos → Frame L h r'.node r'.pos)
    (hnum : r'.node.numItems = r.node.numItems)
    (hcount : r'.node.innerTreeCount = r.node.innerTreeCount) (htotal : ∀ m, total r' m = total r m) :
    ∀ {dug : BPTreePath K} {h m : ℕ}, Context L top h (dug ++ r :: rest) m →
      Context L top h (dug ++ r' :: rest) m := by
  intro dug
  induction dug with
  | nil =>
    rintro h m ⟨h1, h2, h3, h4, h5⟩
    refine ⟨hf h h1, by rw [hnum]; exact h2, fun hne => by rw [hnum]; exact h3 hne, ?_, ?_⟩
    · rw [hcount, htotal]
      exact h4
    · rw [htotal]
      exact h5
  | cons s dug ih =>
    rintro h m ⟨h1, h2, h3, h4, h5⟩
    exact ⟨h1, h2, fun _ => h3 (by simp), h4, ih h5⟩

section Path

variable {root : BPTreeNode K} {top : ℕ} {rest : BPTreePath K} {node : BPTreeNode K} {pos : ℕ}

theorem deletePath_leaf_spec (hL : L.Roomy) (hroot : Rooted L top root) (t : BPTree K)
    (hb : Below root top 0 rest node) (hpos : pos < node.numItems) :
    Shrunk L top { t with count := t.count - 1 }
      (deleteUp L rest (node.shiftLeft pos false) { t with count := t.count - 1 })
      (pre rest ++ ((node.upTo pos ++ node.after (pos + 1)) ++ post rest)) := by
  have hst := hb.standing hL hroot
  obtain ⟨g1, g2, g3⟩ := shiftLeft_leaf_spec hst.shaped hpos false
  have hlen : (inorder node).length = (inorder (node.shiftLeft pos false)).length + 1 := by
    rw [length_inorder_of_leaf hst.shaped.1, length_inorder_of_leaf g1.1, g2]
    omega
  rw [← g3]
  exact deleteUp_spec hL (hlen ▸ hst.context) g1 (surplus_of_leaf g1.1) rfl

/-- Deleting a key of an inner node: its predecessor, the last key of a leaf, takes
its place. -/
theorem deletePath_inner_spec (hL : L.Roomy) (hroot : Rooted L top root) (htop : top < kMaxDepth)
    (t : BPTree K) {h : ℕ} (hb : Below root top (h + 1) rest node) (hpos : pos < node.numItems) :
    ∃ t', deletePath L t (⟨node, pos⟩ :: rest) = some t' ∧
      Shrunk L top { t with count := t.count - 1 } t' (left (⟨node, pos⟩ :: rest)
        ++ (node.sub (pos + 1) ++ node.after (pos + 1) ++ post rest)) := by
  have hst := hb.standing hL hroot
  have hleaf : node.isLeaf = false := hst.shaped.2.1
  have hne : node ≠ .null := hst.shaped.ne_null
  obtain ⟨lf, dug, hdig, hbelow, hpost, hpre⟩ := digRightLoop_spec hL hroot htop hb hpos.le
  have hlst := hbelow.standing hL hroot
  have h1 := hlst.pos
  obtain ⟨g1, g2, g3⟩ := leafEraseRight_spec hlst.shaped
  set x := lf.key (lf.numItems - 1) with hx
  have hend : inorder lf = inorder lf.leafEraseRight ++ [x] := by
    rw [g3, hx]
    exact inorder_last_of_leaf hlst.shaped.1 h1
  have hlen : (inorder lf).length = (inorder lf.leafEraseRight).length + 1 := by
    rw [hend, List.length_append]
    rfl
  -- the node with its new separator
  have hbefore : (node.setKey pos x).before pos = node.before pos :=
    before_congr (by simp) (fun j hj => key_setKey_of_ne node x (by omega)) (fun j _ => by simp)
  have hafter : (node.setKey pos x).after pos
      = x :: (node.sub (pos + 1) ++ node.after (pos + 1)) := by
    have hsub : (node.setKey pos x).sub = node.sub := by
      funext j
      simp [sub]
    have htail : (node.setKey pos x).after (pos + 1) = node.after (pos + 1) :=
      after_congr (by simp) (by simp) (fun j hj => key_setKey_of_ne node x (by omega))
        (fun j _ => by simp)
    rw [after_eq_cons (by simpa using hpos), key_setKey_self hne, hsub, htail]
  -- seen from the leaf below, the path is as before
  have hctx : Context L top 0 (dug ++ ⟨node.setKey pos x, pos⟩ :: rest) (inorder lf).length := by
    refine Context.replace (r := ⟨node, pos⟩) (fun h hf => hf.setKey pos x) (by simp) (by simp)
      (fun m => ?_) hlst.context
    simp only [total, hbefore, hafter, after_eq_cons hpos, List.length_cons]
  have key := deleteUp_spec hL (t := { t with count := t.count - 1 }) (hlen ▸ hctx) g1
    (surplus_of_leaf g1.1) rfl
  refine ⟨deleteUp L (dug ++ ⟨node.setKey pos x, pos⟩ :: rest) lf.leafEraseRight
    { t with count := t.count - 1 }, ?_, ?_⟩
  · have hdr : digRight (⟨node, pos⟩ :: rest)
        = some (⟨lf, lf.numItems - 1⟩ :: (dug ++ ⟨node, pos⟩ :: rest)) := by
      rw [digRight, hdig]
      rfl
    have htake : (dug ++ (⟨node, pos⟩ : BPTreeRecord K) :: rest).take
        ((dug ++ (⟨node, pos⟩ : BPTreeRecord K) :: rest).length - (rest.length + 1)) = dug := by
      rw [List.length_append, List.length_cons, Nat.add_sub_cancel, List.take_left']
      rfl
    simp only [deletePath]
    rw [if_neg (by simp [hleaf]), hdr]
    simp only [Option.bind_eq_bind, Option.bind_some]
    rw [htake]
  · have hkeys : pre (dug ++ ⟨node.setKey pos x, pos⟩ :: rest) ++ (inorder lf.leafEraseRight
        ++ post (dug ++ ⟨node.setKey pos x, pos⟩ :: rest))
        = left (⟨node, pos⟩ :: rest)
          ++ (node.sub (pos + 1) ++ node.after (pos + 1) ++ post rest) := by
      rw [pre_append, post_append, hpost, pre, post, left, upTo_eq, sub_of_inner hleaf, ← hpre, hend,
        hbefore, hafter]
      simp
    rw [← hkeys]
    exact key

theorem deletePath_spec (hL : L.Roomy) (hroot : Rooted L top root) (htop : top < kMaxDepth)
    (t : BPTree K) {p : BPTreePath K} (hp : OnKey root top p) {x : K} {ys : List K}
    (hr : right p = x :: ys) :
    ∃ t', deletePath L t p = some t' ∧
      Shrunk L top { t with count := t.count - 1 } t' (left p ++ ys) := by
  cases p with
  | nil => exact hp.elim
  | cons r rest =>
    obtain ⟨node, pos⟩ := r
    obtain ⟨⟨h, hb⟩, hpos⟩ := hp
    have hst := hb.standing hL hroot
    have hys : ys = node.sub (pos + 1) ++ node.after (pos + 1) ++ post rest := by
      rw [right, after_eq_cons hpos] at hr
      exact (List.cons.inj hr).2.symm
    rw [hys]
    cases h with
    | zero =>
      have hleaf := hst.shaped.1
      refine ⟨_, by simp only [deletePath]; rw [if_pos hleaf], ?_⟩
      have := deletePath_leaf_spec hL hroot t hb hpos
      rw [left, sub_of_leaf hleaf]
      simpa using this
    | succ h => exact deletePath_inner_spec hL hroot htop t hb hpos

end Path

end BPTree
