/-
The path above a node, as a context.

`Context L top h p m` says that `p` leads from the root of a tree of height `top` to
a node of height `h`, and that everything off the path is as it should be, with
counts that take the node to hold `m` keys.  `pre p` and `post p` are the keys of the
tree before and after that node.

* `writeBack_spec` — writing a node back and correcting the counts of its ancestors
  gives a tree with the keys `pre p`, those of the node, `post p`.
-/
import AstraDB.BPTreePath
import AstraDB.BPTreeParent

open BPTreeNode

variable {K : Type} [Inhabited K] {L : BPNodeLayout}

/-- The root of a tree that holds keys. -/
structure BPTreeNode.Rooted (L : BPNodeLayout) (top : ℕ) (n : BPTreeNode K) : Prop where
  shaped : Shaped L top n
  pos : 1 ≤ n.numItems
  count : n.treeCount = UInt32.ofNat (inorder n).length

namespace BPTreePath

/-- The keys before the node below the path. -/
def pre : BPTreePath K → List K
  | [] => []
  | r :: rest => pre rest ++ r.node.before r.pos

/-- The keys after the node below the path. -/
def post : BPTreePath K → List K
  | [] => []
  | r :: rest => r.node.after r.pos ++ post rest

/-- How many keys the node of a record has when the child it points to has `m`. -/
def total (r : BPTreeRecord K) (m : ℕ) : ℕ :=
  (r.node.before r.pos).length + m + (r.node.after r.pos).length

def Context (L : BPNodeLayout) (top : ℕ) : ℕ → BPTreePath K → ℕ → Prop
  | h, [], _ => h = top
  | h, r :: rest, m => Frame L h r.node r.pos ∧ 1 ≤ r.node.numItems ∧
      (rest ≠ [] → L.low (h + 1) ≤ r.node.numItems) ∧
      r.node.innerTreeCount = UInt32.ofNat (total r m) ∧ Context L top (h + 1) rest (total r m)

theorem Context.length_add {top : ℕ} : ∀ {p : BPTreePath K} {h m : ℕ},
    Context L top h p m → p.length + h = top := by
  intro p
  induction p with
  | nil =>
    intro h m hc
    simpa [Context] using hc
  | cons r rest ih =>
    intro h m hc
    have := ih hc.2.2.2.2
    rw [List.length_cons]
    omega

theorem length_inorder_setChild {h : ℕ} {r : BPTreeRecord K} (hf : Frame L h r.node r.pos)
    (c : BPTreeNode K) :
    (inorder (r.node.setChild r.pos c)).length = total r (inorder c).length := by
  rw [(hf.setChild c).inorder_eq, child_setChild_self hf.ne_null, before_setChild, after_setChild,
    List.length_append, List.length_append, total]
  omega

/-- Writing `node` back, with `d` more keys than the counts know of. -/
theorem writeBack_spec {top : ℕ} {d : UInt32} : ∀ {p : BPTreePath K} {h m : ℕ}
    {node : BPTreeNode K}, Context L top h p m → Shaped L h node → 1 ≤ node.numItems →
    (p ≠ [] → L.low h ≤ node.numItems) → Surplus node 0 →
    UInt32.ofNat m + d = UInt32.ofNat (inorder node).length →
    Rooted L top (writeBack (increaseSubtreeCounts p d) node) ∧
      inorder (writeBack (increaseSubtreeCounts p d) node) = pre p ++ (inorder node ++ post p) := by
  intro p
  induction p with
  | nil =>
    intro h m node hc hs h1 _ hcount _
    obtain rfl : h = top := hc
    exact ⟨⟨hs, h1, surplus_zero_iff.mp hcount⟩,
      by simp [writeBack, increaseSubtreeCounts, pre, post]⟩
  | cons r rest ih =>
    intro h m node hc hs _ hlow hcount hd
    obtain ⟨hf, hpos, hmin, hrc, hrest⟩ := hc
    -- the parent with the node in its slot is again a node with `d` keys more than known
    set n := (r.node.increaseTreeCount d).setChild r.pos node with hn
    have hf' := hf.increaseTreeCount d
    have hchild : n.child r.pos = node := child_setChild_self hf'.ne_null r.pos node
    have hnode : Filled L h node := Filled.of_surplus hs (hlow (by simp)) hcount
    have hfn : Frame L h n r.pos := hf'.setChild node
    have hshaped : Shaped L (h + 1) n := hfn.shaped (by rw [hchild]; exact hnode)
    have hkeys : inorder n = r.node.before r.pos ++ (inorder node ++ r.node.after r.pos) := by
      rw [hfn.inorder_eq, hchild, hn, before_setChild, after_setChild, before_increaseTreeCount,
        after_increaseTreeCount]
    have hlen : UInt32.ofNat (total r m) + d = UInt32.ofNat (inorder n).length := by
      rw [hkeys, List.length_append, List.length_append, total, UInt32.ofNat_add, UInt32.ofNat_add,
        UInt32.ofNat_add, UInt32.ofNat_add, ← hd]
      grind
    have hsur : Surplus n 0 := by
      rw [Surplus, treeCount_of_inner hfn.inner, hn, innerTreeCount_setChild,
        innerTreeCount_increaseTreeCount hf.ne_null, hrc, hlen, UInt32.add_zero]
    have key := ih hrest hshaped (by simpa [hn] using hpos) (fun hne => by simpa [hn] using hmin hne)
      hsur hlen
    refine ⟨key.1, ?_⟩
    rw [pre, post]
    refine key.2.trans ?_
    rw [hkeys]
    simp

end BPTreePath
