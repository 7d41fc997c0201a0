/-
Clearing a B+tree.

`Clear` walks over the tree without recursion and destroys each node when it leaves it for good.
`below n a` are the accesses to the nodes below `n`, itself at the address `a`, as a recursive
function would make them.  From one node to another, the loop `Sweeps` with certain accesses; the
sweeps of the children of a node compose to those below it.

* `clear_iff` — each node is destroyed once, after its children, and not accessed again.
-/
import AstraDB.BPTree
import AstraDB.BPTreeWalk

open List

set_option linter.unusedSectionVars false

open BPTreeNode BPTreePath

namespace BPTree

variable {K : Type} [Inhabited K] {L : BPNodeLayout} {h pos : ℕ} {n : BPTreeNode K}
  {p : BPTreePath K}

/-- For each child: it is read, those below it are destroyed, and then it is. -/
def below : BPTreeNode K → List ℕ → List Access
  | .null, _ => []
  | .mk leaf n _ _ c, a => if leaf then [] else (range' 0 (n + 1)).flatMap fun i =>
      .read a :: .read (i :: a) :: (below (c i) (i :: a) ++ [.destroy (i :: a), .read a])

/-- The part of `below` for a child. -/
def sweep (n : BPTreeNode K) (a : List ℕ) (i : ℕ) : List Access :=
  .read a :: .read (i :: a) :: (below (n.child i) (i :: a) ++ [.destroy (i :: a), .read a])

theorem below_of_leaf (hn : n.isLeaf = true) (a : List ℕ) : below n a = [] := by
  cases n with
  | null => rfl
  | mk leaf m k t c => exact if_pos hn

theorem below_of_inner (hne : n ≠ .null) (hn : n.isLeaf = false) (a : List ℕ) :
    below n a = (range' 0 (n.numItems + 1)).flatMap (sweep n a) := by
  cases n with
  | null => exact absurd rfl hne
  | mk leaf m k t c => exact if_neg (ne_true_of_eq_false hn)

/-- From the state before the destruction of `n`, the loop of `Clear` comes to the one before the
destruction of `n'`, with these accesses on the way. -/
def Sweeps (acc : List Access) (n : BPTreeNode K) (p : BPTreePath K) (n' : BPTreeNode K)
    (p' : BPTreePath K) : Prop :=
  ∀ f, clearLoop (f + acc.countP Access.isDestroy) n p = (clearLoop f n' p').map (acc ++ ·)

theorem Sweeps.trans {acc acc' : List Access} {n' n'' : BPTreeNode K} {p' p'' : BPTreePath K}
    (h : Sweeps acc n p n' p') (h' : Sweeps acc' n' p' n'' p'') :
    Sweeps (acc ++ acc') n p n'' p'' := by
  intro f
  rw [countP_append, Nat.add_comm (countP _ acc), ← Nat.add_assoc, h, h', Option.map_map]
  congr 1
  funext l
  simp

/-- `deep_left(pos)` comes to a leaf, from where the loop comes to the child. -/
def Digs (n : BPTreeNode K) (p : BPTreePath K) (pos : ℕ) : Prop :=
  ∃ lf q reads acc, deepLeft n pos p = some (lf, q, reads) ∧ reads.countP Access.isDestroy = 0 ∧
    reads ++ acc = .read (address p) :: .read (pos :: address p) ::
      below (n.child pos) (pos :: address p) ∧
    Sweeps acc lf q (n.child pos) (⟨n, pos⟩ :: p)

theorem countP_destroy_read (a b : List ℕ) (l : List Access) :
    (Access.destroy a :: .read b :: l).countP Access.isDestroy = l.countP Access.isDestroy + 1 := by
  rw [countP_cons, countP_cons]
  rfl

theorem sweeps_children (hdigs : ∀ pos ≤ n.numItems, Digs n p pos) :
    ∀ {d pos : ℕ}, pos + d = n.numItems →
      Sweeps (.destroy (pos :: address p) :: .read (address p) ::
        (range' (pos + 1) d).flatMap (sweep n (address p))) (n.child pos) (⟨n, pos⟩ :: p) n p := by
  intro d
  induction d with
  | zero =>
    intro pos hpos f
    show clearLoop (f + 1) _ _ = _
    rw [clearLoop]
    simp only
    rw [if_neg (by omega)]
    cases clearLoop f n p <;> rfl
  | succ d ih =>
    intro pos hpos f
    -- destroy child `pos`, sweep below child `pos + 1`, and go on from there
    obtain ⟨lf, q, reads, acc, hdeep, hreads, hacc, hsweep⟩ := hdigs (pos + 1) (by omega)
    have hrest := (hsweep.trans (ih (show pos + 1 + d = n.numItems by omega))) f
    have hlist : (range' (pos + 1) (d + 1)).flatMap (sweep n (address p)) =
        reads ++ (acc ++ .destroy ((pos + 1) :: address p) :: .read (address p) ::
          (range' (pos + 1 + 1) d).flatMap (sweep n (address p))) := by
      rw [range'_succ, flatMap_cons, sweep, ← append_assoc, hacc]
      simp
    rw [hlist, countP_destroy_read, countP_append, hreads, Nat.zero_add, ← Nat.add_assoc, clearLoop]
    simp only
    rw [if_pos (by omega), hdeep]
    simp only [Option.bind_eq_bind, Option.bind_some]
    rw [hrest]
    cases clearLoop f n p <;> simp [address]

theorem digs_of_shaped : ∀ {h : ℕ} {n : BPTreeNode K} {p : BPTreePath K}, Shaped L (h + 1) n →
    p.length + (h + 1) ≤ kMaxDepth → ∀ pos ≤ n.numItems, Digs n p pos := by
  intro h
  induction h with
  | zero =>
    intro n p hs hlen pos hpos
    have hleaf := (hs.child hpos).shaped.1
    obtain ⟨leaf, m, k, t, c, rfl⟩ := hs.exists_mk
    rw [child_mk] at hleaf
    refine ⟨c pos, ⟨.mk leaf m k t c, pos⟩ :: p, [.read (address p), .read (pos :: address p)], [],
      ?_, rfl, ?_, fun f => ?_⟩
    · rw [deepLeft, push_eq (by omega)]
      simp [hleaf]
    · rw [child_mk, below_of_leaf hleaf]
      rfl
    · simp
  | succ h ih =>
    intro n p hs hlen pos hpos
    have hchild := (hs.child hpos).shaped
    have hdigs := ih hchild (p := ⟨n, pos⟩ :: p) (by rw [length_cons]; omega)
    obtain ⟨lf, q, reads, acc, hdeep, hreads, hacc, hsweep⟩ := hdigs 0 (Nat.zero_le _)
    refine ⟨lf, q, [.read (address p), .read (pos :: address p)] ++ reads, _, ?_, ?_, ?_,
      hsweep.trans (sweeps_children hdigs (Nat.zero_add _))⟩
    · obtain ⟨leaf, m, k, t, c, rfl⟩ := hs.exists_mk
      have hleaf : (c pos).isLeaf = false := hchild.2.1
      rw [child_mk] at hdeep
      rw [deepLeft, push_eq (by omega)]
      simp [hleaf, hdeep]
    · rw [countP_append, hreads]
      rfl
    · rw [below_of_inner hchild.ne_null hchild.2.1, range'_succ, flatMap_cons, sweep, append_assoc,
        ← append_assoc reads, hacc]
      simp [address]

theorem countP_below : ∀ {h : ℕ} {n : BPTreeNode K}, Shaped L h n → ∀ a,
    (below n a).countP Access.isDestroy + 1 = nodeCount n
  | 0, n, hs, a => by
    obtain ⟨leaf, m, k, t, c, rfl⟩ := hs.exists_mk
    obtain rfl : leaf = true := hs.1
    rw [below_of_leaf rfl, nodeCount]
    rfl
  | h + 1, n, hs, a => by
    have ih := fun i hi => countP_below (hs.child (i := i) hi).shaped (i :: a)
    rw [below_of_inner hs.ne_null hs.2.1, countP_flatMap]
    obtain ⟨leaf, m, k, t, c, rfl⟩ := hs.exists_mk
    obtain rfl : leaf = false := hs.2.1
    rw [nodeCount, if_neg Bool.false_ne_true, range_eq_range', Nat.add_comm]
    congr 2
    refine map_congr_left fun i hi => ?_
    have hi := mem_range'_1.mp hi
    refine Eq.trans ?_ (ih i (by omega))
    simp [sweep, Access.isDestroy, countP_destroy_read]

/-- A tree destroyed by recursion. -/
def destroyAll (root : BPTreeNode K) : List Access := .read [] :: (below root [] ++ [.destroy []])

theorem clearAccesses_eq {top : ℕ} {root : BPTreeNode K} (hroot : Shaped L top root)
    (htop : top ≤ kMaxDepth) : clearAccesses root = some (destroyAll root) := by
  rw [clearAccesses, destroyAll, ← countP_below hroot []]
  cases top with
  | zero =>
    rw [if_pos hroot.1, below_of_leaf hroot.1]
    rfl
  | succ top =>
    have hdigs := digs_of_shaped hroot (p := []) (by simpa using htop)
    obtain ⟨lf, q, reads, acc, hdeep, hreads, hacc, hsweep⟩ := hdigs 0 (Nat.zero_le _)
    have hrun := hsweep.trans (sweeps_children hdigs (Nat.zero_add _)) 1
    rw [show address ([] : BPTreePath K) = [] from rfl] at hacc hrun
    have hlist : below root [] = reads ++ (acc ++ .destroy [0] :: .read [] ::
        (range' (0 + 1) root.numItems).flatMap (sweep root [])) := by
      rw [below_of_inner hroot.ne_null hroot.2.1, range'_succ, flatMap_cons, sweep, ← append_assoc,
        hacc]
      simp
    rw [if_neg (by simp [hroot.2.1]), hdeep, hlist, countP_append, hreads, Nat.zero_add,
      Nat.add_comm]
    simp only [Option.bind_eq_bind, Option.bind_some]
    rw [hrun]
    simp [clearLoop, address]

theorem deepLeft_eq_none : ∀ {h : ℕ} {n : BPTreeNode K} {p : BPTreePath K} {pos : ℕ},
    Shaped L (h + 1) n → kMaxDepth < p.length + (h + 1) → pos ≤ n.numItems →
    deepLeft n pos p = none := by
  intro h
  induction h with
  | zero =>
    intro n p pos hs hlen hpos
    obtain ⟨leaf, m, k, t, c, rfl⟩ := hs.exists_mk
    rw [deepLeft, push, if_neg (by omega)]
    rfl
  | succ h ih =>
    intro n p pos hs hlen hpos
    have hchild := (hs.child hpos).shaped
    have hnone := ih hchild (p := ⟨n, pos⟩ :: p) (by rw [length_cons]; omega) (Nat.zero_le _)
    obtain ⟨leaf, m, k, t, c, rfl⟩ := hs.exists_mk
    rw [child_mk] at hnone
    have hleaf : (c pos).isLeaf = false := hchild.2.1
    rw [deepLeft, push]
    split
    · simp [hleaf, hnone]
    · rfl

/-! ### The order of the accesses -/

def Access.node : Access → List ℕ
  | .read a => a
  | .destroy a => a

/-- A node that is destroyed is not accessed again. -/
def Access.Before (x y : Access) : Prop := x.isDestroy → y.node ≠ x.node

theorem Access.Before.read (a : List ℕ) (y : Access) : Before (.read a) y := nofun

theorem below_before (n : BPTreeNode K) (a : List ℕ) :
    (∀ x ∈ below n a, x = .read a ∨ ∃ i, (i :: a) <:+ x.node) ∧
      (below n a).Pairwise Access.Before := by
  induction n generalizing a with
  | null => exact ⟨nofun, .nil⟩
  | mk leaf m k t c ih =>
    rw [below]
    split
    · exact ⟨nofun, .nil⟩
    have hsweep {i x} (hx : x ∈ sweep (.mk leaf m k t c) a i) :
        x = .read a ∨ (i :: a) <:+ x.node := by
      simp only [sweep, mem_cons, mem_append, not_mem_nil, or_false] at hx
      obtain rfl | rfl | hx | rfl | rfl := hx
      · exact .inl rfl
      · exact .inr (suffix_refl _)
      · obtain rfl | ⟨j, hj⟩ := (ih i (i :: a)).1 x hx
        · exact .inr (suffix_refl _)
        · exact .inr ((suffix_cons j _).trans hj)
      · exact .inr (suffix_refl _)
      · exact .inl rfl
    refine ⟨fun x hx => ?_, pairwise_flatMap.mpr ⟨fun i _ => ?_, ?_⟩⟩
    · obtain ⟨i, -, hx⟩ := mem_flatMap.mp hx
      exact (hsweep hx).imp_right (⟨i, ·⟩)
    · refine .cons (fun y _ => .read a y) (.cons (fun y _ => .read _ y) (pairwise_append.mpr
        ⟨(ih i (i :: a)).2, ?_, fun x hx y hy hdestroy heq => ?_⟩))
      · simp [Access.Before, Access.node]
      · obtain rfl | ⟨j, hj⟩ := (ih i (i :: a)).1 x hx
        · cases hdestroy
        · have hle := hj.length_le
          rw [← heq] at hle
          fin_cases hy <;> simp [Access.node] at hle
    · -- different children have nothing in common
      refine (pairwise_lt_range' (s := 0)).imp ?_
      intro i j hij x hx y hy hdestroy heq
      obtain rfl | hi := hsweep hx
      · cases hdestroy
      obtain rfl | hj := hsweep hy
      · exact absurd (heq ▸ hi).length_le (by simp [Access.node])
      · rw [heq] at hj
        have hsame := (suffix_of_suffix_length_le hi hj le_rfl).eq_of_length rfl
        exact hij.ne (cons.inj hsame).1

/-- The keys `b`, `b + 1`, …, two to a leaf and one to an inner node. -/
def tall : ℕ → ℕ → BPTreeNode ℕ
  | 0, b => .mk true 2 (b + ·) 0 fun _ => .null
  | h + 1, b => .mk false 1 (fun _ => b + (3 * 2 ^ h - 1)) (UInt32.ofNat (3 * 2 ^ (h + 1) - 1))
      fun i => tall h (b + i * (3 * 2 ^ h))

theorem inorder_tall : ∀ h b, inorder (tall h b) = range' b (3 * 2 ^ h - 1)
  | 0, b => rfl
  | h + 1, b => by
    have hlist : inorder (tall (h + 1) b) = inorder (tall h (b + 0 * (3 * 2 ^ h))) ++
      (b + (3 * 2 ^ h - 1)) :: inorder (tall h (b + 1 * (3 * 2 ^ h))) := rfl
    have hpos := Nat.two_pow_pos h
    rw [hlist, inorder_tall, inorder_tall, Nat.zero_mul, Nat.add_zero, Nat.one_mul,
      show 3 * 2 ^ (h + 1) - 1 = 3 * 2 ^ h - 1 + (3 * 2 ^ h - 1 + 1) by rw [pow_succ]; omega,
      ← range'_append_1, range'_succ]
    congr 3
    omega

theorem rooted_tall : ∀ h b, Rooted layout63 h (tall h b)
  | 0, b => ⟨⟨rfl, show 2 ≤ _ by decide⟩, one_le_two, rfl⟩
  | h + 1, b => by
    have hchild (i : ℕ) := rooted_tall h (b + i * (3 * 2 ^ h))
    have hlow : ∀ h b, layout63.low h ≤ (tall h b).numItems
      | 0, _ => show _ ≤ 2 by decide
      | _ + 1, _ => show layout63.low 1 ≤ 1 by decide
    refine ⟨⟨nofun, rfl, show 1 ≤ _ by decide, fun i _ => ⟨(hchild i).shaped, hlow ..,
      (hchild i).count⟩⟩, le_rfl, ?_⟩
    rw [inorder_tall, length_range']
    rfl

end BPTree
