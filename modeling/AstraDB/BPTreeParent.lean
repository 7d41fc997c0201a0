/-
An inner node and its children.

`Frame L h n p` is what holds of an inner node whose child `p` is being worked on:
everything `Shaped` asks, except for that child.  `RebalanceChild` and
`MergeOrRebalanceChild` are described on frames:

* `rebalanceChild_spec` — a full child makes room, and the returned place in the
  returned child is the place asked for, in the in-order sequence of the node;
* `mergeOrRebalanceChild_spec` — a child with too few keys is filled up or merged
  away, and the in-order sequence of the node stays;
* `rebalancing_keeps` — both, and the two moves, keep keys and counts.
-/
import AstraDB.BPTreeBalance

open Loops Function Nat List

set_option linter.unusedSectionVars false

namespace BPTreeNode

variable {K : Type} [Inhabited K] {L : BPNodeLayout}

/-! ### Focusing on a child -/

variable {n : BPTreeNode K} {p i j h : ℕ}

theorem inorder_focus (hn : n.isLeaf = false) (hp : p ≤ n.numItems) :
    inorder n = n.before p ++ (inorder (n.child p) ++ n.after p) := by
  rw [inorder_cut hp, upTo_eq, sub_of_inner hn, append_assoc]

theorem before_congr {n' : BPTreeNode K} (hleaf : n.isLeaf = n'.isLeaf)
    (hkey : ∀ j < p, n.key j = n'.key j) (hchild : ∀ j < p, n.child j = n'.child j) :
    n.before p = n'.before p :=
  leading_congr hkey fun j hj => by simp only [sub, hleaf, hchild j hj]

theorem after_congr {n' : BPTreeNode K} (hleaf : n.isLeaf = n'.isLeaf)
    (hnum : n.numItems = n'.numItems) (hkey : ∀ j, p ≤ j → n.key j = n'.key j)
    (hchild : ∀ j, p < j → n.child j = n'.child j) : n.after p = n'.after p := by
  unfold after
  rw [hnum]
  exact trailing_congr (fun j _ => hkey _ (by omega))
    (fun j _ => by simp only [sub, hleaf, hchild (p + (j + 1)) (by omega)])

theorem child_setChild_of_ne (n c : BPTreeNode K) (hij : j ≠ i) :
    (n.setChild i c).child j = n.child j := by
  cases n with
  | null => rfl
  | mk leaf m k t ch =>
    show update ch i c j = ch j
    rw [update_of_ne hij]

theorem child_setChild_self (hn : n ≠ null) (i : ℕ) (c : BPTreeNode K) :
    (n.setChild i c).child i = c := by
  rw [child_setChild hn, update_self]

theorem key_setKey_of_ne (n : BPTreeNode K) (x : K) (hij : j ≠ i) :
    (n.setKey i x).key j = n.key j := by
  cases n with
  | null => rfl
  | mk leaf m k t ch =>
    show update k i x j = k j
    rw [update_of_ne hij]

theorem key_setKey_self (hn : n ≠ null) (i : ℕ) (x : K) : (n.setKey i x).key i = x := by
  rw [key_setKey hn, update_self]

theorem setChild_comm (n a b : BPTreeNode K) (hij : i ≠ j) :
    (n.setChild i a).setChild j b = (n.setChild j b).setChild i a := by
  cases n with
  | null => rfl
  | mk leaf m k t ch =>
    show mk leaf m k t (update (update ch i a) j b) = mk leaf m k t _
    rw [update_comm hij]

theorem setChild_child_self (n : BPTreeNode K) (i : ℕ) : n.setChild i (n.child i) = n := by
  cases n with
  | null => rfl
  | mk leaf m k t ch =>
    show mk leaf m k t (update ch i (ch i)) = mk leaf m k t ch
    rw [update_eq_self]

@[simp] theorem before_setChild (n c : BPTreeNode K) (p : ℕ) :
    (n.setChild p c).before p = n.before p :=
  before_congr (by simp) (fun j _ => by simp) (fun j hj => child_setChild_of_ne n c (by omega))

@[simp] theorem after_setChild (n c : BPTreeNode K) (p : ℕ) :
    (n.setChild p c).after p = n.after p :=
  after_congr (by simp) (by simp) (fun j _ => by simp)
    (fun j hj => child_setChild_of_ne n c (by omega))

@[simp] theorem before_increaseTreeCount (n : BPTreeNode K) (d : UInt32) (p : ℕ) :
    (n.increaseTreeCount d).before p = n.before p :=
  before_congr (by simp) (fun j _ => by simp) (fun j _ => by simp)

@[simp] theorem after_increaseTreeCount (n : BPTreeNode K) (d : UInt32) (p : ℕ) :
    (n.increaseTreeCount d).after p = n.after p :=
  after_congr (by simp) (by simp) (fun j _ => by simp) (fun j _ => by simp)

@[simp] theorem inorder_increaseTreeCount (n : BPTreeNode K) (d : UInt32) :
    inorder (n.increaseTreeCount d) = inorder n := by cases n <;> rfl

theorem treeCount_increaseTreeCount (hn : n ≠ null) (hleaf : n.isLeaf = false) (d : UInt32) :
    (n.increaseTreeCount d).treeCount = n.treeCount + d := by
  rw [treeCount_of_inner (by simpa using hleaf), treeCount_of_inner hleaf,
    innerTreeCount_increaseTreeCount hn]

theorem Shaped.increaseTreeCount (hn : Shaped L h n) (d : UInt32) :
    Shaped L h (n.increaseTreeCount d) := by
  refine Shaped.of_children (by simpa using hn.ne_null) (by simpa using hn.isLeaf_eq)
    (by simpa using hn.numItems_le) ?_
  rintro h' rfl i hi
  simp only [numItems_increaseTreeCount] at hi
  simpa using hn.child hi

/-! ### Frames -/

/-- An inner node with children of height `h`, but for child `p`. -/
structure Frame (L : BPNodeLayout) (h : ℕ) (n : BPTreeNode K) (p : ℕ) : Prop where
  ne_null : n ≠ null
  inner : n.isLeaf = false
  num_le : n.numItems ≤ L.kMaxInnerKeys
  pos_le : p ≤ n.numItems
  others : ∀ i ≤ n.numItems, i ≠ p → Filled L h (n.child i)

section Frame

variable {h p : ℕ} {n : BPTreeNode K}

theorem Shaped.frame (hn : Shaped L (h + 1) n) (hp : p ≤ n.numItems) : Frame L h n p :=
  ⟨hn.ne_null, hn.2.1, hn.2.2.1, hp, fun _ hi _ => hn.child hi⟩

section

variable (hf : Frame L h n p)
include hf

theorem Frame.shaped (hc : Filled L h (n.child p)) : Shaped L (h + 1) n := by
  refine shaped_succ_iff.mpr ⟨hf.ne_null, hf.inner, hf.num_le, fun i hi => ?_⟩
  by_cases hip : i = p
  · rw [hip]
    exact hc
  · exact hf.others i hi hip

theorem Frame.setChild (c : BPTreeNode K) : Frame L h (n.setChild p c) p := by
  refine ⟨by simpa using hf.ne_null, by simpa using hf.inner, by simpa using hf.num_le,
    by simpa using hf.pos_le, fun i hi hip => ?_⟩
  rw [child_setChild_of_ne n c hip]
  exact hf.others i (by simpa using hi) hip

theorem Frame.increaseTreeCount (d : UInt32) :
    Frame L h (n.increaseTreeCount d) p :=
  ⟨by simpa using hf.ne_null, by simpa using hf.inner, by simpa using hf.num_le,
    by simpa using hf.pos_le, fun i hi hip => by
      simpa using hf.others i (by simpa using hi) hip⟩

theorem Frame.setKey (i : ℕ) (x : K) : Frame L h (n.setKey i x) p :=
  ⟨by simpa using hf.ne_null, by simpa using hf.inner, by simpa using hf.num_le,
    by simpa using hf.pos_le, fun i hi hip => by
      simpa using hf.others i (by simpa using hi) hip⟩

theorem Frame.inorder_eq :
    inorder n = n.before p ++ (inorder (n.child p) ++ n.after p) :=
  inorder_focus hf.inner hf.pos_le

end

end Frame

/-! ### Replacing two neighbouring children -/

/-- `n` with the children `i`, `i + 1` and the key between them replaced. -/
def setPair (n : BPTreeNode K) (i : ℕ) (a : BPTreeNode K) (k : K) (b : BPTreeNode K) :
    BPTreeNode K :=
  ((n.setKey i k).setChild i a).setChild (i + 1) b

section Pair

variable {n : BPTreeNode K} {i : ℕ} {a : BPTreeNode K} {k : K} {b : BPTreeNode K}

@[simp] theorem isLeaf_setPair : (n.setPair i a k b).isLeaf = n.isLeaf := by simp [setPair]

@[simp] theorem numItems_setPair : (n.setPair i a k b).numItems = n.numItems := by simp [setPair]

@[simp] theorem innerTreeCount_setPair :
    (n.setPair i a k b).innerTreeCount = n.innerTreeCount := by simp [setPair]

theorem setPair_ne_null (hn : n ≠ null) : n.setPair i a k b ≠ null := by simpa [setPair] using hn

theorem child_setPair_left (hn : n ≠ null) : (n.setPair i a k b).child i = a := by
  rw [setPair, child_setChild_of_ne _ _ (by omega), child_setChild_self (by simpa using hn)]

theorem child_setPair_right (hn : n ≠ null) : (n.setPair i a k b).child (i + 1) = b := by
  rw [setPair, child_setChild_self (by simpa using hn)]

theorem child_setPair_of_ne {j : ℕ} (hi : j ≠ i) (hi' : j ≠ i + 1) :
    (n.setPair i a k b).child j = n.child j := by
  rw [setPair, child_setChild_of_ne _ _ hi', child_setChild_of_ne _ _ hi, child_setKey]

theorem key_setPair_self (hn : n ≠ null) : (n.setPair i a k b).key i = k := by
  rw [setPair, key_setChild, key_setChild, key_setKey_self hn]

theorem key_setPair_of_ne {j : ℕ} (hi : j ≠ i) : (n.setPair i a k b).key j = n.key j := by
  rw [setPair, key_setChild, key_setChild, key_setKey_of_ne n k hi]

theorem before_setPair : (n.setPair i a k b).before i = n.before i :=
  before_congr (by simp) (fun j hj => key_setPair_of_ne (by omega))
    (fun j hj => child_setPair_of_ne (by omega) (by omega))

theorem after_setPair : (n.setPair i a k b).after (i + 1) = n.after (i + 1) :=
  after_congr (by simp) (by simp) (fun j hj => key_setPair_of_ne (by omega))
    (fun j hj => child_setPair_of_ne (by omega) (by omega))

theorem before_succ_of_inner (hleaf : n.isLeaf = false) :
    n.before (i + 1) = n.before i ++ (inorder (n.child i) ++ [n.key i]) := by
  rw [before_succ, upTo_eq, sub_of_inner hleaf, append_assoc]

theorem before_setPair_succ (hn : n ≠ null) (hleaf : n.isLeaf = false) :
    (n.setPair i a k b).before (i + 1) = n.before i ++ (inorder a ++ [k]) := by
  rw [before_succ_of_inner (by simpa using hleaf), before_setPair, child_setPair_left hn,
    key_setPair_self hn]

theorem inorder_pair (hleaf : n.isLeaf = false) (hi : i + 1 ≤ n.numItems) :
    inorder n = n.before i
      ++ ((inorder (n.child i) ++ n.key i :: inorder (n.child (i + 1))) ++ n.after (i + 1)) := by
  rw [inorder_focus hleaf hi, before_succ_of_inner hleaf]
  simp

theorem inorder_setPair (hn : n ≠ null) (hleaf : n.isLeaf = false) (hi : i + 1 ≤ n.numItems)
    (heq : inorder a ++ k :: inorder b
      = inorder (n.child i) ++ n.key i :: inorder (n.child (i + 1))) :
    inorder (n.setPair i a k b) = inorder n := by
  rw [inorder_pair (by simpa using hleaf) (by simpa using hi), inorder_pair hleaf hi, before_setPair,
    after_setPair, child_setPair_left hn, child_setPair_right hn,
    key_setPair_self hn, heq]

end Pair

/-! ### Moving keys between neighbours -/

/-- The count of `n` exceeds the number of its keys by `d` (modulo `2^32`). -/
def Surplus (n : BPTreeNode K) (d : UInt32) : Prop :=
  n.treeCount = UInt32.ofNat (inorder n).length + d

theorem surplus_zero_iff : Surplus n 0 ↔ n.treeCount = UInt32.ofNat (inorder n).length := by
  rw [Surplus, UInt32.add_zero]

theorem surplus_of_leaf (hn : n.isLeaf = true) : Surplus n 0 :=
  surplus_zero_iff.mpr (treeCount_of_leaf hn)

section Surplus

variable {a : BPTreeNode K} {w : ℕ} {d : UInt32}

theorem Surplus.of_gain (hleaf : a.isLeaf = n.isLeaf)
    (hlen : (inorder a).length = (inorder n).length + w)
    (hcount : n.isLeaf = false → a.treeCount = n.treeCount + UInt32.ofNat w) (hs : Surplus n d) :
    Surplus a d := by
  have hcount : a.treeCount = n.treeCount + UInt32.ofNat w := by
    cases hn : n.isLeaf with
    | true => rw [treeCount_of_leaf (hleaf.trans hn), treeCount_of_leaf hn, hlen, UInt32.ofNat_add]
    | false => exact hcount hn
  rw [Surplus, hcount, hs, hlen, UInt32.ofNat_add]
  grind

theorem Surplus.of_loss (hleaf : a.isLeaf = n.isLeaf)
    (hlen : (inorder n).length = (inorder a).length + w)
    (hcount : n.isLeaf = false → a.treeCount = n.treeCount - UInt32.ofNat w) (hs : Surplus n d) :
    Surplus a d := by
  have hcount : a.treeCount = n.treeCount - UInt32.ofNat w := by
    cases hn : n.isLeaf with
    | true =>
      rw [treeCount_of_leaf (hleaf.trans hn), treeCount_of_leaf hn, hlen, UInt32.ofNat_add]
      grind
    | false => exact hcount hn
  rw [Surplus, hcount, hs, hlen, UInt32.ofNat_add]
  grind

end Surplus

/-- Two neighbours `a`, `b` with separator `k` hold the keys that `x`, `y` held with
separator `sep`, keep the surplus of `x` and of `y` and fit in their nodes. -/
structure Moved (L : BPNodeLayout) (h : ℕ) (x : BPTreeNode K) (sep : K) (y a : BPTreeNode K)
    (k : K) (b : BPTreeNode K) : Prop where
  left : Shaped L h a
  right : Shaped L h b
  keys : inorder a ++ k :: inorder b = inorder x ++ sep :: inorder y
  surplus_left : ∀ {d}, Surplus x d → Surplus a d
  surplus_right : ∀ {d}, Surplus y d → Surplus b d

section Moved

variable {count : ℕ} {dest src : BPTreeNode K}

theorem moved_left (hd : Shaped L h dest) (hs : Shaped L h src) (sep : K) (h1 : 1 ≤ count)
    (hc : count ≤ src.numItems) (hcap : dest.numItems + count ≤ L.cap h) :
    Moved L h dest sep src (dest.gainFromRight sep src count) (src.key (count - 1))
      (src.loseToLeft count) := by
  have hleaf := hd.isLeaf_congr hs
  have hj := gainFromRight_joined hd.ne_null hleaf sep h1
  have hcut := loseToLeft_cut hs.ne_null h1 hc
  have ha : inorder (dest.gainFromRight sep src count)
      = inorder dest ++ sep :: interleave src.key src.sub 0 (count - 1) := by
    rw [hj.inorder_eq, ← inorder_eq]
  have hsrc : inorder src = interleave src.key src.sub 0 (count - 1)
      ++ src.key (count - 1) :: inorder (src.loseToLeft count) := by
    rw [hcut.inorder_eq, inorder_eq]
    have := interleave_split src.key src.sub (count - 1) (src.numItems - count) 0
    rwa [show count - 1 + 1 + (src.numItems - count) = src.numItems by omega, zero_add,
      show count - 1 + 1 = count by omega] at this
  refine ⟨hj.shaped hd hs (by omega) (by omega) (by omega), hcut.shaped hs (by omega), ?_,
    .of_gain hj.left.leaf ?_ fun hl =>
      treeCount_gainFromRight hd.ne_null hl hs (hleaf.symm.trans hl) sep h1 hc,
    .of_loss hcut.run.leaf ?_ fun hl => treeCount_loseToLeft hs hl h1 hc⟩
  · rw [ha, hsrc]
    simp
  · rw [ha, weight, length_append, length_cons]
    omega
  · rw [hsrc, weight, length_append, length_cons]
    omega

theorem moved_right (hd : Shaped L h dest) (hs : Shaped L h src) (sep : K) (h1 : 1 ≤ count)
    (hc : count ≤ src.numItems) (hcap : dest.numItems + count ≤ L.cap h) :
    Moved L h src sep dest (src.loseToRight count) (src.key (src.numItems - count))
      (dest.gainFromLeft sep src count) := by
  have hleaf := hd.isLeaf_congr hs
  have hj := gainFromLeft_joined hd.ne_null hleaf sep h1 hc
  have hcut := loseToRight_cut hs.ne_null h1 hc
  have hb : inorder (dest.gainFromLeft sep src count)
      = interleave src.key src.sub (src.numItems - (count - 1)) (count - 1)
        ++ sep :: inorder dest := by
    rw [hj.inorder_eq, ← inorder_eq, show src.numItems - count + 1 = src.numItems - (count - 1) by
      omega]
  have hsrc : inorder src = inorder (src.loseToRight count) ++ src.key (src.numItems - count)
      :: interleave src.key src.sub (src.numItems - (count - 1)) (count - 1) := by
    rw [hcut.inorder_eq, inorder_eq]
    have := interleave_split src.key src.sub (src.numItems - count) (count - 1) 0
    rwa [show src.numItems - count + 1 + (count - 1) = src.numItems by omega, zero_add,
      show src.numItems - count + 1 = src.numItems - (count - 1) by omega] at this
  refine ⟨hcut.shaped hs (by omega), hj.shaped hs hd (by omega) (by omega) (by omega), ?_,
    .of_loss hcut.run.leaf ?_ fun hl => treeCount_loseToRight hs hl h1 hc,
    .of_gain hj.right.leaf ?_ fun hl =>
      treeCount_gainFromLeft hd.ne_null hl hs (hleaf.symm.trans hl) sep h1 hc⟩
  · rw [hb, hsrc]
    simp
  · rw [hsrc, weight, length_append, length_cons]
    omega
  · rw [hb, weight, length_append, length_cons]
    omega

end Moved

theorem rebalanceChildToLeft_eq (n : BPTreeNode K) (i count : ℕ) :
    n.rebalanceChildToLeft (i + 1) count =
      n.setPair i ((n.child i).gainFromRight (n.key i) (n.child (i + 1)) count)
        ((n.child (i + 1)).key (count - 1)) ((n.child (i + 1)).loseToLeft count) := rfl

theorem rebalanceChildToRight_eq (n : BPTreeNode K) (i count : ℕ) :
    n.rebalanceChildToRight i count =
      n.setPair i ((n.child i).loseToRight count)
        ((n.child i).key ((n.child i).numItems - count))
        ((n.child (i + 1)).gainFromLeft (n.key i) (n.child i) count) :=
  setChild_comm _ _ _ (by omega)

theorem Filled.surplus (hn : Filled L h n) : Surplus n 0 :=
  surplus_zero_iff.mpr hn.count

theorem Filled.of_surplus (hn : Shaped L h n) (hlow : L.low h ≤ n.numItems) (hs : Surplus n 0) :
    Filled L h n :=
  ⟨hn, hlow, surplus_zero_iff.mp hs⟩

/-- An inner node with children of height `h`, but for the neighbours `i` and `i + 1`. -/
structure PairFrame (L : BPNodeLayout) (h : ℕ) (n : BPTreeNode K) (i : ℕ) : Prop where
  ne_null : n ≠ null
  inner : n.isLeaf = false
  num_le : n.numItems ≤ L.kMaxInnerKeys
  pos_le : i + 1 ≤ n.numItems
  others : ∀ j ≤ n.numItems, j ≠ i → j ≠ i + 1 → Filled L h (n.child j)

theorem Frame.pair (hf : Frame L h n p) (hp : p = i ∨ p = i + 1) (hi : i + 1 ≤ n.numItems) :
    PairFrame L h n i :=
  ⟨hf.ne_null, hf.inner, hf.num_le, hi, fun j hj _ _ => hf.others j hj (by omega)⟩

section PairFrame

variable {a b : BPTreeNode K} {k : K}

theorem PairFrame.setPair (hf : PairFrame L h n i) (hp : p ≤ n.numItems)
    (ha : i ≠ p → Filled L h a) (hb : i + 1 ≠ p → Filled L h b) :
    Frame L h (n.setPair i a k b) p := by
  refine ⟨setPair_ne_null hf.ne_null, by simpa using hf.inner, by simpa using hf.num_le,
    by simpa using hp, fun j hj hjp => ?_⟩
  by_cases hji : j = i
  · rw [hji, child_setPair_left hf.ne_null]
    exact ha (hji ▸ hjp)
  · by_cases hji' : j = i + 1
    · rw [hji', child_setPair_right hf.ne_null]
      exact hb (hji' ▸ hjp)
    · rw [child_setPair_of_ne hji hji']
      exact hf.others j (by simpa using hj) hji hji'

theorem PairFrame.refill (hf : PairFrame L h n i)
    (hm : Moved L h (n.child i) (n.key i) (n.child (i + 1)) a k b) (hx : Surplus (n.child i) 0)
    (hy : Surplus (n.child (i + 1)) 0) (ha : L.low h ≤ a.numItems) (hb : L.low h ≤ b.numItems) :
    Shaped L (h + 1) (n.setPair i a k b) ∧ inorder (n.setPair i a k b) = inorder n ∧
      (n.setPair i a k b).innerTreeCount = n.innerTreeCount ∧
      (n.setPair i a k b).numItems = n.numItems := by
  have ha' : Filled L h a := .of_surplus hm.left ha (hm.surplus_left hx)
  have hb' : Filled L h b := .of_surplus hm.right hb (hm.surplus_right hy)
  refine ⟨(hf.setPair (p := i) (by have := hf.pos_le; omega) (fun _ => ha')
    fun _ => hb').shaped ?_, inorder_setPair hf.ne_null hf.inner hf.pos_le hm.keys, by simp, by simp⟩
  rw [child_setPair_left hf.ne_null]
  exact ha'

end PairFrame

/-! ### Making room in a full child -/

/-- `m` is `n` with room made in its child `p`, and place `jp` of child `q` of `m` is
what place `ip` of child `p` was in `n`. -/
structure Rebalanced (L : BPNodeLayout) (h : ℕ) (n : BPTreeNode K) (p ip : ℕ) (d : UInt32)
    (m : BPTreeNode K) (q jp : ℕ) : Prop where
  frame : Frame L h m p
  num : m.numItems = n.numItems
  count : m.innerTreeCount = n.innerTreeCount
  shaped : Shaped L h (m.child p)
  low_le : L.low h ≤ (m.child p).numItems
  surplus : Surplus (m.child p) d
  pos_le : q ≤ m.numItems
  room : (m.child q).numItems < L.cap h
  ins_le : jp ≤ (m.child q).numItems
  left : m.before q ++ (m.child q).upTo jp = n.before p ++ (n.child p).upTo ip
  right : (m.child q).after jp ++ m.after q = (n.child p).after ip ++ n.after p

theorem after_eq_of_before_eq {m : BPTreeNode K} {q jp ip : ℕ} (hm : m.isLeaf = false)
    (hn : n.isLeaf = false) (hq : q ≤ m.numItems) (hp : p ≤ n.numItems)
    (hjp : jp ≤ (m.child q).numItems) (hip : ip ≤ (n.child p).numItems)
    (hkeys : inorder m = inorder n)
    (hleft : m.before q ++ (m.child q).upTo jp = n.before p ++ (n.child p).upTo ip) :
    (m.child q).after jp ++ m.after q = (n.child p).after ip ++ n.after p := by
  rw [inorder_focus hm hq, inorder_focus hn hp, inorder_cut hjp, inorder_cut hip] at hkeys
  have h : (m.before q ++ (m.child q).upTo jp) ++ ((m.child q).after jp ++ m.after q)
      = (n.before p ++ (n.child p).upTo ip) ++ ((n.child p).after ip ++ n.after p) := by
    simpa using hkeys
  rw [hleft] at h
  exact append_cancel_left h

/-- Keys are moved to or from a neighbour of child `p`.  It is enough to look at the keys before
the place, as none is lost. -/
theorem Rebalanced.of_moved {ip q jp : ℕ} {d : UInt32} {a b : BPTreeNode K} {k : K}
    (hf : Frame L h n p) (hp : p = i ∨ p = i + 1) (hi : i + 1 ≤ n.numItems)
    (hm : Moved L h (n.child i) (n.key i) (n.child (i + 1)) a k b) (hd : Surplus (n.child p) d)
    (ha : L.low h ≤ a.numItems) (hb : L.low h ≤ b.numItems) (hip : ip ≤ (n.child p).numItems)
    (hq : q = i ∨ q = i + 1) (hroom : ((n.setPair i a k b).child q).numItems < L.cap h)
    (hjp : jp ≤ ((n.setPair i a k b).child q).numItems)
    (hleft : (n.setPair i a k b).before q ++ ((n.setPair i a k b).child q).upTo jp
      = n.before p ++ (n.child p).upTo ip) :
    Rebalanced L h n p ip d (n.setPair i a k b) q jp := by
  have hother : ∀ j ≤ n.numItems, j ≠ p → Surplus (n.child j) 0 :=
    fun j hj hjp => (hf.others j hj hjp).surplus
  have hframe : Frame L h (n.setPair i a k b) p := (hf.pair hp hi).setPair hf.pos_le
    (fun hne => .of_surplus hm.left ha (hm.surplus_left (hother i (by omega) hne)))
    fun hne => .of_surplus hm.right hb (hm.surplus_right (hother (i + 1) hi hne))
  obtain ⟨hshaped, hlow, hsurplus⟩ : Shaped L h ((n.setPair i a k b).child p) ∧
      L.low h ≤ ((n.setPair i a k b).child p).numItems ∧
      Surplus ((n.setPair i a k b).child p) d := by
    rcases hp with rfl | rfl
    · rw [child_setPair_left hf.ne_null]
      exact ⟨hm.left, ha, hm.surplus_left hd⟩
    · rw [child_setPair_right hf.ne_null]
      exact ⟨hm.right, hb, hm.surplus_right hd⟩
  have hqle : q ≤ (n.setPair i a k b).numItems := by
    rw [numItems_setPair]
    omega
  exact ⟨hframe, by simp, by simp, hshaped, hlow, hsurplus, hqle, hroom, hjp, hleft,
    after_eq_of_before_eq hframe.inner hf.inner hqle hf.pos_le hjp hip
      (inorder_setPair hf.ne_null hf.inner hi hm.keys) hleft⟩

section Rebalance

variable {h i ip count : ℕ} {n : BPTreeNode K} {d : UInt32}

theorem rebalanced_toLeft (hf : Frame L h n (i + 1)) (hs : Shaped L h (n.child (i + 1)))
    (hfull : (n.child (i + 1)).numItems = L.cap h) (hd : Surplus (n.child (i + 1)) d)
    (hip : ip ≤ L.cap h) (h1 : 1 ≤ count) (hfree : count ≤ L.cap h - (n.child i).numItems)
    (hlast : ip = L.cap h ∨ count < L.cap h - (n.child i).numItems) :
    Rebalanced L h n (i + 1) ip d (n.rebalanceChildToLeft (i + 1) count)
      (if ip < count then i else i + 1)
      (if ip < count then (n.child i).numItems + ip + 1 else ip - count) := by
  have hpos := hf.pos_le
  have hdest : Filled L h (n.child i) := hf.others i (by omega) (by omega)
  have hlow := hdest.low_le
  have hdestcap := hdest.shaped.numItems_le
  have hc : count ≤ (n.child (i + 1)).numItems := by omega
  have hm := moved_left hdest.shaped hs (n.key i) h1 hc (by omega)
  have hj := gainFromRight_joined hdest.shaped.ne_null
    (hdest.shaped.isLeaf_congr hs) (n.key i) h1
  have hcut := loseToLeft_cut hs.ne_null h1 hc
  rw [rebalanceChildToLeft_eq]
  set a := (n.child i).gainFromRight (n.key i) (n.child (i + 1)) count with ha
  set b := (n.child (i + 1)).loseToLeft count with hb
  set k := (n.child (i + 1)).key (count - 1) with hk
  have hnum : a.numItems = (n.child i).numItems + count := by
    rw [hj.num]
    omega
  have hbnum := hcut.num
  have hleft : (n.setPair i a k b).child i = a := child_setPair_left hf.ne_null
  have hright : (n.setPair i a k b).child (i + 1) = b := child_setPair_right hf.ne_null
  -- the place is in the keys that went over, or in those that stayed
  by_cases hlt : ip < count
  · rw [if_pos hlt, if_pos hlt]
    refine .of_moved hf (.inr rfl) hpos hm hd (by omega) (by omega) (by omega) (.inl rfl)
      (by rw [hleft]; omega) (by rw [hleft]; omega) ?_
    have := hj.interleave_right (x := ip) (by omega)
    rw [hleft, before_setPair, before_succ_of_inner hf.inner, upTo,
      show (n.child i).numItems + ip + 1 = (n.child i).numItems + 1 + ip by omega, this,
      ← inorder_eq, ← upTo]
    simp
  · rw [if_neg hlt, if_neg hlt]
    refine .of_moved hf (.inr rfl) hpos hm hd (by omega) (by omega) (by omega) (.inr rfl)
      (by rw [hright]; omega) (by rw [hright]; omega) ?_
    have hrun := hcut.run.interleave_eq (a := 0) (x := ip - count) (by omega)
    have hsplit := interleave_split (n.child (i + 1)).key (n.child (i + 1)).sub (count - 1)
      (ip - count) 0
    rw [show count - 1 + 1 + (ip - count) = ip by omega, zero_add,
      show count - 1 + 1 = count by omega] at hsplit
    rw [add_zero, add_zero] at hrun
    rw [hright, before_setPair_succ hf.ne_null hf.inner, before_succ_of_inner hf.inner,
      upTo, upTo, hsplit, hj.inorder_eq, ← inorder_eq, hrun]
    simp [hk]

theorem rebalanced_toRight (hf : Frame L h n i) (hi : i < n.numItems) (hs : Shaped L h (n.child i))
    (hfull : (n.child i).numItems = L.cap h) (hd : Surplus (n.child i) d) (hip : ip ≤ L.cap h)
    (h1 : 1 ≤ count) (hfree : count ≤ L.cap h - (n.child (i + 1)).numItems)
    (hlast : ip = 0 ∨ count < L.cap h - (n.child (i + 1)).numItems) :
    Rebalanced L h n i ip d (n.rebalanceChildToRight i count)
      (if L.cap h - count < ip then i + 1 else i)
      (if L.cap h - count < ip then ip - (L.cap h - count + 1) else ip) := by
  have hdest : Filled L h (n.child (i + 1)) := hf.others (i + 1) (by omega) (by omega)
  have hlow := hdest.low_le
  have hdestcap := hdest.shaped.numItems_le
  have hc : count ≤ (n.child i).numItems := by omega
  have hm := moved_right hdest.shaped hs (n.key i) h1 hc (by omega)
  have hj := gainFromLeft_joined hdest.shaped.ne_null
    (hdest.shaped.isLeaf_congr hs) (n.key i) h1 hc
  have hcut := loseToRight_cut hs.ne_null h1 hc
  rw [rebalanceChildToRight_eq]
  set a := (n.child i).loseToRight count with ha
  set b := (n.child (i + 1)).gainFromLeft (n.key i) (n.child i) count with hb
  set k := (n.child i).key ((n.child i).numItems - count) with hk
  have hnum : b.numItems = (n.child (i + 1)).numItems + count := by
    rw [hj.num]
    omega
  have hanum : a.numItems = L.cap h - count := by rw [hcut.num, hfull]
  have hleft : (n.setPair i a k b).child i = a := child_setPair_left hf.ne_null
  have hright : (n.setPair i a k b).child (i + 1) = b := child_setPair_right hf.ne_null
  -- as above, seen from the other side
  by_cases hlt : L.cap h - count < ip
  · rw [if_pos hlt, if_pos hlt]
    refine .of_moved hf (.inl rfl) hi hm hd (by omega) (by omega) (by omega) (.inr rfl)
      (by rw [hright]; omega) (by rw [hright]; omega) ?_
    have hrun := hj.left.interleave_eq (a := 0) (x := ip - (L.cap h - count + 1)) (by omega)
    have hsplit := interleave_split (n.child i).key (n.child i).sub (L.cap h - count)
      (ip - (L.cap h - count + 1)) 0
    rw [show L.cap h - count + 1 + (ip - (L.cap h - count + 1)) = ip by omega, zero_add]
      at hsplit
    rw [add_zero, add_zero, hfull] at hrun
    rw [hright, before_setPair_succ hf.ne_null hf.inner, upTo, upTo, hsplit,
      hcut.inorder_eq, hrun, hfull]
    simp [hk, hfull]
  · rw [if_neg hlt, if_neg hlt]
    refine .of_moved hf (.inl rfl) hi hm hd (by omega) (by omega) (by omega) (.inl rfl)
      (by rw [hleft]; omega) (by rw [hleft]; omega) ?_
    have hrun := hcut.run.interleave_eq (a := 0) (x := ip) (by omega)
    rw [add_zero] at hrun
    rw [hleft, before_setPair, upTo, upTo, hrun]

variable {p : ℕ}

theorem moveToLeft_inv (hc : n.moveToLeft L p ip ≠ 0) :
    0 < p ∧ n.moveToLeft L p ip ≤ (n.child (p - 1)).availableSlotCount L ∧
      (ip = (n.child p).numItems ∨
        n.moveToLeft L p ip < (n.child (p - 1)).availableSlotCount L) := by
  unfold moveToLeft at hc ⊢
  simp only at hc ⊢
  split_ifs at hc ⊢ with h1 h2 h3 h4
  · exact ⟨h1, le_rfl, .inl h3⟩
  · exact ⟨h1, by omega, .inr (by omega)⟩
  all_goals exact absurd rfl hc

theorem moveToRight_inv (hc : n.moveToRight L p ip ≠ 0) :
    p < n.numItems ∧ n.moveToRight L p ip ≤ (n.child (p + 1)).availableSlotCount L ∧
      (ip = 0 ∨ n.moveToRight L p ip < (n.child (p + 1)).availableSlotCount L) := by
  unfold moveToRight at hc ⊢
  simp only at hc ⊢
  split_ifs at hc ⊢ with h1 h2 h3 h4
  · exact ⟨h1, le_rfl, .inl h3⟩
  · exact ⟨h1, by omega, .inr (by omega)⟩
  all_goals exact absurd rfl hc

theorem rebalanceChild_spec (hf : Frame L h n p) (hs : Shaped L h (n.child p))
    (hfull : (n.child p).numItems = L.cap h) (hd : Surplus (n.child p) d) (hip : ip ≤ L.cap h)
    {m : BPTreeNode K} {q jp : ℕ} (hr : n.rebalanceChild L p ip = some (m, q, jp)) :
    Rebalanced L h n p ip d m q jp := by
  unfold rebalanceChild at hr
  simp only at hr
  -- the left neighbour is tried first
  split at hr
  · next hl =>
    obtain ⟨hp, hfree, hlast⟩ := moveToLeft_inv hl
    obtain ⟨i, rfl⟩ : ∃ i, p = i + 1 := ⟨p - 1, by omega⟩
    have hpos := hf.pos_le
    rw [Nat.add_sub_cancel, availableSlotCount,
      (hf.others i (by omega) (by omega)).shaped.maxItems_eq] at hfree hlast
    have key := rebalanced_toLeft hf hs hfull hd hip (Nat.one_le_iff_ne_zero.mpr hl) hfree
      (by omega)
    split_ifs at hr key with hlt
    · cases hr
      exact key
    · cases hr
      exact key
  · split at hr
    · next hrt =>
      obtain ⟨hp, hfree, hlast⟩ := moveToRight_inv hrt
      rw [availableSlotCount, (hf.others (p + 1) (by omega) (by omega)).shaped.maxItems_eq]
        at hfree hlast
      have key := rebalanced_toRight hf hp hs hfull hd hip (Nat.one_le_iff_ne_zero.mpr hrt) hfree
        hlast
      -- the source compares with what the child has left after the move
      have hnum : ((n.rebalanceChildToRight p (n.moveToRight L p ip)).child p).numItems
          = L.cap h - n.moveToRight L p ip := by
        rw [rebalanceChildToRight_eq, child_setPair_left hf.ne_null,
          (loseToRight_cut hs.ne_null (Nat.one_le_iff_ne_zero.mpr hrt) (by omega)).num, hfull]
      rw [hnum] at hr
      split_ifs at hr key with hlt
      · cases hr
        exact key
      · cases hr
        exact key
    · cases hr

end Rebalance

/-! ### Inserting where room was made -/

theorem sub_setChild_of_inorder_eq {c : BPTreeNode K} (hn : n ≠ null)
    (hc : inorder c = inorder (n.child p)) : (n.setChild p c).sub = n.sub := by
  funext j
  unfold sub
  rw [isLeaf_setChild, child_setChild hn]
  by_cases hj : j = p
  · rw [hj, update_self, hc]
  · rw [update_of_ne hj]

section Insert

variable {h p ip q jp : ℕ} {d : UInt32} {n m c : BPTreeNode K} {x : K} {r : List K}

theorem Rebalanced.keys_eq (hr : Rebalanced L h n p ip d m q jp) (x : K) (r : List K) :
    m.before q ++ (((m.child q).upTo jp ++ x :: (r ++ (m.child q).after jp)) ++ m.after q)
      = n.before p ++ (((n.child p).upTo ip ++ x :: (r ++ (n.child p).after ip)) ++ n.after p) := by
  have hl := hr.left
  have hrt := hr.right
  calc m.before q ++ (((m.child q).upTo jp ++ x :: (r ++ (m.child q).after jp)) ++ m.after q)
      = (m.before q ++ (m.child q).upTo jp) ++ x :: (r ++ ((m.child q).after jp ++ m.after q)) := by
        simp
    _ = _ := by
        rw [hl, hrt]
        simp

theorem Rebalanced.insert_same (hr : Rebalanced L h n p ip d m p jp) (hc : Filled L h c)
    (hkeys : inorder c = (m.child p).upTo jp ++ x :: (r ++ (m.child p).after jp)) :
    Shaped L (h + 1) (m.setChild p c) ∧
      inorder (m.setChild p c) = n.before p
        ++ (((n.child p).upTo ip ++ x :: (r ++ (n.child p).after ip)) ++ n.after p) := by
  have hself := child_setChild_self hr.frame.ne_null p c
  constructor
  · exact (hr.frame.setChild c).shaped (by rw [hself]; exact hc)
  · rw [(hr.frame.setChild c).inorder_eq, hself, before_setChild, after_setChild, hkeys, hr.keys_eq]

/-- Inserting into a neighbour of the child that was full, once the count of that
child is put right. -/
theorem Rebalanced.insert_other {b : BPTreeNode K} (hr : Rebalanced L h n p ip d m q jp)
    (hb : Filled L h b) (hbk : inorder b = inorder (m.child p)) (hc : Filled L h c)
    (hkeys : inorder c = (m.child q).upTo jp ++ x :: (r ++ (m.child q).after jp)) :
    Shaped L (h + 1) ((m.setChild p b).setChild q c) ∧
      inorder ((m.setChild p b).setChild q c) = n.before p
        ++ (((n.child p).upTo ip ++ x :: (r ++ (n.child p).after ip)) ++ n.after p) := by
  -- with `b` in place the node is whole again, and child `q` can be put in focus
  have hm : Shaped L (h + 1) (m.setChild p b) :=
    (hr.frame.setChild b).shaped (by rw [child_setChild_self hr.frame.ne_null]; exact hb)
  have hf : Frame L h (m.setChild p b) q := hm.frame (by simpa using hr.pos_le)
  have hself := child_setChild_self hf.ne_null q c
  have hsub := sub_setChild_of_inorder_eq hr.frame.ne_null hbk
  have hbefore : (m.setChild p b).before q = m.before q := by
    rw [before, before, hsub, key_setChild]
  have hafter : (m.setChild p b).after q = m.after q := by
    rw [after, after, hsub, key_setChild, numItems_setChild]
  constructor
  · exact (hf.setChild c).shaped (by rw [hself]; exact hc)
  · rw [(hf.setChild c).inorder_eq, hself, before_setChild, after_setChild, hbefore, hafter, hkeys,
      hr.keys_eq]

theorem Rebalanced.shaped_child (hr : Rebalanced L h n p ip d m q jp) :
    Shaped L h (m.child q) ∧ L.low h ≤ (m.child q).numItems := by
  by_cases hqp : q = p
  · rw [hqp]
    exact ⟨hr.shaped, hr.low_le⟩
  · have := hr.frame.others q hr.pos_le hqp
    exact ⟨this.shaped, this.low_le⟩

end Insert

/-! ### Filling up or merging away a child -/

section Merge

variable {h i : ℕ} {n : BPTreeNode K}

theorem mergePair_spec (hf : PairFrame L h n i) {c : BPTreeNode K} (hc : Filled L h c)
    (hkeys : inorder c = inorder (n.child i) ++ n.key i :: inorder (n.child (i + 1))) :
    Shaped L (h + 1) ((n.setChild i c).shiftLeft i true) ∧
      inorder ((n.setChild i c).shiftLeft i true) = inorder n ∧
      ((n.setChild i c).shiftLeft i true).innerTreeCount = n.innerTreeCount ∧
      ((n.setChild i c).shiftLeft i true).numItems = n.numItems - 1 := by
  obtain ⟨hn, hleaf, hnum, hi, hrest⟩ := hf
  have hpair := inorder_pair hleaf hi
  rw [← hkeys] at hpair
  cases n with
  | null => exact absurd rfl hn
  | mk leaf m k t ch =>
    rw [isLeaf_mk] at hleaf
    subst hleaf
    rw [numItems_mk] at hi hnum hrest
    set d : BPTreeNode K := ((mk false m k t ch).setChild i c).shiftLeft i true with hd
    have hdmk : d = mk false (m - 1) (blit k i k (i + 1) (m - i - 1)) t
        (if false = true ∨ m ≤ i + 1 then update ch i c
          else blit (update ch i c) (i + 1) (update ch i c) (i + 1 + 1)
            (m - (i + 1))) :=
      shiftLeft_mk false m k t (update ch i c) i true
    -- the children of the result: those before the pair, the merged one, those after it
    have hlt : ∀ j < i, d.child j = ch j := fun j hj => by
      rw [hdmk, child_mk]
      split
      · rw [update_of_ne (by omega)]
      · rw [blit, if_neg (by omega), update_of_ne (by omega)]
    have hat : d.child i = c := by
      rw [hdmk, child_mk]
      split
      · rw [update_self]
      · rw [blit, if_neg (by omega), update_self]
    have hgt : ∀ j, i < j → j ≤ m - 1 → d.child j = ch (j + 1) := fun j hj hj' => by
      rw [hdmk, child_mk, if_neg (by simp; omega), blit, if_pos (by omega),
        update_of_ne (by omega)]
      congr 1
      omega
    have hdleaf : d.isLeaf = false := by rw [hdmk]; rfl
    have hdnum : d.numItems = m - 1 := by rw [hdmk]; rfl
    refine ⟨shaped_succ_iff.mpr ⟨by rw [hdmk]; simp, hdleaf, by omega, fun j hj => ?_⟩, ?_,
      by rw [hdmk]; rfl, hdnum⟩
    · rw [hdnum] at hj
      rcases lt_trichotomy j i with hji | hji | hji
      · rw [hlt j hji]
        exact hrest j (by omega) (by omega) (by omega)
      · rw [hji, hat]
        exact hc
      · rw [hgt j hji hj]
        exact hrest (j + 1) (by omega) (by omega) (by omega)
    · rw [hpair, inorder_eq, hdnum]
      refine (interleave_erase (mk false m k t ch).key (mk false m k t ch).sub
        (show i ≤ m - 1 by omega) ?_ ?_ ?_ ?_).trans ?_
      · intro j hj
        rw [hdmk, key_mk, key_mk, blit, if_neg (by omega)]
      · intro j hij hj
        rw [hdmk, key_mk, key_mk, blit, if_pos (by omega)]
        congr 1
        omega
      · intro j hj
        rw [sub_of_inner hdleaf, hlt j hj, sub_of_inner rfl, child_mk]
      · intro j hij hj
        rw [sub_of_inner hdleaf, hgt j hij hj, sub_of_inner rfl, child_mk]
      · rw [sub_of_inner hdleaf, hat, show m - 1 - i = m - (i + 1) by omega]
        rfl

theorem mergeChildren_spec (hf : PairFrame L h n i) (hl : Shaped L h (n.child i))
    (hlc : Surplus (n.child i) 0) (hr : Shaped L h (n.child (i + 1)))
    (hrc : Surplus (n.child (i + 1)) 0)
    (hcap : (n.child i).numItems + 1 + (n.child (i + 1)).numItems ≤ L.cap h)
    (hlow : L.low h ≤ (n.child i).numItems + 1 + (n.child (i + 1)).numItems) :
    let m := (n.setChild i ((n.child i).mergeFromRight (n.key i) (n.child (i + 1)))).shiftLeft i true
    Shaped L (h + 1) m ∧ inorder m = inorder n ∧ m.innerTreeCount = n.innerTreeCount ∧
      m.numItems = n.numItems - 1 := by
  have hj := mergeFromRight_joined hl.ne_null (hl.isLeaf_congr hr) (n.key i)
  have hkeys : inorder ((n.child i).mergeFromRight (n.key i) (n.child (i + 1)))
      = inorder (n.child i) ++ n.key i :: inorder (n.child (i + 1)) := by
    rw [hj.inorder_eq, ← inorder_eq, ← inorder_eq]
  refine mergePair_spec hf ⟨hj.shaped hl hr (by omega) (by omega) hcap, ?_, ?_⟩ hkeys
  · rw [hj.num]
    exact hlow
  · rw [treeCount_mergeFromRight hl hr, hlc, hrc, hkeys, length_append, length_cons,
      UInt32.ofNat_add, UInt32.ofNat_add, UInt32.ofNat_one]
    grind

theorem mergeOrRebalanceChild_spec {p : ℕ} (hL : L.Roomy) (hf : Frame L h n p)
    (hs : Shaped L h (n.child p)) (hc : Surplus (n.child p) 0)
    (hweak : (n.child p).numItems < L.cap h / 2) (h1 : 1 ≤ n.numItems) :
    let r := n.mergeOrRebalanceChild L p
    Shaped L (h + 1) r.1 ∧ inorder r.1 = inorder n ∧ r.1.innerTreeCount = n.innerTreeCount ∧
      r.1.numItems = n.numItems - (if r.2 then 1 else 0) := by
  have hpos := hf.pos_le
  have hcap3 := hL.cap h
  have hlowdef : L.low h = (L.cap h - 1) / 2 := rfl
  -- the neighbours of child `p` are as they should be
  have hside : ∀ j ≤ n.numItems, j ≠ p → Filled L h (n.child j) := hf.others
  unfold mergeOrRebalanceChild
  simp only
  by_cases hmerge : 0 < p ∧ (n.child (p - 1)).numItems + 1 + (n.child p).numItems
      ≤ (n.child (p - 1)).maxItems L
  · rw [if_pos hmerge]
    obtain ⟨i, rfl⟩ : ∃ i, p = i + 1 := ⟨p - 1, by omega⟩
    have hleft := hside i (by omega) (by omega)
    rw [Nat.add_sub_cancel] at hmerge ⊢
    rw [hleft.shaped.maxItems_eq] at hmerge
    have hlo := hleft.low_le
    exact mergeChildren_spec (hf.pair (.inr rfl) hpos) hleft.shaped hleft.surplus hs hc hmerge.2
      (by omega)
  · rw [if_neg hmerge]
    by_cases hp : p < n.numItems
    · rw [if_pos hp]
      have hright := hside (p + 1) (by omega) (by omega)
      rw [hright.shaped.maxItems_eq]
      by_cases hmr : (n.child p).numItems + 1 + (n.child (p + 1)).numItems ≤ L.cap h
      · rw [if_pos hmr]
        have hlo := hright.low_le
        exact mergeChildren_spec (hf.pair (.inl rfl) hp) hs hc hright.shaped hright.surplus hmr
          (by omega)
      · -- too many keys for one node, so enough of them for two
        rw [if_neg hmr]
        have hub := hright.shaped.numItems_le
        set count := ((n.child (p + 1)).numItems - (n.child p).numItems) / 2 with hcount
        have hm := moved_left hs hright.shaped (n.key p) (show 1 ≤ count by omega) (by omega)
          (by omega)
        have hj := gainFromRight_joined hs.ne_null (hs.isLeaf_congr hright.shaped)
          (n.key p) (show 1 ≤ count by omega)
        have hcut := loseToLeft_cut hright.shaped.ne_null (show 1 ≤ count by omega) (by omega)
        rw [rebalanceChildToLeft_eq]
        exact (hf.pair (.inl rfl) hp).refill hm hc hright.surplus (by rw [hj.num]; omega)
          (by rw [hcut.num]; omega)
    · -- the last child: there is only a left neighbour, too full for a merge
      rw [if_neg hp, if_pos (show 0 < p by omega)]
      obtain ⟨i, rfl⟩ : ∃ i, p = i + 1 := ⟨p - 1, by omega⟩
      have hleft := hside i (by omega) (by omega)
      have hub := hleft.shaped.numItems_le
      rw [Nat.add_sub_cancel, hleft.shaped.maxItems_eq] at hmerge
      rw [Nat.add_sub_cancel]
      set count := ((n.child i).numItems - (n.child (i + 1)).numItems) / 2 with hcount
      have hm := moved_right hs hleft.shaped (n.key i) (show 1 ≤ count by omega) (by omega)
        (by omega)
      have hj := gainFromLeft_joined hs.ne_null (hs.isLeaf_congr hleft.shaped)
        (n.key i) (show 1 ≤ count by omega) (by omega)
      have hcut := loseToRight_cut hleft.shaped.ne_null (show 1 ≤ count by omega) (by omega)
      rw [rebalanceChildToRight_eq]
      exact (hf.pair (.inr rfl) hpos).refill hm hleft.surplus hc (by rw [hcut.num]; omega)
        (by rw [hj.num]; omega)

end Merge

/-! ### The keys of a node -/

/-- `m` has the keys and the count of `n`, and right counts below. -/
structure SameKeys (n m : BPTreeNode K) : Prop where
  keys : inorder m = inorder n
  count : m.treeCount = n.treeCount
  children : ∀ j ≤ m.numItems, Surplus (m.child j) 0

/-- The keys of `n`, with `x` put at place `ip` of child `p`. -/
def withKey (n : BPTreeNode K) (p ip : ℕ) (x : K) : List K :=
  n.before p ++ (((n.child p).upTo ip ++ x :: (n.child p).after ip) ++ n.after p)

section SameKeys

variable {h p i : ℕ} {n : BPTreeNode K}

theorem PairFrame.sameKeys {a b : BPTreeNode K} {k : K} (hf : PairFrame L h n i)
    (hm : Moved L h (n.child i) (n.key i) (n.child (i + 1)) a k b)
    (hx : Surplus (n.child i) 0) (hy : Surplus (n.child (i + 1)) 0) :
    SameKeys n (n.setPair i a k b) := by
  refine ⟨inorder_setPair hf.ne_null hf.inner hf.pos_le hm.keys, ?_, fun j hj => ?_⟩
  · rw [treeCount_of_inner (by simpa using hf.inner), treeCount_of_inner hf.inner,
      innerTreeCount_setPair]
  · rw [numItems_setPair] at hj
    by_cases hi : j = i
    · rw [hi, child_setPair_left hf.ne_null]
      exact hm.surplus_left hx
    · by_cases hi' : j = i + 1
      · rw [hi', child_setPair_right hf.ne_null]
        exact hm.surplus_right hy
      · rw [child_setPair_of_ne hi hi']
        exact (hf.others j hj hi hi').surplus

theorem Rebalanced.sameKeys {ip q jp : ℕ} {m : BPTreeNode K} (hf : Frame L h n p)
    (hip : ip ≤ (n.child p).numItems) (hr : Rebalanced L h n p ip 0 m q jp) : SameKeys n m := by
  refine ⟨?_, ?_, fun j hj => ?_⟩
  · calc inorder m = (m.before q ++ (m.child q).upTo jp) ++ ((m.child q).after jp ++ m.after q) := by
          rw [inorder_focus hr.frame.inner hr.pos_le, inorder_cut hr.ins_le]
          simp
      _ = inorder n := by
          rw [hr.left, hr.right, hf.inorder_eq, inorder_cut hip]
          simp
  · rw [treeCount_of_inner hr.frame.inner, treeCount_of_inner hf.inner, hr.count]
  · by_cases hjp : j = p
    · rw [hjp]
      exact hr.surplus
    · exact (hr.frame.others j hj hjp).surplus

/-- The conditions are those that the functions assert: `RebalanceChild` is for a full child, and
`MergeOrRebalanceChild` for one with too few keys. -/
theorem rebalancing_keeps (hL : L.Roomy) (hf : Frame L h n p) (hs : Shaped L h (n.child p))
    (hc : Surplus (n.child p) 0) :
    ((n.child p).numItems = L.cap h → ∀ ip ≤ L.cap h, ∀ m q jp,
      n.rebalanceChild L p ip = some (m, q, jp) → SameKeys n m ∧ q ≤ m.numItems ∧
        jp ≤ (m.child q).numItems ∧ (m.child q).numItems < L.cap h ∧
        ∀ x, m.withKey q jp x = n.withKey p ip x) ∧
    (∀ count, 0 < p → 1 ≤ count → count ≤ (n.child p).numItems →
      count ≤ (n.child (p - 1)).availableSlotCount L →
      SameKeys n (n.rebalanceChildToLeft p count)) ∧
    (∀ count, p < n.numItems → 1 ≤ count → count ≤ (n.child p).numItems →
      count ≤ (n.child (p + 1)).availableSlotCount L →
      SameKeys n (n.rebalanceChildToRight p count)) ∧
    (1 ≤ n.numItems → (n.child p).numItems < (n.child p).minItems L →
      SameKeys n (n.mergeOrRebalanceChild L p).1) := by
  have hpos := hf.pos_le
  refine ⟨fun hfull ip hip m q jp hr => ?_, fun count hp h1 hcount hfree => ?_,
    fun count hp h1 hcount hfree => ?_, fun h1 hweak => ?_⟩
  · have hspec := rebalanceChild_spec hf hs hfull hc hip hr
    refine ⟨hspec.sameKeys hf (hfull ▸ hip), hspec.pos_le, hspec.ins_le, hspec.room, fun x => ?_⟩
    simpa [withKey] using hspec.keys_eq x []
  · obtain ⟨i, rfl⟩ : ∃ i, p = i + 1 := ⟨p - 1, by omega⟩
    have hdest := hf.others i (by omega) (by omega)
    have hcap := hdest.shaped.numItems_le
    rw [Nat.add_sub_cancel, availableSlotCount, hdest.shaped.maxItems_eq] at hfree
    exact (hf.pair (.inr rfl) hpos).sameKeys (moved_left hdest.shaped hs _ h1 hcount (by omega))
      hdest.surplus hc
  · have hdest := hf.others (p + 1) (by omega) (by omega)
    have hcap := hdest.shaped.numItems_le
    rw [availableSlotCount, hdest.shaped.maxItems_eq] at hfree
    rw [rebalanceChildToRight_eq]
    exact (hf.pair (.inl rfl) hp).sameKeys (moved_right hdest.shaped hs _ h1 hcount (by omega))
      hc hdest.surplus
  · rw [hs.minItems_eq] at hweak
    obtain ⟨hshaped, hkeys, hcount, -⟩ := mergeOrRebalanceChild_spec hL hf hs hc hweak h1
    refine ⟨hkeys, ?_, fun j hj => (hshaped.child hj).surplus⟩
    rw [treeCount_of_inner hshaped.2.1, treeCount_of_inner hf.inner, hcount]

/-- Keys of 63 bytes: four to a leaf, three to an inner node. -/
def layout63 : BPNodeLayout := ⟨63, by decide, by decide⟩

def sampleParent : BPTreeNode ℤ :=
  mk false 1 (fun _ => 5) 6 fun i => if i = 0 then mk true 4 (fun i => i + 1) 0 fun _ => null
    else mk true 1 (fun _ => 6) 0 fun _ => null

theorem rebalancing_keeps_sample :
    ∃ m q jp, sampleParent.rebalanceChild layout63 0 4 = some (m, q, jp) ∧
      ∀ x, m.withKey q jp x = sampleParent.withKey 0 4 x := by
  refine ⟨_, _, _, rfl, ((rebalancing_keeps (L := layout63) (h := 0)
    ⟨by decide, by decide⟩ ⟨by simp [sampleParent], rfl, by decide, by decide, fun i hi hne => ?_⟩
    ⟨rfl, by decide⟩ (surplus_of_leaf rfl)).1 rfl 4 (by decide) _ _ _ rfl).2.2.2.2⟩
  obtain rfl : i = 1 := by
    have hle : i ≤ 1 := hi
    omega
  exact .of_surplus ⟨rfl, by decide⟩ (by decide) (surplus_of_leaf rfl)

end SameKeys

end BPTreeNode
