/-
The shape of a B+tree.

`Shaped L h n` says that `n` has `h` levels of inner nodes below it, that no node
holds more keys than fit, that every node below `n` holds at least `L.low` keys,
and that the cached counts below `n` are right.  The count of `n` itself may not be
right yet in `InsertToFullLeaf` and `Delete`; `Filled` adds it, with the lower bound
on the keys of `n`.

`MinItems()` is not a lower bound: `Split` of a full node with an even number of keys
leaves one less in the right half.
-/
import AstraDB.BPTreeNode

open Loops BPNodeLayout

set_option linter.unusedSectionVars false

namespace BPNodeLayout

variable (L : BPNodeLayout)

/-- The capacity of a node with `h` levels below it. -/
def cap (h : ℕ) : ℕ := if h = 0 then L.kMaxLeafKeys else L.kMaxInnerKeys

/-- The least number of keys of a node other than the root. -/
def low (h : ℕ) : ℕ := (L.cap h - 1) / 2

/-- Nodes are wide enough for both halves of a split to hold a key. -/
def Roomy : Prop := 3 ≤ L.kMaxLeafKeys ∧ 3 ≤ L.kMaxInnerKeys

variable {L}

theorem Roomy.cap (hL : L.Roomy) (h : ℕ) : 3 ≤ L.cap h := by
  unfold BPNodeLayout.cap
  split
  · exact hL.1
  · exact hL.2

theorem Roomy.low_pos (hL : L.Roomy) (h : ℕ) : 1 ≤ L.low h := by
  have := hL.cap h
  unfold low
  omega

end BPNodeLayout

namespace BPTreeNode

variable {K : Type} [Inhabited K] {L : BPNodeLayout}

/-- The keys of child `i`; a leaf has no children. -/
def sub (n : BPTreeNode K) (i : ℕ) : List K := if n.isLeaf then [] else inorder (n.child i)

theorem inorder_eq (n : BPTreeNode K) : inorder n = interleave n.key n.sub 0 n.numItems := by
  cases n with
  | null => rfl
  | mk leaf m k t c => rfl

variable {n : BPTreeNode K} {i h : ℕ}

theorem sub_of_inner (h : n.isLeaf = false) (i : ℕ) : n.sub i = inorder (n.child i) := by
  simp [sub, h]

theorem sub_of_leaf (h : n.isLeaf = true) : n.sub = fun _ => [] := by
  funext i
  simp [sub, h]

/-- The keys before child `p`. -/
def before (n : BPTreeNode K) (p : ℕ) : List K := leading n.key n.sub p

/-- The keys before key `p`: those before child `p`, and its own. -/
def upTo (n : BPTreeNode K) (p : ℕ) : List K := interleave n.key n.sub 0 p

/-- The keys from key `p` on, which is also what follows child `p`. -/
def after (n : BPTreeNode K) (p : ℕ) : List K := trailing n.key n.sub p (n.numItems - p)

theorem upTo_eq (n : BPTreeNode K) (p : ℕ) : n.upTo p = n.before p ++ n.sub p := by
  have h := interleave_focus n.key n.sub p 0
  rwa [Nat.add_zero, trailing, List.append_nil] at h

theorem inorder_cut {p : ℕ} (hp : p ≤ n.numItems) : inorder n = n.upTo p ++ n.after p := by
  rw [inorder_eq]
  exact interleave_cut n.key n.sub hp

theorem after_eq_cons {p : ℕ} (hp : p < n.numItems) :
    n.after p = n.key p :: (n.sub (p + 1) ++ n.after (p + 1)) := by
  unfold after
  rw [show n.numItems - p = (n.numItems - (p + 1)) + 1 by omega, trailing]

@[simp] theorem after_numItems (n : BPTreeNode K) : n.after n.numItems = [] := by
  rw [after, Nat.sub_self, trailing]

theorem upTo_numItems (n : BPTreeNode K) : n.upTo n.numItems = inorder n := (inorder_eq n).symm

@[simp] theorem before_zero (n : BPTreeNode K) : n.before 0 = [] := rfl

theorem before_succ (n : BPTreeNode K) (p : ℕ) :
    n.before (p + 1) = n.upTo p ++ [n.key p] := leading_succ_eq n.key n.sub p

theorem length_inorder_of_leaf (h : n.isLeaf = true) : (inorder n).length = n.numItems := by
  rw [inorder_eq, sub_of_leaf h, interleave_nils, List.length_map, List.length_range]

theorem treeCount_of_leaf (h : n.isLeaf = true) :
    n.treeCount = UInt32.ofNat (inorder n).length := by
  rw [length_inorder_of_leaf h]
  simp [treeCount, h]

theorem treeCount_of_inner (h : n.isLeaf = false) : n.treeCount = n.innerTreeCount := by
  simp [treeCount, h]

section Fields

variable (leaf : Bool) (m : ℕ) (k : ℕ → K) (t : UInt32) (c : ℕ → BPTreeNode K)

@[simp] theorem isLeaf_mk : (mk leaf m k t c).isLeaf = leaf := rfl

@[simp] theorem numItems_mk : (mk leaf m k t c).numItems = m := rfl

@[simp] theorem key_mk (i : ℕ) : (mk leaf m k t c).key i = k i := rfl

@[simp] theorem child_mk (i : ℕ) : (mk leaf m k t c).child i = c i := rfl

@[simp] theorem innerTreeCount_mk : (mk leaf m k t c).innerTreeCount = t := rfl

end Fields

@[simp] theorem isLeaf_mapKeys (f) (n : BPTreeNode K) : (n.mapKeys f).isLeaf = n.isLeaf := by
  cases n <;> rfl

@[simp] theorem isLeaf_mapChildren (f) (n : BPTreeNode K) :
    (n.mapChildren f).isLeaf = n.isLeaf := by cases n <;> rfl

@[simp] theorem isLeaf_setTreeCount (t : UInt32) (n : BPTreeNode K) :
    (n.setTreeCount t).isLeaf = n.isLeaf := by cases n <;> rfl

@[simp] theorem isLeaf_setKey (n : BPTreeNode K) (i : ℕ) (x : K) :
    (n.setKey i x).isLeaf = n.isLeaf := isLeaf_mapKeys _ n

@[simp] theorem isLeaf_setChild (n : BPTreeNode K) (i : ℕ) (c : BPTreeNode K) :
    (n.setChild i c).isLeaf = n.isLeaf := isLeaf_mapChildren _ n

@[simp] theorem isLeaf_increaseTreeCount (n : BPTreeNode K) (d : UInt32) :
    (n.increaseTreeCount d).isLeaf = n.isLeaf := isLeaf_setTreeCount _ n

@[simp] theorem numItems_setKey (n : BPTreeNode K) (i : ℕ) (x : K) :
    (n.setKey i x).numItems = n.numItems := by cases n <;> rfl

@[simp] theorem numItems_setChild (n : BPTreeNode K) (i : ℕ) (c : BPTreeNode K) :
    (n.setChild i c).numItems = n.numItems := by cases n <;> rfl

@[simp] theorem numItems_increaseTreeCount (n : BPTreeNode K) (d : UInt32) :
    (n.increaseTreeCount d).numItems = n.numItems := by cases n <;> rfl

@[simp] theorem key_setChild (n : BPTreeNode K) (i : ℕ) (c : BPTreeNode K) :
    (n.setChild i c).key = n.key := by cases n <;> rfl

@[simp] theorem key_increaseTreeCount (n : BPTreeNode K) (d : UInt32) :
    (n.increaseTreeCount d).key = n.key := by cases n <;> rfl

@[simp] theorem child_setKey (n : BPTreeNode K) (i : ℕ) (x : K) :
    (n.setKey i x).child = n.child := by cases n <;> rfl

@[simp] theorem child_increaseTreeCount (n : BPTreeNode K) (d : UInt32) :
    (n.increaseTreeCount d).child = n.child := by cases n <;> rfl

@[simp] theorem innerTreeCount_setKey (n : BPTreeNode K) (i : ℕ) (x : K) :
    (n.setKey i x).innerTreeCount = n.innerTreeCount := by cases n <;> rfl

@[simp] theorem innerTreeCount_setChild (n : BPTreeNode K) (i : ℕ) (c : BPTreeNode K) :
    (n.setChild i c).innerTreeCount = n.innerTreeCount := by cases n <;> rfl

@[simp] theorem setKey_ne_null {x : K} :
    n.setKey i x ≠ null ↔ n ≠ null := by cases n <;> simp [setKey, mapKeys]

@[simp] theorem setChild_ne_null {c : BPTreeNode K} :
    n.setChild i c ≠ null ↔ n ≠ null := by cases n <;> simp [setChild, mapChildren]

@[simp] theorem increaseTreeCount_ne_null {d : UInt32} :
    n.increaseTreeCount d ≠ null ↔ n ≠ null := by
  cases n <;> simp [increaseTreeCount, setTreeCount]

theorem key_setKey (hn : n ≠ null) (i : ℕ) (x : K) :
    (n.setKey i x).key = Function.update n.key i x := by
  cases n with
  | null => exact absurd rfl hn
  | mk leaf m k t c => rfl

theorem child_setChild (hn : n ≠ null) (i : ℕ) (c : BPTreeNode K) :
    (n.setChild i c).child = Function.update n.child i c := by
  cases n with
  | null => exact absurd rfl hn
  | mk leaf m k t ch => rfl

theorem innerTreeCount_increaseTreeCount (hn : n ≠ null) (d : UInt32) :
    (n.increaseTreeCount d).innerTreeCount = n.innerTreeCount + d := by
  cases n with
  | null => exact absurd rfl hn
  | mk leaf m k t c => rfl

/-- `h` levels of inner nodes below `n`, no node over capacity, and below `n`
every node half full (less one) and with the right count. -/
def Shaped (L : BPNodeLayout) : ℕ → BPTreeNode K → Prop
  | 0, n => n.isLeaf = true ∧ n.numItems ≤ L.kMaxLeafKeys
  -- the conditions on a child are those of `Filled` below
  | h + 1, n => n ≠ null ∧ n.isLeaf = false ∧ n.numItems ≤ L.kMaxInnerKeys ∧
      ∀ i ≤ n.numItems, Shaped L h (n.child i) ∧ L.low h ≤ (n.child i).numItems ∧
        (n.child i).treeCount = UInt32.ofNat (inorder (n.child i)).length

/-- A node that may stand below another one. -/
structure Filled (L : BPNodeLayout) (h : ℕ) (n : BPTreeNode K) : Prop where
  shaped : Shaped L h n
  low_le : L.low h ≤ n.numItems
  count : n.treeCount = UInt32.ofNat (inorder n).length

theorem shaped_succ_iff :
    Shaped L (h + 1) n ↔ n ≠ null ∧ n.isLeaf = false ∧ n.numItems ≤ L.kMaxInnerKeys ∧
      ∀ i ≤ n.numItems, Filled L h (n.child i) := by
  constructor
  · rintro ⟨h1, h2, h3, h4⟩
    exact ⟨h1, h2, h3, fun i hi => ⟨(h4 i hi).1, (h4 i hi).2.1, (h4 i hi).2.2⟩⟩
  · rintro ⟨h1, h2, h3, h4⟩
    exact ⟨h1, h2, h3, fun i hi => ⟨(h4 i hi).shaped, (h4 i hi).low_le, (h4 i hi).count⟩⟩

theorem Shaped.ne_null : ∀ {h : ℕ} {n : BPTreeNode K}, Shaped L h n → n ≠ null
  | 0, _, hs => by
    rintro rfl
    exact absurd hs.1 (by simp [isLeaf])
  | _ + 1, _, hs => hs.1

theorem Shaped.exists_mk (hs : Shaped L h n) : ∃ leaf m k t c, n = mk leaf m k t c := by
  cases n with
  | null => exact absurd rfl hs.ne_null
  | mk leaf m k t c => exact ⟨leaf, m, k, t, c, rfl⟩

theorem Shaped.isLeaf_eq : ∀ {h : ℕ} {n : BPTreeNode K}, Shaped L h n →
    n.isLeaf = decide (h = 0)
  | 0, _, hs => by simpa using hs.1
  | _ + 1, _, hs => by simpa using hs.2.1

theorem Shaped.isLeaf_congr {a b : BPTreeNode K} (ha : Shaped L h a) (hb : Shaped L h b) :
    a.isLeaf = b.isLeaf := ha.isLeaf_eq.trans hb.isLeaf_eq.symm

theorem Shaped.numItems_le : ∀ {h : ℕ} {n : BPTreeNode K}, Shaped L h n →
    n.numItems ≤ L.cap h
  | 0, _, hs => hs.2
  | _ + 1, _, hs => hs.2.2.1

theorem Shaped.maxItems_eq (hs : Shaped L h n) : n.maxItems L = L.cap h := by
  simp [maxItems, hs.isLeaf_eq, cap]

theorem Shaped.minItems_eq (hs : Shaped L h n) : n.minItems L = L.cap h / 2 := by
  cases h with
  | zero => simp [minItems, hs.isLeaf_eq, cap, kMinLeafKeys]
  | succ h => simp [minItems, hs.isLeaf_eq, cap, kMinInnerKeys]

theorem Shaped.of_children (hn : n ≠ null) (hleaf : n.isLeaf = decide (h = 0))
    (hcap : n.numItems ≤ L.cap h)
    (hch : ∀ h', h = h' + 1 → ∀ i ≤ n.numItems, Filled L h' (n.child i)) : Shaped L h n := by
  cases h with
  | zero => exact ⟨by simpa using hleaf, hcap⟩
  | succ h => exact shaped_succ_iff.mpr ⟨hn, by simpa using hleaf, hcap, hch h rfl⟩

theorem Shaped.child (hs : Shaped L (h + 1) n) (hi : i ≤ n.numItems) :
    Filled L h (n.child i) := (shaped_succ_iff.mp hs).2.2.2 i hi

end BPTreeNode
