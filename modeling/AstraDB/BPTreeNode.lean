/-
B+tree nodes: `detail::BPNodeLayout` and `detail::BPTreeNode`.

A node has slots for keys and for children, the number of those in use and, if it
is an inner node, the cached number of keys of its subtree.  It is owned by its
parent, so a `BPTreeNode*` is the node it points to (`null` for `nullptr`), and a
write through such a pointer writes the node back into its slot.  Slots past the
used ones keep what was written there last, as in the source.

`num_items_` has 7 bits; no layout asks for more than 127 items, so items are
counted in `ℕ`.  Subtree counts are `uint32_t`.

Assertions are compiled out of the default (Release) build and left out; reading a
slot of an empty node, a null pointer or a missing path record gives `none`.
-/
import AstraDB.Interleave
import AstraDB.Loops

open Loops Function

/-- `BPNodeLayout<T>`: how many keys of `keySize` bytes fit in a node (pointers
have 8 bytes).  The source asserts that a leaf holds less than 128 keys. -/
structure BPNodeLayout where
  keySize : ℕ
  keySize_pos : 0 < keySize
  maxLeafKeys_lt : (256 - 4) / keySize < 128

namespace BPNodeLayout

variable (L : BPNodeLayout)

def kBPNodeSize : ℕ := 256

def kKeyOffset : ℕ := 4

def kSubTreeLen : ℕ := 4

def kMaxLeafKeys : ℕ := (kBPNodeSize - kKeyOffset) / L.keySize

def kMinLeafKeys : ℕ := L.kMaxLeafKeys / 2

def kMaxInnerKeys : ℕ := (kBPNodeSize - 8 - kKeyOffset - kSubTreeLen) / (L.keySize + 8)

def kMinInnerKeys : ℕ := L.kMaxInnerKeys / 2

end BPNodeLayout

/-- A `BPTreeNode<T>*`: the null pointer or a node. -/
inductive BPTreeNode (K : Type) where
  | null
  | mk (leaf : Bool) (numItems : ℕ) (key : ℕ → K) (innerTreeCount : UInt32)
      (child : ℕ → BPTreeNode K)

namespace BPTreeNode

variable {K : Type} [Inhabited K]

/-! ### Accessors -/

def isLeaf : BPTreeNode K → Bool
  | null => false
  | mk leaf _ _ _ _ => leaf

def numItems : BPTreeNode K → ℕ
  | null => 0
  | mk _ n _ _ _ => n

def key : BPTreeNode K → ℕ → K
  | null, _ => default
  | mk _ _ k _ _, i => k i

def child : BPTreeNode K → ℕ → BPTreeNode K
  | null, _ => null
  | mk _ _ _ _ c, i => c i

def innerTreeCount : BPTreeNode K → UInt32
  | null => 0
  | mk _ _ _ t _ => t

variable (n : BPTreeNode K)

/-- `TreeCount()`: the number of keys of the subtree, as the node knows it. -/
def treeCount : UInt32 :=
  if n.isLeaf then UInt32.ofNat n.numItems else n.innerTreeCount

def maxItems (L : BPNodeLayout) (n : BPTreeNode K) : ℕ :=
  if n.isLeaf then L.kMaxLeafKeys else L.kMaxInnerKeys

def minItems (L : BPNodeLayout) (n : BPTreeNode K) : ℕ :=
  if n.isLeaf then L.kMinLeafKeys else L.kMinInnerKeys

def availableSlotCount (L : BPNodeLayout) (n : BPTreeNode K) : ℕ := n.maxItems L - n.numItems

/-- `CreateNode(leaf)`: fresh slots hold no particular key. -/
def createNode (leaf : Bool) : BPTreeNode K := mk leaf 0 (fun _ => default) 0 (fun _ => null)

/-! ### Writing to a node -/

def setNumItems (m : ℕ) : BPTreeNode K → BPTreeNode K
  | null => null
  | mk leaf _ k t c => mk leaf m k t c

def mapKeys (f : (ℕ → K) → ℕ → K) : BPTreeNode K → BPTreeNode K
  | null => null
  | mk leaf n k t c => mk leaf n (f k) t c

def mapChildren (f : (ℕ → BPTreeNode K) → ℕ → BPTreeNode K) : BPTreeNode K → BPTreeNode K
  | null => null
  | mk leaf n k t c => mk leaf n k t (f c)

def setTreeCount (t : UInt32) : BPTreeNode K → BPTreeNode K
  | null => null
  | mk leaf n k _ c => mk leaf n k t c

def setKey (i : ℕ) (x : K) : BPTreeNode K :=
  n.mapKeys fun k => update k i x

def setChild (i : ℕ) (c : BPTreeNode K) : BPTreeNode K :=
  n.mapChildren fun cs => update cs i c

/-- `IncreaseTreeCount(delta)`; a negative `int32_t` is its residue modulo `2^32`. -/
def increaseTreeCount (delta : UInt32) : BPTreeNode K :=
  n.setTreeCount (n.innerTreeCount + delta)

def initSingle (x : K) : BPTreeNode K := (n.setKey 0 x).setNumItems 1

/-! ### Shifting -/

variable (index : ℕ)

/-- Opens slot `index` by moving everything from it on one slot up. -/
def shiftRight : BPTreeNode K :=
  let numItemsToShift := n.numItems - index
  let m := if 0 < numItemsToShift then
      let m := n.mapKeys fun k => blit k (index + 1) k index numItemsToShift
      if n.isLeaf then m
      else m.mapChildren fun c => blit c (index + 1) c index (numItemsToShift + 1)
    else n
  m.setNumItems (n.numItems + 1)

/-- Closes slot `index`; of an inner node the child `index`, or the one after it
(`childStepRight`), goes with the key. -/
def shiftLeft (childStepRight : Bool) : BPTreeNode K :=
  let numItemsToShift := n.numItems - index - 1
  let m := if 0 < numItemsToShift then
      let m := n.mapKeys fun k => blit k index k (index + 1) numItemsToShift
      if n.isLeaf then m
      else
        let index := if childStepRight then index + 1 else index
        m.mapChildren fun c => blit c index c (index + 1) (n.numItems - index)
    else n
  m.setNumItems (n.numItems - 1)

def insertItem (item : K) : BPTreeNode K :=
  (n.shiftRight index).setKey index item

def leafInsert (item : K) : BPTreeNode K :=
  n.insertItem index item

def leafEraseRight : BPTreeNode K := n.setNumItems (n.numItems - 1)

/-- Inserts `item` at `index` and `c` as the child after it; the subtree count is
left to the caller. -/
def innerInsert (item : K) (c : BPTreeNode K) : BPTreeNode K :=
  (n.insertItem index item).setChild (index + 1) c

/-! ### Searching -/

structure SearchResult where
  index : ℕ
  found : Bool
  deriving DecidableEq

/-- The binary search loop of `BSearch`; `c` compares the query with a key. -/
def bSearchLoop (n : BPTreeNode K) (c : K → ℤ) : ℕ → ℕ → ℕ → SearchResult
  | 0, _, hi => ⟨hi, false⟩
  | fuel + 1, lo, hi =>
    if lo < hi then
      let mid := (lo + hi) / 2
      let cmpRes := c (n.key mid)
      if cmpRes = 0 then ⟨mid, true⟩
      else if cmpRes < 0 then bSearchLoop n c fuel lo mid
      else bSearchLoop n c fuel (mid + 1) hi
    else ⟨hi, false⟩

/-- `BSearch`: the last key is looked at first, so an empty node is read out of
bounds. -/
def bSearch (c : K → ℤ) : Option SearchResult :=
  let hi := n.numItems
  if hi = 0 then none
  else
    -- the last key decides whether the loop is entered at all
    let cmpRes := c (n.key (hi - 1))
    if 0 ≤ cmpRes then some (if 0 < cmpRes then ⟨hi, false⟩ else ⟨hi - 1, true⟩)
    else some (bSearchLoop n c hi 0 (hi - 1))

/-! ### Splitting and merging -/

/-- `Split(right, &median)`: the left half, the right half and the median. -/
def split (n right : BPTreeNode K) : BPTreeNode K × BPTreeNode K × K :=
  let mid := n.numItems / 2
  let median := n.key mid
  let rightItems := n.numItems - (mid + 1)
  match right with
  | null => (n, null, median)
  | mk _ _ rk rt rc =>
    let rk := blit rk 0 n.key (mid + 1) rightItems
    if n.isLeaf then (n.setNumItems mid, mk n.isLeaf rightItems rk rt rc, median)
    else
      -- one loop moves the children and adds up their counts
      let (rightSubtreeCount, rc) := forUp 0 (rightItems + 1)
        (fun i s => (s.1 + (n.child (mid + 1 + i)).treeCount,
          update s.2 i (n.child (mid + 1 + i)))) (UInt32.ofNat rightItems, rc)
      ((n.increaseTreeCount (-(rightSubtreeCount + 1))).setNumItems mid,
        mk n.isLeaf rightItems rk rightSubtreeCount rc, median)

/-- `MergeFromRight(key, right)`; the emptied right node is retired by the caller. -/
def mergeFromRight (sep : K) (right : BPTreeNode K) : BPTreeNode K :=
  let destItems := n.numItems
  let m := n.setKey destItems sep
  let m := m.mapKeys (forUp 0 right.numItems
    fun i k => update k (destItems + 1 + i) (right.key i))
  let m := if n.isLeaf then m
    else (m.mapChildren (forUp 0 (right.numItems + 1)
      fun i c => update c (destItems + 1 + i) (right.child i))).increaseTreeCount
        (right.treeCount + 1)
  m.setNumItems (n.numItems + (1 + right.numItems))

/-! ### Rebalancing two neighbouring children -/

/-- The left neighbour after `RebalanceChildToLeft`: it gains the separator and
the first `count - 1` keys of `src`, with their children. -/
def gainFromRight (dest : BPTreeNode K) (sep : K) (src : BPTreeNode K) (count : ℕ) :
    BPTreeNode K :=
  let destItems := dest.numItems
  let d := dest.setKey destItems sep
  let d := d.mapKeys (forUp 1 count fun i k => update k (destItems + i) (src.key (i - 1)))
  let d := if src.isLeaf then d
    else
      let srcMoveCount := forUp 0 count (fun i s => s + (src.child i).treeCount) 0
      (d.mapChildren (forUp 0 count
        fun i c => update c (1 + destItems + i) (src.child i))).setTreeCount
          (dest.treeCount + srcMoveCount + UInt32.ofNat count)
  d.setNumItems (destItems + count)

/-- The right neighbour after `RebalanceChildToLeft`. -/
def loseToLeft (src : BPTreeNode K) (count : ℕ) : BPTreeNode K :=
  let s := src.mapKeys (forUp count src.numItems fun i k => update k (i - count) (k i))
  let s := if src.isLeaf then s
    else
      let srcMoveCount := forUp 0 count (fun i s => s + (src.child i).treeCount) 0
      (s.mapChildren (forUp count (src.numItems + 1) fun i c =>
        update (update c (i - count) (c i)) i null)).setTreeCount
          (src.treeCount - srcMoveCount - UInt32.ofNat count)
  s.setNumItems (src.numItems - count)

def rebalanceChildToLeft (childPos count : ℕ) : BPTreeNode K :=
  let src := n.child childPos
  let dest := n.child (childPos - 1)
  let dest' := dest.gainFromRight (n.key (childPos - 1)) src count
  let n := n.setKey (childPos - 1) (src.key (count - 1))
  (n.setChild (childPos - 1) dest').setChild childPos (src.loseToLeft count)

/-- The right neighbour after `RebalanceChildToRight`: it gains the last
`count - 1` keys of `src` and the separator, with the last `count` children. -/
def gainFromLeft (dest : BPTreeNode K) (sep : K) (src : BPTreeNode K) (count : ℕ) :
    BPTreeNode K :=
  let destItems := dest.numItems
  let d := dest.mapKeys (forDown destItems fun i k => update k (i + count) (k i))
  let d := d.mapKeys (forUp 1 count
    fun i k => update k (i - 1) (src.key (src.numItems - count + i)))
  let d := d.setKey (count - 1) sep
  let d := if src.isLeaf then d
    else
      let srcMoveCount := forUp 0 count
        (fun i s => s + (src.child (src.numItems - (count - 1) + i)).treeCount) 0
      ((d.mapChildren (forDown (destItems + 1)
        fun i c => update c (i + count) (c i))).mapChildren (forUp 0 count
          fun i c => update c i (src.child (src.numItems - (count - 1) + i)))).setTreeCount
            (dest.treeCount + srcMoveCount + UInt32.ofNat count)
  d.setNumItems (destItems + count)

/-- The left neighbour after `RebalanceChildToRight`. -/
def loseToRight (src : BPTreeNode K) (count : ℕ) : BPTreeNode K :=
  let s := if src.isLeaf then src
    else
      let srcMoveCount := forUp 0 count
        (fun i s => s + (src.child (src.numItems - (count - 1) + i)).treeCount) 0
      (src.mapChildren (forUp 0 count
        fun i c => update c (src.numItems - (count - 1) + i) null)).setTreeCount
          (src.treeCount - srcMoveCount - UInt32.ofNat count)
  s.setNumItems (src.numItems - count)

def rebalanceChildToRight (childPos count : ℕ) : BPTreeNode K :=
  let src := n.child childPos
  let dest := n.child (childPos + 1)
  let newDelim := src.key (src.numItems - count)
  let dest' := dest.gainFromLeft (n.key childPos) src count
  let n := n.setKey childPos newDelim
  (n.setChild (childPos + 1) dest').setChild childPos (src.loseToRight count)

/-- How many items `RebalanceChild` moves from child `pos` to its left
neighbour; `0` when it has none, or none with room enough. -/
def moveToLeft (L : BPNodeLayout) (n : BPTreeNode K) (pos insertPos : ℕ) : ℕ :=
  if 0 < pos then
    let destFree := (n.child (pos - 1)).availableSlotCount L
    if 0 < destFree then
      -- for an insertion at the end of the child the neighbour is filled up
      if insertPos = (n.child pos).numItems then destFree
      else if 1 < destFree then destFree / 2
      else 0
    else 0
  else 0

/-- How many items `RebalanceChild` moves from child `pos` to its right
neighbour. -/
def moveToRight (L : BPNodeLayout) (n : BPTreeNode K) (pos insertPos : ℕ) : ℕ :=
  if pos < n.numItems then
    let destFree := (n.child (pos + 1)).availableSlotCount L
    if 0 < destFree then
      if insertPos = 0 then destFree
      else if 1 < destFree then destFree / 2
      else 0
    else 0
  else 0

/-- `RebalanceChild(pos, insert_pos)`: on success the rebalanced node, the child
to insert into and the position there. -/
def rebalanceChild (L : BPNodeLayout) (n : BPTreeNode K) (pos insertPos : ℕ) :
    Option (BPTreeNode K × ℕ × ℕ) :=
  let toMove := n.moveToLeft L pos insertPos
  if toMove ≠ 0 then
    let destOldCount := (n.child (pos - 1)).numItems
    let m := n.rebalanceChildToLeft pos toMove
    -- the place went over to the neighbour, behind the old separator, or moved down
    if insertPos < toMove then some (m, pos - 1, destOldCount + insertPos + 1)
    else some (m, pos, insertPos - toMove)
  else
    let toMove := n.moveToRight L pos insertPos
    if toMove ≠ 0 then
      let m := n.rebalanceChildToRight pos toMove
      if (m.child pos).numItems < insertPos then
        some (m, pos + 1, insertPos - ((m.child pos).numItems + 1))
      else some (m, pos, insertPos)
    else none

/-- `MergeOrRebalanceChild(pos)`: the node, and whether a child was retired. -/
def mergeOrRebalanceChild (L : BPNodeLayout) (n : BPTreeNode K) (pos : ℕ) :
    BPTreeNode K × Bool :=
  let node := n.child pos
  let left := n.child (pos - 1)
  let right := n.child (pos + 1)
  -- first the left neighbour is tried for a merge, then the right one
  if 0 < pos ∧ left.numItems + 1 + node.numItems ≤ left.maxItems L then
    ((n.setChild (pos - 1) (left.mergeFromRight (n.key (pos - 1)) node)).shiftLeft (pos - 1) true,
      true)
  else if pos < n.numItems then
    if node.numItems + 1 + right.numItems ≤ right.maxItems L then
      ((n.setChild pos (node.mergeFromRight (n.key pos) right)).shiftLeft pos true, true)
    else (n.rebalanceChildToLeft (pos + 1) ((right.numItems - node.numItems) / 2), false)
  else if 0 < pos then
    (n.rebalanceChildToRight (pos - 1) ((left.numItems - node.numItems) / 2), false)
  else (n, false)

/-! ### Contents -/

/-- The keys of the subtree, left to right. -/
def inorder : BPTreeNode K → List K
  | null => []
  | mk leaf n k _ c => interleave k (fun i => if leaf then [] else inorder (c i)) 0 n

end BPTreeNode
