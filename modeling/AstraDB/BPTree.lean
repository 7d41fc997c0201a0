/-
The B+tree set: `BPTree<T, Policy>`.

Operations are functions on the tree's four fields.  `none` is an access out of
bounds: the null root, the last key of an empty node, a seventeenth path record
or the record of an empty path.

The comparator takes a query on the left and a key on the right; operations that
search are given the comparison with their query, `c = cmp(q, ·)`.
-/
import AstraDB.BPTreePath

open Loops

structure BPTree (K : Type) where
  root : BPTreeNode K
  count : UInt32
  height : UInt32
  numNodes : UInt32

namespace BPTree

open BPTreeNode BPTreePath

variable {K : Type} [Inhabited K]

def empty : BPTree K := ⟨.null, 0, 0, 0⟩

def size (t : BPTree K) : ℕ := t.count.toNat

def isNull : BPTreeNode K → Bool
  | .null => true
  | .mk .. => false

/-! ### Searching -/

/-- The descent of `Locate` below `node`, with the path so far. -/
def locateLoop (c : K → ℤ) : BPTreeNode K → BPTreePath K → Option (Bool × BPTreePath K)
  | .null, _ => none
  | .mk leaf n k t ch, path => do
    let res ← (BPTreeNode.mk leaf n k t ch).bSearch c
    let path ← push path (.mk leaf n k t ch) res.index
    if res.found then some (true, path)
    else if leaf then some (false, path)
    else locateLoop c (ch res.index) path

def locate (t : BPTree K) (c : K → ℤ) : Option (Bool × BPTreePath K) := locateLoop c t.root []

def contains (cmp : K → K → ℤ) (t : BPTree K) (item : K) : Option Bool := do
  let (found, _) ← t.locate (cmp item)
  some found

/-! ### Insertion -/

/-- The case of `InsertToFullLeaf`'s loop where the full inner node `node` makes
room by rebalancing through its parent; `none` when that did not succeed. -/
def insertRebalanced (L : BPNodeLayout) :
    BPTreePath K → BPTreeNode K → ℕ → K → BPTreeNode K → Option (BPTreeNode K)
  | [], _, _, _, _ => none
  | ⟨parent, parentPos⟩ :: rest, node, pos, median, right =>
    match (parent.setChild parentPos node).rebalanceChild L parentPos pos with
    | none => none
    | some (parent, newPos, innerPos) =>
      -- the count of the full node already has the keys of `right`: they go with the key
      let newNode := (parent.child newPos).innerInsert innerPos median right
      let parent :=
        if newPos ≠ parentPos then
          (parent.setChild parentPos
            ((parent.child parentPos).increaseTreeCount (-right.treeCount))).setChild newPos
              (newNode.increaseTreeCount (right.treeCount + 1))
        else parent.setChild newPos (newNode.increaseTreeCount 1)
      some (writeBack (increaseSubtreeCounts rest 1) (parent.increaseTreeCount 1))

/-- The loop of `InsertToFullLeaf` that hands `(median, right)` up the path,
`node` being the left half of the node just split. -/
def insertUp (L : BPNodeLayout) :
    BPTreePath K → BPTreeNode K → BPTreeNode K → K → BPTree K → BPTree K
  | [], node, right, median, t =>
    let newRoot := (((createNode false).initSingle median).setChild 0 node).setChild 1 right
    let newRoot := newRoot.setTreeCount (node.treeCount + right.treeCount + 1)
    { t with root := newRoot, height := t.height + 1, numNodes := t.numNodes + 1 }
  | ⟨n, pos⟩ :: rest, child, right, median, t =>
    let node := n.setChild pos child
    if node.numItems < L.kMaxInnerKeys then
      { t with
        root := writeBack (increaseSubtreeCounts rest 1)
          ((node.innerInsert pos median right).increaseTreeCount 1) }
    else
      match insertRebalanced L rest node pos median right with
      | some root => { t with root := root }
      | none =>
        let t := { t with numNodes := t.numNodes + 1 }
        let (node, nextRight, nextMedian) := node.split (createNode false)
        if pos ≤ node.numItems then
          insertUp L rest ((node.innerInsert pos median right).increaseTreeCount 1) nextRight
            nextMedian t
        else
          insertUp L rest (node.increaseTreeCount (-right.treeCount))
            ((nextRight.innerInsert (pos - node.numItems - 1) median right).increaseTreeCount
              (right.treeCount + 1)) nextMedian t

/-- `RebalanceLeafAndInsert`, and the subtree counts its caller then raises. -/
def rebalanceLeafAndInsert (L : BPNodeLayout) (item : K) (insertPos : ℕ) :
    BPTreePath K → Option (BPTreeNode K)
  | [] => none
  | ⟨parent, pos⟩ :: rest =>
    match parent.rebalanceChild L pos insertPos with
    | none => none
    | some (parent, newPos, innerPos) =>
      let parent := parent.setChild newPos ((parent.child newPos).leafInsert innerPos item)
      some (writeBack (increaseSubtreeCounts rest 1) (parent.increaseTreeCount 1))

/-- `InsertToFullLeaf(item, path)`, the leaf and the position being the path's
last record. -/
def insertToFullLeaf (L : BPNodeLayout) (t : BPTree K) (item : K) (leaf : BPTreeNode K)
    (insertPos : ℕ) (above : BPTreePath K) : BPTree K :=
  match rebalanceLeafAndInsert L item insertPos above with
  | some root => { t with root := root }
  | none =>
    let t := { t with numNodes := t.numNodes + 1 }
    let (node, right, median) := leaf.split (createNode true)
    if insertPos ≤ node.numItems then
      insertUp L above (node.leafInsert insertPos item) right median t
    else
      insertUp L above node (right.leafInsert (insertPos - node.numItems - 1) item) median t

def insert (L : BPNodeLayout) (cmp : K → K → ℤ) (t : BPTree K) (item : K) :
    Option (BPTree K × Bool) :=
  if isNull t.root then
    some ({ t with
      root := (createNode true).initSingle item
      count := 1
      height := 1
      numNodes := t.numNodes + 1 }, true)
  else do
    let (found, path) ← t.locate (cmp item)
    if found then some (t, false)
    else
      match path with
      | [] => none
      | ⟨leaf, pos⟩ :: above =>
        let t' :=
          if leaf.numItems = L.kMaxLeafKeys then insertToFullLeaf L t item leaf pos above
          else
            { t with
              root := writeBack (increaseSubtreeCounts above 1) (leaf.leafInsert pos item) }
        some ({ t' with count := t'.count + 1 }, true)

/-! ### Deletion -/

/-- The loop of `Delete(path)` that repairs `node` and its ancestors, and the
counts lowered after it. -/
def deleteUp (L : BPNodeLayout) : BPTreePath K → BPTreeNode K → BPTree K → BPTree K
  | [], node, t =>
    -- a root may have any number of keys, but not none
    if node.numItems < node.minItems L ∧ node.numItems = 0 then
      { t with
        root := if node.isLeaf then .null else node.child 0
        height := t.height - 1
        numNodes := t.numNodes - 1 }
    else { t with root := node }
  | ⟨parent, pos⟩ :: rest, node, t =>
    if node.numItems < node.minItems L then
      let (parent, retired) := (parent.setChild pos node).mergeOrRebalanceChild L pos
      let parent := parent.increaseTreeCount (-1)
      if retired then deleteUp L rest parent { t with numNodes := t.numNodes - 1 }
      else { t with root := writeBack (increaseSubtreeCounts rest (-1)) parent }
    else { t with root := writeBack (increaseSubtreeCounts (⟨parent, pos⟩ :: rest) (-1)) node }

/-- `Delete(path)`.  A key of an inner node is overwritten by its predecessor,
the last key of a leaf, and that one is removed. -/
def deletePath (L : BPNodeLayout) (t : BPTree K) : BPTreePath K → Option (BPTree K)
  | [] => none
  | ⟨node, keyPos⟩ :: rest =>
    let t := { t with count := t.count - 1 }
    if node.isLeaf then some (deleteUp L rest (node.shiftLeft keyPos false) t)
    else do
      let path ← digRight (⟨node, keyPos⟩ :: rest)
      match path with
      | [] => none
      | ⟨leaf, _⟩ :: above =>
        let node := node.setKey keyPos (leaf.key (leaf.numItems - 1))
        -- the records below the one whose node has a new separator
        let dug := above.take (above.length - (rest.length + 1))
        some (deleteUp L (dug ++ ⟨node, keyPos⟩ :: rest) leaf.leafEraseRight t)

def delete (L : BPNodeLayout) (cmp : K → K → ℤ) (t : BPTree K) (item : K) :
    Option (BPTree K × Bool) :=
  if isNull t.root then some (t, false)
  else do
    let (found, path) ← t.locate (cmp item)
    if found then
      let t ← deletePath L t path
      some (t, true)
    else some (t, false)

/-! ### Clearing -/

/-- An access of `Clear` to the node with the given child positions above it. -/
inductive Access where
  | read (at' : List ℕ)
  | destroy (at' : List ℕ)
  deriving DecidableEq

/-- Where the node below a path is: the positions of its records. -/
def address (p : BPTreePath K) : List ℕ := p.map BPTreeRecord.pos

/-- `deep_left(pos)` of `Clear`, with the nodes it reads. -/
def deepLeft : BPTreeNode K → ℕ → BPTreePath K →
    Option (BPTreeNode K × BPTreePath K × List Access)
  | .null, _, _ => none
  | .mk leaf n k t c, pos, path => do
    let reads := [Access.read (address path), Access.read (pos :: address path)]
    let path ← push path (.mk leaf n k t c) pos
    if (c pos).isLeaf then some (c pos, path, reads)
    else
      let (node, path, more) ← deepLeft (c pos) 0 path
      some (node, path, reads ++ more)

/-- The loop of `Clear`: destroy `node`, then go on from the record above it. -/
def clearLoop : ℕ → BPTreeNode K → BPTreePath K → Option (List Access)
  | 0, _, _ => none
  | fuel + 1, _, path =>
    let destroyed := Access.destroy (address path)
    match path with
    | [] => some [destroyed]
    | ⟨node, pos⟩ :: rest =>
      -- the parent is read to see whether there is another child
      let checked := Access.read (address rest)
      if pos < node.numItems then do
        let (node, path, reads) ← deepLeft node (pos + 1) rest
        let more ← clearLoop fuel node path
        some (destroyed :: checked :: reads ++ more)
      else do
        let more ← clearLoop fuel node rest
        some (destroyed :: checked :: more)

/-- The number of nodes of a subtree. -/
def nodeCount : BPTreeNode K → ℕ
  | .null => 0
  | .mk leaf n _ _ c =>
    1 + if leaf then 0 else ((List.range (n + 1)).map fun i => nodeCount (c i)).sum

/-- The accesses `Clear` makes to the nodes of a tree that has any. -/
def clearAccesses (root : BPTreeNode K) : Option (List Access) :=
  if root.isLeaf then do
    let more ← clearLoop (nodeCount root) root []
    some (.read [] :: more)
  else do
    let (node, path, reads) ← deepLeft root 0 []
    let more ← clearLoop (nodeCount root) node path
    some (.read [] :: reads ++ more)

def Access.isDestroy : Access → Bool
  | .read _ => false
  | .destroy _ => true

def clear (t : BPTree K) : Option (BPTree K) :=
  if isNull t.root then some t
  else do
    let accesses ← clearAccesses t.root
    some { root := .null, count := 0, height := 0,
           numNodes := t.numNodes - UInt32.ofNat (accesses.countP Access.isDestroy) }

/-! ### Ranks -/

def getRank (cmp : K → K → ℤ) (t : BPTree K) (item : K) (reverse : Bool) :
    Option (Option UInt32) :=
  if isNull t.root then some none
  else do
    let (found, path) ← t.locate (cmp item)
    if found then
      if reverse then some (some (t.count - rank path - 1)) else some (some (rank path))
    else some none

/-- Down the right edge, to the last key. -/
def toRankLast : BPTreeNode K → BPTreePath K → Option (BPTreePath K)
  | .null, _ => none
  | .mk leaf n k t c, path =>
    if leaf then push path (.mk leaf n k t c) (n - 1)
    else do
      let path ← push path (.mk leaf n k t c) n
      toRankLast (c n) path

/-- The scan of `ToRank` over the children of an inner node, from child `i` on:
the child to descend into with the rank left (`true`), or the key to stop at. -/
def scanChildren (node : BPTreeNode K) : ℕ → ℕ → UInt32 → Option (ℕ × UInt32 × Bool)
  | 0, _, _ => none
  | m + 1, i, rank =>
    let subtreeCnt := (node.child i).treeCount
    if rank < subtreeCnt then some (i, rank, true)
    else
      let rank := rank - subtreeCnt
      if rank = 0 then some (i, 0, false) else scanChildren node m (i + 1) (rank - 1)

/-- The descent of `ToRank`. -/
def toRankLoop : BPTreeNode K → UInt32 → BPTreePath K → Option (BPTreePath K)
  | .null, _, _ => none
  | .mk leaf n k t c, rank, path =>
    if leaf then push path (.mk leaf n k t c) rank.toNat
    else if rank = 0 then do
      let path ← push path (.mk leaf n k t c) 0
      toRankLoop (c 0) 0 path
    else
      match scanChildren (.mk leaf n k t c) (n + 1) 0 rank with
      | none => none
      | some (i, rank, descend) => do
        let path ← push path (.mk leaf n k t c) i
        if descend then toRankLoop (c i) rank path else some path

/-- `ToRank(rank, &path)`; `FromRank(rank)` returns that path. -/
def fromRank (t : BPTree K) (rank : UInt32) : Option (BPTreePath K) :=
  if rank + 1 = t.count then toRankLast t.root [] else toRankLoop t.root rank []

/-! ### Iteration -/

variable {σ : Type}

/-- The loop of `Iterate`; the callback may keep a state `σ` between calls.  No path
can be stepped on more often than there are keys, which bounds the rounds. -/
def iterateLoop (rankEnd : UInt32) (cb : σ → K → Bool × σ) :
    ℕ → UInt32 → BPTreePath K → σ → Option (Bool × σ)
  | 0, _, _, _ => none
  | fuel + 1, i, path, s =>
    if i ≤ rankEnd then do
      let x ← terminal path
      let (goOn, s) := cb s x
      if goOn then
        let (more, path) ← next path
        if more then iterateLoop rankEnd cb fuel (i + 1) path s else some (true, s)
      else some (false, s)
    else some (true, s)

def iterate (t : BPTree K) (rankStart rankEnd : UInt32) (cb : σ → K → Bool × σ) (s : σ) :
    Option (Bool × σ) :=
  if t.size ≤ rankStart.toNat then some (true, s)
  else do
    let path ← t.fromRank rankStart
    iterateLoop rankEnd cb ((inorder t.root).length + 1) rankStart path s

def iterateReverseLoop (rankEnd : UInt32) (cb : σ → K → Bool × σ) :
    ℕ → UInt32 → BPTreePath K → σ → Option (Bool × σ)
  | 0, _, _, _ => none
  | fuel + 1, i, path, s =>
    if i ≤ rankEnd then do
      let x ← terminal path
      let (goOn, s) := cb s x
      if goOn then
        -- whether there was a previous key is not looked at
        let (_, path) ← prev path
        iterateReverseLoop rankEnd cb fuel (i + 1) path s
      else some (false, s)
    else some (true, s)

def iterateReverse (t : BPTree K) (rankStart rankEnd : UInt32) (cb : σ → K → Bool × σ) (s : σ) :
    Option (Bool × σ) := do
  let path ← t.fromRank (t.count - 1 - rankStart)
  iterateReverseLoop rankEnd cb ((inorder t.root).length + 2) rankStart path s

/-! ### Bounds -/

def geq (t : BPTree K) (c : K → ℤ) : Option (BPTreePath K) := do
  let (res, path) ← t.locate c
  match path with
  | [] => none
  | r :: rest =>
    if !res ∧ r.node.numItems ≤ r.pos then do
      let (_, path) ← next (r :: rest)
      some path
    else some (r :: rest)

def leq (t : BPTree K) (c : K → ℤ) : Option (BPTreePath K) := do
  let (res, path) ← t.locate c
  if res then some path
  else do
    let (_, path) ← prev path
    some path

end BPTree
