/-
Paths in a B+tree: `detail::BPTreePath`.

A path is the stack of (node, position) records from the root down, with `Last()`
first in the list.  A path of more than `kMaxDepth` records writes out of bounds
(`none`).

A write through a node pointer of the path shows in the tree once the nodes are
written back into the slots of the records above them (`writeBack`).
-/
import AstraDB.BPTreeNode

open Loops

structure BPTreeRecord (K : Type) where
  node : BPTreeNode K
  pos : ℕ

abbrev BPTreePath (K : Type) := List (BPTreeRecord K)

namespace BPTreePath

variable {K : Type} [Inhabited K]

def kMaxDepth : ℕ := 16

def push (p : BPTreePath K) (node : BPTreeNode K) (pos : ℕ) : Option (BPTreePath K) :=
  if p.length < kMaxDepth then some (⟨node, pos⟩ :: p) else none

/-- `Terminal()`: the key the path leads to. -/
def terminal : BPTreePath K → Option K
  | [] => none
  | r :: _ => if r.pos < r.node.numItems then some (r.node.key r.pos) else none

/-- The `TreeCount()`s of the children before slot `m`, added up. -/
def childCounts (node : BPTreeNode K) (m : ℕ) : UInt32 :=
  forUp 0 m (fun j s => s + (node.child j).treeCount) 0

/-- What one record adds to the rank; at the last record the subtree left of the
key counts as well (`delta = 1`). -/
def recordRank (r : BPTreeRecord K) (delta : ℕ) : UInt32 :=
  (if r.node.isLeaf then 0 else childCounts r.node (r.pos + delta)) + UInt32.ofNat r.pos

def rank : BPTreePath K → UInt32
  | [] => 0
  | r :: rest => rest.foldr (fun r s => s + recordRank r 0) 0 + recordRank r 1

/-- The records left after popping those that stand behind their last key. -/
def popFinished : BPTreePath K → BPTreePath K
  | [] => []
  | r :: rest => if r.pos = r.node.numItems then popFinished rest else r :: rest

/-- From child `pos` of `node`, always the leftmost child down to a leaf. -/
def digLeft : BPTreeNode K → ℕ → BPTreePath K → Option (BPTreePath K)
  | .null, _, _ => none
  | .mk _ _ _ _ c, pos, path => do
    let path ← push path (c pos) 0
    if (c pos).isLeaf then some path else digLeft (c pos) 0 path

/-- `Next()`: whether there is a next key, and the path to it. -/
def next : BPTreePath K → Option (Bool × BPTreePath K)
  | [] => none
  | r :: rest =>
    if r.node.isLeaf then
      if r.pos + 1 < r.node.numItems then some (true, ⟨r.node, r.pos + 1⟩ :: rest)
      else
        let rest := popFinished rest
        some (!rest.isEmpty, rest)
    else do
      -- the successor of a key of an inner node is in the subtree right of it
      let path ← digLeft r.node (r.pos + 1) (⟨r.node, r.pos + 1⟩ :: rest)
      some (true, path)

/-- From child `pos` of `node`, always the rightmost child down to a leaf. -/
def digRightLoop : BPTreeNode K → ℕ → BPTreePath K → Option (BPTreePath K)
  | .null, _, _ => none
  | .mk _ _ _ _ c, pos, path => do
    let path ← push path (c pos) (c pos).numItems
    if (c pos).isLeaf then some path else digRightLoop (c pos) (c pos).numItems path

def decLast : BPTreePath K → BPTreePath K
  | [] => []
  | r :: rest => ⟨r.node, r.pos - 1⟩ :: rest

/-- `DigRight()`: to the last key of the subtree left of the key pointed to. -/
def digRight : BPTreePath K → Option (BPTreePath K)
  | [] => none
  | r :: rest => (digRightLoop r.node r.pos (r :: rest)).map decLast

/-- The records left after popping those that stand at position `0`. -/
def popStarted : BPTreePath K → BPTreePath K
  | [] => []
  | r :: rest => if r.pos = 0 then popStarted rest else r :: rest

/-- `Prev()`: whether there is a previous key, and the path to it. -/
def prev : BPTreePath K → Option (Bool × BPTreePath K)
  | [] => none
  | r :: rest =>
    if r.node.isLeaf then
      match popStarted (r :: rest) with
      | [] => some (false, [])
      | s :: rest => some (true, decLast (s :: rest))
    else (digRight (r :: rest)).map fun path => (true, path)

/-- The root, once `node` and all nodes of the path above it are written back. -/
def writeBack : BPTreePath K → BPTreeNode K → BPTreeNode K
  | [], node => node
  | r :: rest, node => writeBack rest (r.node.setChild r.pos node)

def increaseSubtreeCounts (p : BPTreePath K) (delta : UInt32) : BPTreePath K :=
  p.map fun r => ⟨r.node.increaseTreeCount delta, r.pos⟩

end BPTreePath
