/-
The height of a B+tree, and how deep its paths are.

Paths have room for `kMaxDepth` records.  `L.minKeys top` is the least number of keys
of a tree with `top` levels of inner nodes, so a tree with fewer than
`L.depthLimit = L.minKeys kMaxDepth` keys never outgrows a path.  For keys of at most
26 bytes that is more than the 32-bit counters can count (`depthLimit_gt`).
-/
import AstraDB.BPTreeContext

open BPTreeNode

namespace BPNodeLayout

variable (L : BPNodeLayout)

/-- The least number of keys below and in a node of height `h` that is not the root. -/
def minSub : ℕ → ℕ
  | 0 => L.low 0
  | h + 1 => L.low (h + 1) + (L.low (h + 1) + 1) * minSub h

/-- The least number of keys of a tree whose root has height `top`. -/
def minKeys : ℕ → ℕ
  | 0 => 1
  | h + 1 => 1 + 2 * L.minSub h

/-- Trees with fewer keys than this do not outgrow a path. -/
def depthLimit : ℕ := L.minKeys BPTreePath.kMaxDepth

variable {L}

theorem minKeys_mono (hL : L.Roomy) : Monotone L.minKeys := by
  refine monotone_nat_of_le_succ fun h => ?_
  cases h with
  | zero =>
    simp only [minKeys]
    omega
  | succ h =>
    have := hL.low_pos (h + 1)
    simp only [minKeys, minSub]
    nlinarith

theorem minSub_add_one (h : ℕ) : L.minSub h + 1 = (L.low 1 + 1) ^ h * (L.low 0 + 1) := by
  induction h with
  | zero => simp [minSub]
  | succ h ih =>
    have hlow : L.low (h + 1) = L.low 1 := rfl
    rw [minSub, hlow, pow_succ]
    calc L.low 1 + (L.low 1 + 1) * L.minSub h + 1 = (L.minSub h + 1) * (L.low 1 + 1) := by ring
      _ = _ := by
        rw [ih]
        ring

theorem two_pow_le_minKeys (hL : L.Roomy) (top : ℕ) : 2 ^ top ≤ L.minKeys top := by
  cases top with
  | zero => exact le_rfl
  | succ h =>
    have h0 := hL.low_pos 0
    have h1 := hL.low_pos 1
    have hle : 2 ^ h * 2 ≤ (L.low 1 + 1) ^ h * (L.low 0 + 1) :=
      Nat.mul_le_mul (Nat.pow_le_pow_left (by omega) h) (by omega)
    have hsub := minSub_add_one (L := L) h
    rw [minKeys, pow_succ]
    omega

theorem depthLimit_gt (hk : L.keySize ≤ 26) : 2 ^ 33 ≤ L.depthLimit := by
  have hpos := L.keySize_pos
  -- leaves of 9 keys and inner nodes of 7 are at least half full with 4 and 3
  have hleaf : 9 ≤ L.kMaxLeafKeys := by
    show 9 ≤ (256 - 4) / L.keySize
    rw [Nat.le_div_iff_mul_le hpos]
    omega
  have hinner : 7 ≤ L.kMaxInnerKeys := by
    show 7 ≤ (256 - 8 - 4 - 4) / (L.keySize + 8)
    rw [Nat.le_div_iff_mul_le (by omega)]
    omega
  have h0 : 4 ≤ L.low 0 := by
    show 4 ≤ (L.kMaxLeafKeys - 1) / 2
    omega
  have h1 : 3 ≤ L.low 1 := by
    show 3 ≤ (L.kMaxInnerKeys - 1) / 2
    omega
  show 2 ^ 33 ≤ 1 + 2 * L.minSub 15
  have hsub := minSub_add_one (L := L) 15
  have hle : (3 + 1) ^ 15 * (4 + 1) ≤ (L.low 1 + 1) ^ 15 * (L.low 0 + 1) := by gcongr
  omega

theorem roomy_of_keySize_le (hk : L.keySize ≤ 72) : L.Roomy := by
  have hpos := L.keySize_pos
  constructor
  · show 3 ≤ (256 - 4) / L.keySize
    rw [Nat.le_div_iff_mul_le hpos]
    omega
  · show 3 ≤ (256 - 8 - 4 - 4) / (L.keySize + 8)
    rw [Nat.le_div_iff_mul_le (by omega)]
    omega

end BPNodeLayout

namespace BPTreeNode

variable {K : Type} [Inhabited K] {L : BPNodeLayout}

theorem length_inorder_ge {n : BPTreeNode K} (hn : n.isLeaf = false) {a b : ℕ}
    (ha : a ≤ n.numItems) (hb : ∀ i ≤ n.numItems, b ≤ (inorder (n.child i)).length) :
    a + (a + 1) * b ≤ (inorder n).length := by
  rw [inorder_eq, interleave_length]
  have hsum : (n.numItems + 1) * b
      ≤ ∑ j ∈ Finset.range (n.numItems + 1), (n.sub (0 + j)).length := by
    have := Finset.card_nsmul_le_sum (Finset.range (n.numItems + 1))
      (fun j => (n.sub (0 + j)).length) b fun j hj => by
        rw [Nat.zero_add, sub_of_inner hn]
        exact hb j (by simpa [Nat.lt_succ_iff] using hj)
    simpa using this
  have hmul : (a + 1) * b ≤ (n.numItems + 1) * b := Nat.mul_le_mul_right b (by omega)
  omega

theorem Filled.minSub_le : ∀ {h : ℕ} {n : BPTreeNode K}, Filled L h n →
    L.minSub h ≤ (inorder n).length := by
  intro h
  induction h with
  | zero =>
    intro n hn
    rw [length_inorder_of_leaf hn.shaped.1]
    exact hn.low_le
  | succ h ih =>
    intro n hn
    exact length_inorder_ge hn.shaped.2.1 hn.low_le fun i hi => ih (hn.shaped.child hi)

theorem Rooted.minKeys_le {top : ℕ} {n : BPTreeNode K} (hn : Rooted L top n) :
    L.minKeys top ≤ (inorder n).length := by
  cases top with
  | zero =>
    rw [length_inorder_of_leaf hn.shaped.1]
    exact hn.pos
  | succ h =>
    have := length_inorder_ge hn.shaped.2.1 hn.pos fun i hi => (hn.shaped.child hi).minSub_le
    rw [BPNodeLayout.minKeys]
    omega

theorem Rooted.top_lt (hL : L.Roomy) {top : ℕ} {n : BPTreeNode K} (hn : Rooted L top n)
    (hlen : (inorder n).length < L.depthLimit) : top < BPTreePath.kMaxDepth := by
  by_contra hge
  have hmono := BPNodeLayout.minKeys_mono hL (not_lt.mp hge)
  have := hn.minKeys_le
  have : (inorder n).length < L.minKeys BPTreePath.kMaxDepth := hlen
  omega

end BPTreeNode
