/-
Splitting, merging and rebalancing B+tree nodes.

The node operations cut a node down to a run of its slots (`Cut`) or join two
runs around a separator (`Joined`).  For each operation it is shown once which of
the two it is and by how much it changes the subtree count; shape and in-order keys
of the result follow from `Cut` and `Joined` alone.
-/
import AstraDB.BPTreeShape

open Loops Function Nat

set_option linter.unusedSectionVars false

namespace BPTreeNode

variable {K : Type} [Inhabited K] {L : BPNodeLayout}

/-! ### Runs of slots -/

/-- The `m` keys, and the `m + 1` children around them, of `d` from slot `i` on are
those of `n` from slot `j` on. -/
structure SameRun (d : BPTreeNode K) (i : ℕ) (n : BPTreeNode K) (j m : ℕ) : Prop where
  leaf : d.isLeaf = n.isLeaf
  key : ∀ a < m, d.key (i + a) = n.key (j + a)
  child : n.isLeaf = false → ∀ a ≤ m, d.child (i + a) = n.child (j + a)

variable {d n : BPTreeNode K} {i m h count : ℕ} {dest src : BPTreeNode K}

theorem SameRun.sub {j : ℕ} (hr : SameRun d i n j m) {a : ℕ} (ha : a ≤ m) :
    d.sub (i + a) = n.sub (j + a) := by
  unfold BPTreeNode.sub
  rw [hr.leaf]
  cases hl : n.isLeaf with
  | true => rfl
  | false => rw [hr.child hl a ha]

theorem SameRun.interleave_eq {j : ℕ} (hr : SameRun d i n j m) {a x : ℕ} (hx : a + x ≤ m) :
    interleave d.key d.sub (i + a) x = interleave n.key n.sub (j + a) x :=
  interleave_congr
    (fun b hb => by rw [add_assoc, add_assoc]; exact hr.key (a + b) (by omega))
    (fun b hb => by rw [add_assoc, add_assoc]; exact hr.sub (by omega))

/-- `d` is the run of `m` keys of `n` from slot `i` on. -/
structure Cut (d n : BPTreeNode K) (i m : ℕ) : Prop where
  ne_null : d ≠ null
  num : d.numItems = m
  run : SameRun d 0 n i m

theorem Cut.inorder_eq (hc : Cut d n i m) : inorder d = interleave n.key n.sub i m := by
  rw [BPTreeNode.inorder_eq, hc.num]
  exact hc.run.interleave_eq (a := 0) (x := m) (by omega)

theorem Cut.shaped (hc : Cut d n i m) (hn : Shaped L h n) (him : i + m ≤ n.numItems) :
    Shaped L h d := by
  refine Shaped.of_children hc.ne_null (hc.run.leaf.trans hn.isLeaf_eq) ?_ ?_
  · have := hn.numItems_le
    rw [hc.num]
    omega
  · rintro h' rfl b hb
    rw [hc.num] at hb
    have := hc.run.child (by simpa using hn.isLeaf_eq) b hb
    rw [zero_add] at this
    rw [this]
    exact hn.child (by omega)

/-- `d` is the run of `p` keys of `a` from slot `i` on, the key `sep`, and the run of
`q` keys of `b` from slot `j` on. -/
structure Joined (d a : BPTreeNode K) (i p : ℕ) (sep : K) (b : BPTreeNode K) (j q : ℕ) :
    Prop where
  ne_null : d ≠ null
  num : d.numItems = p + 1 + q
  left : SameRun d 0 a i p
  mid : d.key p = sep
  right : SameRun d (p + 1) b j q

section Joined

variable {d a b : BPTreeNode K} {i p j q h : ℕ} {sep : K}

section

variable (hj : Joined d a i p sep b j q)
include hj

theorem Joined.interleave_right {x : ℕ} (hx : x ≤ q) :
    interleave d.key d.sub 0 (p + 1 + x)
      = interleave a.key a.sub i p ++ sep :: interleave b.key b.sub j x := by
  have hl := hj.left.interleave_eq (a := 0) (x := p) (by omega)
  have hr := hj.right.interleave_eq (a := 0) (x := x) (by omega)
  simp only [add_zero] at hl hr
  rw [interleave_split, zero_add, hl, hj.mid, hr]

theorem Joined.inorder_eq :
    inorder d = interleave a.key a.sub i p ++ sep :: interleave b.key b.sub j q := by
  rw [BPTreeNode.inorder_eq, hj.num]
  exact hj.interleave_right le_rfl

theorem Joined.shaped (ha : Shaped L h a) (hb : Shaped L h b)
    (hip : i + p ≤ a.numItems) (hjq : j + q ≤ b.numItems) (hcap : p + 1 + q ≤ L.cap h) :
    Shaped L h d := by
  refine Shaped.of_children hj.ne_null (hj.left.leaf.trans ha.isLeaf_eq)
    (by rw [hj.num]; exact hcap) ?_
  rintro h' rfl x hx
  rw [hj.num] at hx
  -- a child of the first run, or one of the second
  by_cases hxp : x ≤ p
  · have := hj.left.child (by simpa using ha.isLeaf_eq) x hxp
    rw [zero_add] at this
    rw [this]
    exact ha.child (by omega)
  · obtain ⟨y, rfl⟩ := Nat.exists_eq_add_of_le (show p + 1 ≤ x by omega)
    rw [hj.right.child (by simpa using hb.isLeaf_eq) y (by omega)]
    exact hb.child (by omega)

end

end Joined

/-! ### The weight of the keys moved -/

/-- How many keys `count` slots of `n` from `i` on stand for: the keys themselves
and those of the `count` children before them. -/
def weight (n : BPTreeNode K) (i count : ℕ) : ℕ :=
  1 + (interleave n.key n.sub i (count - 1)).length

theorem forUp_treeCount (hn : Shaped L h n) (hleaf : n.isLeaf = false) (h1 : 1 ≤ count)
    (hi : i + (count - 1) ≤ n.numItems) (a : UInt32) :
    forUp 0 count (fun j s => s + (n.child (i + j)).treeCount) a + UInt32.ofNat count
      = a + UInt32.ofNat (n.weight i count) := by
  obtain ⟨h, rfl⟩ : ∃ h', h = h' + 1 := exists_eq_succ_of_ne_zero <| by
    simpa [hleaf] using hn.isLeaf_eq.symm
  rw [forUp_add_ofNat a fun j hj => (hn.child (i := i + j) (by omega)).count, weight,
    interleave_length, show count - 1 + 1 = count by omega]
  simp only [sub_of_inner hleaf]
  rw [show ∀ s : ℕ, 1 + (count - 1 + s) = count + s from fun s => by omega, UInt32.ofNat_add]
  grind

/-! ### Moving keys to the left neighbour -/

theorem gainFromRight_mk (leaf : Bool) (m : ℕ) (k : ℕ → K) (t : UInt32) (c : ℕ → BPTreeNode K)
    (src : BPTreeNode K) (sep : K) (h1 : 1 ≤ count) :
    (mk leaf m k t c).gainFromRight sep src count =
      mk leaf (m + count)
        (blit (update k m sep) (m + 1) (fun i => src.key (i - 1)) 1 (count - 1))
        (if src.isLeaf then t else (mk leaf m k t c).treeCount
          + forUp 0 count (fun i s => s + (src.child i).treeCount) 0 + UInt32.ofNat count)
        (if src.isLeaf then c else blit c (1 + m) src.child 0 count) := by
  have hkeys : forUp 1 count (fun i k => update k (m + i) (src.key (i - 1)))
      (update k m sep)
      = blit (update k m sep) (m + 1) (fun i => src.key (i - 1)) 1 (count - 1) :=
    forUp_update_add _ _ m h1
  have hchildren : forUp 0 count (fun i c => update c (1 + m + i) (src.child i)) c
      = blit c (1 + m) src.child 0 count :=
    forUp_update_add c src.child (1 + m) (zero_le count)
  rw [← hkeys, ← hchildren]
  unfold gainFromRight
  cases src.isLeaf <;> rfl

theorem gainFromRight_joined (hd : dest ≠ null) (hleaf : dest.isLeaf = src.isLeaf) (sep : K)
    (h1 : 1 ≤ count) :
    Joined (dest.gainFromRight sep src count) dest 0 dest.numItems sep src 0 (count - 1) := by
  cases dest with
  | null => exact absurd rfl hd
  | mk leaf m k t c =>
    rw [gainFromRight_mk leaf m k t c src sep h1]
    -- the old slots were not written to; the separator; and the slots copied behind it
    refine ⟨by simp, ?_, ⟨rfl, fun a ha => ?_, fun hl a ha => ?_⟩, ?_,
      ⟨hleaf, fun a ha => ?_, fun hl a ha => ?_⟩⟩
    · show m + count = m + 1 + (count - 1)
      omega
    · rw [numItems_mk] at ha
      rw [key_mk, key_mk, blit, if_neg (by omega), update_of_ne (by omega)]
    · rw [numItems_mk] at ha
      rw [child_mk, child_mk, if_neg (by simp [← hleaf, hl]), blit, if_neg (by omega)]
    · rw [key_mk, numItems_mk, blit, if_neg (by omega), update_self]
    · rw [key_mk, numItems_mk, blit, if_pos (by omega)]
      congr 1
      omega
    · rw [child_mk, numItems_mk, if_neg (by simp [hl]), blit, if_pos (by omega)]
      congr 1
      omega

theorem treeCount_gainFromRight (hd : dest ≠ null) (hdl : dest.isLeaf = false) (hs : Shaped L h src)
    (hsl : src.isLeaf = false) (sep : K) (h1 : 1 ≤ count) (hc : count ≤ src.numItems) :
    (dest.gainFromRight sep src count).treeCount
      = dest.treeCount + UInt32.ofNat (src.weight 0 count) := by
  have hsum := forUp_treeCount hs hsl h1 (i := 0) (by omega) 0
  simp only [zero_add] at hsum
  rw [treeCount_of_inner ((gainFromRight_joined hd (hdl.trans hsl.symm) sep h1).left.leaf.trans hdl)]
  cases dest with
  | null => exact absurd rfl hd
  | mk leaf m k t c =>
    rw [gainFromRight_mk leaf m k t c src sep h1, innerTreeCount_mk, if_neg (by simp [hsl])]
    grind

theorem loseToLeft_mk (leaf : Bool) (m : ℕ) (k : ℕ → K) (t : UInt32) (c : ℕ → BPTreeNode K)
    (h1 : 1 ≤ count) (hc : count ≤ m) : (mk leaf m k t c).loseToLeft count =
      mk leaf (m - count) (blit k 0 k count (m - count))
        (if leaf then t else (mk leaf m k t c).treeCount
          - forUp 0 count (fun i s => s + (c i).treeCount) 0 - UInt32.ofNat count)
        (if leaf then c else forUp count (m + 1)
          (fun i c => update (update c (i - count) (c i)) i null) c) := by
  have hkeys : forUp count m (fun i k => update k (i - count) (k i)) k
      = blit k 0 k count (m - count) := by
    rw [forUp_shiftLeft k le_rfl h1 hc, Nat.sub_self]
  rw [← hkeys]
  unfold loseToLeft
  cases leaf <;> rfl

theorem loseToLeft_cut (hs : src ≠ null) (h1 : 1 ≤ count) (hc : count ≤ src.numItems) :
    Cut (src.loseToLeft count) src count (src.numItems - count) := by
  cases src with
  | null => exact absurd rfl hs
  | mk leaf m k t c =>
    have hcm : count ≤ m := hc
    rw [loseToLeft_mk leaf m k t c h1 hcm]
    refine ⟨by simp, rfl, rfl, fun a ha => ?_, fun hl a ha => ?_⟩
    · rw [numItems_mk] at ha
      rw [key_mk, key_mk, blit, if_pos (by omega)]
      congr 1
      omega
    · rw [numItems_mk] at ha
      rw [isLeaf_mk] at hl
      rw [child_mk, child_mk, if_neg (by simp [hl]), zero_add]
      -- here the loop also clears the slots it has read
      rw [forUp_shiftLeft_clear c null le_rfl h1 (by omega) (by omega) (by omega), add_comm]

theorem treeCount_loseToLeft (hs : Shaped L h src) (hsl : src.isLeaf = false) (h1 : 1 ≤ count)
    (hc : count ≤ src.numItems) : (src.loseToLeft count).treeCount
      = src.treeCount - UInt32.ofNat (src.weight 0 count) := by
  have hsum := forUp_treeCount hs hsl h1 (i := 0) (by omega) 0
  rw [treeCount_of_inner ((loseToLeft_cut hs.ne_null h1 hc).run.leaf.trans hsl)]
  obtain ⟨leaf, m, k, t, c, rfl⟩ := hs.exists_mk
  rw [isLeaf_mk] at hsl
  simp only [zero_add, child_mk] at hsum
  rw [loseToLeft_mk leaf m k t c h1 hc, innerTreeCount_mk, if_neg (by simp [hsl])]
  grind

/-! ### Moving keys to the right neighbour -/

theorem gainFromLeft_mk (leaf : Bool) (m : ℕ) (k : ℕ → K) (t : UInt32) (c : ℕ → BPTreeNode K)
    (src : BPTreeNode K) (sep : K) (h1 : 1 ≤ count) : (mk leaf m k t c).gainFromLeft sep src count =
      mk leaf (m + count)
        (update (blit (blit k count k 0 m) 0
          (fun i => src.key (src.numItems - count + i)) 1 (count - 1)) (count - 1) sep)
        (if src.isLeaf then t else (mk leaf m k t c).treeCount
          + forUp 0 count (fun i s => s + (src.child (src.numItems - (count - 1) + i)).treeCount) 0
          + UInt32.ofNat count)
        (if src.isLeaf then c else blit (blit c count c 0 (m + 1)) 0
          (fun i => src.child (src.numItems - (count - 1) + i)) 0 count) := by
  have hshift : forDown m (fun i k => update k (i + count) (k i)) k
      = blit k count k 0 m := forDown_shiftRight k h1
  have hkeys := forUp_update_sub (blit k count k 0 m)
    (fun i => src.key (src.numItems - count + i)) (a := 1) le_rfl h1
  have hcshift : forDown (m + 1) (fun i c => update c (i + count) (c i)) c
      = blit c count c 0 (m + 1) := forDown_shiftRight c h1
  have hchildren := forUp_update_add (blit c count c 0 (m + 1))
    (fun i => src.child (src.numItems - (count - 1) + i)) 0 (zero_le count)
  simp only [zero_add, add_zero, Nat.sub_zero, Nat.sub_self] at hkeys hchildren
  rw [← hkeys, ← hchildren, ← hshift, ← hcshift]
  unfold gainFromLeft
  cases src.isLeaf <;> rfl

theorem gainFromLeft_joined (hd : dest ≠ null) (hleaf : dest.isLeaf = src.isLeaf) (sep : K)
    (h1 : 1 ≤ count) (hc : count ≤ src.numItems) :
    Joined (dest.gainFromLeft sep src count) src (src.numItems - count + 1) (count - 1) sep dest 0
      dest.numItems := by
  cases dest with
  | null => exact absurd rfl hd
  | mk leaf m k t c =>
    rw [gainFromLeft_mk leaf m k t c src sep h1]
    -- the slots copied in front, the separator, and the old slots, `count` further up
    refine ⟨by simp, ?_, ⟨hleaf, fun a ha => ?_, fun hl a ha => ?_⟩, ?_,
      ⟨rfl, fun a ha => ?_, fun hl a ha => ?_⟩⟩
    · show m + count = count - 1 + 1 + m
      omega
    · rw [key_mk, update_of_ne (by omega), blit, if_pos (by omega)]
      congr 1
      omega
    · rw [child_mk, if_neg (by simp [hl]), blit, if_pos (by omega)]
      congr 1
      omega
    · rw [key_mk, update_self]
    · rw [numItems_mk] at ha
      rw [key_mk, key_mk, update_of_ne (by omega), blit, if_neg (by omega), blit,
        if_pos (by omega)]
      congr 1
      omega
    · rw [numItems_mk] at ha
      rw [child_mk, child_mk, if_neg (by simp [← hleaf, hl]), blit, if_neg (by omega), blit,
        if_pos (by omega)]
      congr 1
      omega

theorem treeCount_gainFromLeft (hd : dest ≠ null) (hdl : dest.isLeaf = false) (hs : Shaped L h src)
    (hsl : src.isLeaf = false) (sep : K) (h1 : 1 ≤ count) (hc : count ≤ src.numItems) :
    (dest.gainFromLeft sep src count).treeCount
      = dest.treeCount + UInt32.ofNat (src.weight (src.numItems - (count - 1)) count) := by
  have hsum := forUp_treeCount hs hsl h1 (i := src.numItems - (count - 1)) (by omega) 0
  rw [treeCount_of_inner
    ((gainFromLeft_joined hd (hdl.trans hsl.symm) sep h1 hc).right.leaf.trans hdl)]
  cases dest with
  | null => exact absurd rfl hd
  | mk leaf m k t c =>
    rw [gainFromLeft_mk leaf m k t c src sep h1, innerTreeCount_mk, if_neg (by simp [hsl])]
    grind

theorem loseToRight_cut (hs : src ≠ null) (h1 : 1 ≤ count) (hc : count ≤ src.numItems) :
    Cut (src.loseToRight count) src 0 (src.numItems - count) := by
  cases src with
  | null => exact absurd rfl hs
  | mk leaf m k t c =>
    have hcm : count ≤ m := hc
    cases leaf with
    | true =>
      exact ⟨by simp [loseToRight, isLeaf, setNumItems], rfl, rfl, fun a _ => rfl,
        fun hl => absurd hl (by simp [isLeaf])⟩
    | false =>
      refine ⟨by simp [loseToRight, isLeaf, mapChildren, setTreeCount, setNumItems], rfl, rfl,
        fun a _ => rfl, fun _ a ha => ?_⟩
      have ha' : a ≤ m - count := ha
      show forUp 0 count (fun i c => update c (m - (count - 1) + i) null) c (0 + a)
        = c (0 + a)
      rw [forUp_update_add c (fun _ => null) (m - (count - 1)) (zero_le count), blit,
        if_neg (by omega)]

theorem treeCount_loseToRight (hs : Shaped L h src) (hsl : src.isLeaf = false) (h1 : 1 ≤ count)
    (hc : count ≤ src.numItems) : (src.loseToRight count).treeCount
      = src.treeCount - UInt32.ofNat (src.weight (src.numItems - (count - 1)) count) := by
  have hsum := forUp_treeCount hs hsl h1 (i := src.numItems - (count - 1)) (by omega) 0
  rw [treeCount_of_inner ((loseToRight_cut hs.ne_null h1 hc).run.leaf.trans hsl)]
  obtain ⟨leaf, m, k, t, c, rfl⟩ := hs.exists_mk
  rw [isLeaf_mk] at hsl
  subst hsl
  show treeCount (mk false m k t c)
    - forUp 0 count (fun i s => s + (c (m - (count - 1) + i)).treeCount) 0 - UInt32.ofNat count = _
  simp only [child_mk, numItems_mk] at hsum ⊢
  grind

/-! ### Splitting and merging -/

theorem split_mk (leaf : Bool) (m : ℕ) (k : ℕ → K) (t : UInt32) (c : ℕ → BPTreeNode K)
    (fresh : Bool) : (mk leaf m k t c).split (createNode fresh) =
      (mk leaf (m / 2) k
        (if leaf then t else t - (forUp 0 (m - (m / 2 + 1) + 1)
          (fun i s => s + (c (m / 2 + 1 + i)).treeCount) (UInt32.ofNat (m - (m / 2 + 1))) + 1)) c,
      mk leaf (m - (m / 2 + 1)) (blit (fun _ => default) 0 k (m / 2 + 1) (m - (m / 2 + 1)))
        (if leaf then 0 else forUp 0 (m - (m / 2 + 1) + 1)
          (fun i s => s + (c (m / 2 + 1 + i)).treeCount) (UInt32.ofNat (m - (m / 2 + 1))))
        (if leaf then fun _ => null else blit (fun _ => null) 0 (fun i => c (m / 2 + 1 + i)) 0
          (m - (m / 2 + 1) + 1)),
      k (m / 2)) := by
  have hchildren := forUp_update_add (fun _ => null) (fun i => c (m / 2 + 1 + i)) 0
    (zero_le (m - (m / 2 + 1) + 1))
  simp only [zero_add, Nat.sub_zero, add_zero] at hchildren
  rw [← hchildren]
  cases leaf with
  | true => rfl
  | false =>
    -- the loop over children and count is one loop for each
    simp only [split, createNode, isLeaf_mk, numItems_mk, child_mk, Bool.false_eq_true, if_false]
    rw [forUp_prod 0 (m - (m / 2 + 1) + 1) (fun i s => s + (c (m / 2 + 1 + i)).treeCount)
      (fun i f => update f i (c (m / 2 + 1 + i)))]
    simp only [increaseTreeCount, setTreeCount, setNumItems, innerTreeCount_mk, UInt32.sub_eq_add_neg]
    rfl

/-- The two halves of a split node, the median, and their counts. -/
theorem split_spec (hn : Shaped L h n) (h1 : 1 ≤ n.numItems) (fresh : Bool) :
    let r := n.split (createNode fresh)
    Cut r.1 n 0 (n.numItems / 2) ∧
      Cut r.2.1 n (n.numItems / 2 + 1) (n.numItems - (n.numItems / 2 + 1)) ∧
      r.2.2 = n.key (n.numItems / 2) ∧
      r.1.treeCount = n.treeCount - UInt32.ofNat (1 + (inorder r.2.1).length) ∧
      r.2.1.treeCount = UInt32.ofNat (inorder r.2.1).length := by
  obtain ⟨leaf, m, k, t, c, rfl⟩ := hn.exists_mk
  rw [numItems_mk] at h1 ⊢
  rw [split_mk]
  intro r
  have hl : Cut r.1 (mk leaf m k t c) 0 (m / 2) :=
    ⟨by simp [r], rfl, rfl, fun a _ => rfl, fun _ a _ => by simp [r]⟩
  have hr : Cut r.2.1 (mk leaf m k t c) (m / 2 + 1) (m - (m / 2 + 1)) := by
    refine ⟨by simp [r], rfl, rfl, fun a ha => ?_, fun hl a ha => ?_⟩
    · rw [key_mk, key_mk, blit, if_pos (by omega)]
      congr 1
      omega
    · rw [isLeaf_mk] at hl
      rw [child_mk, child_mk, if_neg (by simp [hl]), blit, if_pos (by omega)]
      congr 1
      omega
  cases h with
  | zero =>
    have hleaf : leaf = true := hn.1
    have hrl : r.2.1.isLeaf = true := hleaf
    refine ⟨hl, hr, rfl, ?_, treeCount_of_leaf hrl⟩
    rw [length_inorder_of_leaf hrl, hr.num, treeCount, if_pos (show r.1.isLeaf = true from hleaf),
      hl.num, treeCount, if_pos (show (mk leaf m k t c).isLeaf = true from hleaf), numItems_mk]
    have hm : UInt32.ofNat m = UInt32.ofNat (m / 2) + UInt32.ofNat (1 + (m - (m / 2 + 1))) := by
      rw [← UInt32.ofNat_add]
      congr 1
      omega
    grind
  | succ h =>
    have hleaf : leaf = false := hn.2.1
    -- the loop of `Split` computes the number of keys of the right half
    have hright : r.2.1.innerTreeCount = UInt32.ofNat (inorder r.2.1).length := by
      have hsum := forUp_treeCount hn hleaf (i := m / 2 + 1)
        (show 1 ≤ m - (m / 2 + 1) + 1 by omega) (by rw [numItems_mk]; omega)
        (UInt32.ofNat (m - (m / 2 + 1)))
      rw [weight, Nat.add_sub_cancel, ← hr.inorder_eq, UInt32.ofNat_add, UInt32.ofNat_add] at hsum
      rw [innerTreeCount_mk, if_neg (by simp [hleaf])]
      simp only [child_mk] at hsum
      grind
    refine ⟨hl, hr, rfl, ?_, ?_⟩
    · rw [treeCount_of_inner (show r.1.isLeaf = false from hleaf),
        treeCount_of_inner (show (mk leaf m k t c).isLeaf = false from hleaf), add_comm 1,
        UInt32.ofNat_add, ← hright, innerTreeCount_mk, innerTreeCount_mk, innerTreeCount_mk,
        if_neg (by simp [hleaf]), if_neg (by simp [hleaf])]
      rfl
    · rw [treeCount_of_inner (show r.2.1.isLeaf = false from hleaf), hright]

theorem mergeFromRight_mk (leaf : Bool) (m : ℕ) (k : ℕ → K) (t : UInt32) (c : ℕ → BPTreeNode K)
    (sep : K) (right : BPTreeNode K) : (mk leaf m k t c).mergeFromRight sep right =
      mk leaf (m + (1 + right.numItems))
        (blit (update k m sep) (m + 1) right.key 0 right.numItems)
        (if leaf then t else t + (right.treeCount + 1))
        (if leaf then c else blit c (m + 1) right.child 0 (right.numItems + 1)) := by
  have hkeys := forUp_update_add (update k m sep) right.key (m + 1)
    (zero_le right.numItems)
  have hchildren := forUp_update_add c right.child (m + 1) (zero_le (right.numItems + 1))
  simp only [add_zero, Nat.sub_zero] at hkeys hchildren
  rw [← hkeys, ← hchildren]
  unfold mergeFromRight
  cases leaf <;> rfl

theorem mergeFromRight_joined {right : BPTreeNode K} (hn : n ≠ null)
    (hleaf : n.isLeaf = right.isLeaf) (sep : K) :
    Joined (n.mergeFromRight sep right) n 0 n.numItems sep right 0 right.numItems := by
  cases n with
  | null => exact absurd rfl hn
  | mk leaf m k t c =>
    rw [mergeFromRight_mk]
    rw [isLeaf_mk] at hleaf
    refine ⟨by simp, ?_, ⟨rfl, fun a ha => ?_, fun hl a ha => ?_⟩, ?_,
      ⟨hleaf, fun a ha => ?_, fun hl a ha => ?_⟩⟩
    · rw [numItems_mk, numItems_mk]
      omega
    · rw [numItems_mk] at ha
      rw [key_mk, key_mk, blit, if_neg (by omega), update_of_ne (by omega)]
    · rw [numItems_mk] at ha
      rw [isLeaf_mk] at hl
      rw [child_mk, child_mk, if_neg (by simp [hl]), blit, if_neg (by omega)]
    · rw [key_mk, numItems_mk, blit, if_neg (by omega), update_self]
    · rw [key_mk, numItems_mk, blit, if_pos (by omega)]
      congr 1
      omega
    · rw [child_mk, numItems_mk, if_neg (by simp [hleaf, hl]), blit, if_pos (by omega)]
      congr 1
      omega

theorem treeCount_mergeFromRight {right : BPTreeNode K} (hn : Shaped L h n) (hr : Shaped L h right)
    (sep : K) : (n.mergeFromRight sep right).treeCount = n.treeCount + (right.treeCount + 1) := by
  have hj := mergeFromRight_joined hn.ne_null (hn.isLeaf_congr hr) sep
  cases h with
  | zero =>
    rw [treeCount, if_pos (hj.left.leaf.trans hn.1), hj.num, treeCount, if_pos hn.1, treeCount,
      if_pos hr.1, UInt32.ofNat_add, UInt32.ofNat_add, UInt32.ofNat_one]
    grind
  | succ h =>
    rw [treeCount_of_inner (hj.left.leaf.trans hn.2.1), treeCount_of_inner hn.2.1]
    have hleaf := hn.2.1
    obtain ⟨leaf, m, k, t, c, rfl⟩ := hn.exists_mk
    rw [isLeaf_mk] at hleaf
    rw [mergeFromRight_mk, innerTreeCount_mk, if_neg (by simp [hleaf]), innerTreeCount_mk]

/-! ### Inserting and erasing one key -/

theorem insertItem_mk (leaf : Bool) (m : ℕ) (k : ℕ → K) (t : UInt32) (c : ℕ → BPTreeNode K) (i : ℕ)
    (x : K) : (mk leaf m k t c).insertItem i x =
      mk leaf (m + 1) (update (blit k (i + 1) k i (m - i)) i x) t
        (if leaf ∨ m ≤ i then c else blit c (i + 1) c i (m - i + 1)) := by
  by_cases hi : m ≤ i
  · -- at the end there is nothing to move
    have hk : blit k (i + 1) k i (m - i) = k := by
      funext j
      rw [blit, if_neg (by omega)]
    rw [if_pos (.inr hi), hk]
    simp only [insertItem, shiftRight]
    rw [if_neg (show ¬ 0 < numItems (mk leaf m k t c) - i by rw [numItems_mk]; omega)]
    rfl
  · simp only [insertItem, shiftRight]
    rw [if_pos (show 0 < numItems (mk leaf m k t c) - i by rw [numItems_mk]; omega)]
    cases leaf with
    | true => rfl
    | false =>
      rw [if_neg (show ¬ (false = true ∨ m ≤ i) by simp [hi])]
      rfl

theorem leafInsert_spec (hn : Shaped L 0 n) (hi : i ≤ n.numItems)
    (hroom : n.numItems < L.kMaxLeafKeys) (x : K) :
    Shaped L 0 (n.leafInsert i x) ∧ (n.leafInsert i x).numItems = n.numItems + 1 ∧
      inorder (n.leafInsert i x) = n.upTo i ++ x :: n.after i := by
  obtain ⟨leaf, m, k, t, c, rfl⟩ := hn.exists_mk
  have hleaf : leaf = true := hn.1
  rw [upTo, after]
  rw [numItems_mk] at hi hroom ⊢
  rw [leafInsert, insertItem_mk, inorder_eq]
  refine ⟨⟨hleaf, hroom⟩, rfl, ?_⟩
  rw [numItems_mk]
  refine (interleave_insert (r := []) hi ?_ ?_ ?_ ?_ ?_ ?_).trans (by rw [List.nil_append])
  · intro j hj
    rw [key_mk, key_mk, update_of_ne (by omega), blit, if_neg (by omega)]
  · rw [key_mk, update_self]
  · intro j hij hj
    rw [key_mk, key_mk, update_of_ne (by omega), blit, if_pos (by omega)]
    congr 1
    omega
  · intro j _
    rw [sub_of_leaf (by exact hleaf), sub_of_leaf (by exact hleaf)]
  · rw [sub_of_leaf (by exact hleaf)]
  · intro j _ _
    rw [sub_of_leaf (by exact hleaf), sub_of_leaf (by exact hleaf)]

theorem innerInsert_spec {c : BPTreeNode K} (hn : Shaped L (h + 1) n) (hi : i ≤ n.numItems)
    (hroom : n.numItems < L.kMaxInnerKeys) (x : K) (hc : Filled L h c) :
    Shaped L (h + 1) (n.innerInsert i x c) ∧
      (n.innerInsert i x c).numItems = n.numItems + 1 ∧
      inorder (n.innerInsert i x c) = n.upTo i ++ x :: (inorder c ++ n.after i) ∧
      (n.innerInsert i x c).innerTreeCount = n.innerTreeCount := by
  have hkids := fun j (hj : j ≤ n.numItems) => hn.child hj
  have hleaf : n.isLeaf = false := hn.2.1
  have hcap := hn.numItems_le
  obtain ⟨leaf, m, k, t, ch, rfl⟩ := hn.exists_mk
  rw [isLeaf_mk] at hleaf
  subst hleaf
  rw [numItems_mk] at hi hroom
  -- the children of the result
  set d : BPTreeNode K := (mk false m k t ch).innerInsert i x c with hd
  have hdmk : d = mk false (m + 1) (update (blit k (i + 1) k i (m - i)) i x) t
      (update (if m ≤ i then ch else blit ch (i + 1) ch i (m - i + 1)) (i + 1) c) := by
    rw [hd, innerInsert, insertItem_mk]
    simp only [Bool.false_eq_true, false_or]
    rfl
  have hlt : ∀ j ≤ i, d.child j = ch j := fun j hj => by
    rw [hdmk, child_mk, update_of_ne (by omega)]
    split
    · rfl
    · rw [blit, if_neg (by omega)]
  have hat : d.child (i + 1) = c := by rw [hdmk, child_mk, update_self]
  have hgt : ∀ j, i < j → j ≤ m → d.child (j + 1) = ch j := fun j hj hj' => by
    rw [hdmk, child_mk, update_of_ne (by omega), if_neg (by omega), blit,
      if_pos (by omega)]
    congr 1
    omega
  have hdleaf : d.isLeaf = false := by rw [hdmk]; rfl
  have hdnum : d.numItems = m + 1 := by rw [hdmk]; rfl
  refine ⟨?_, hdnum, ?_, by rw [hdmk]; rfl⟩
  · refine Shaped.of_children (by rw [hdmk]; simp) (by simpa using hdleaf) ?_ ?_
    · rw [hdnum]
      exact hroom
    · rintro h' hh j hj
      obtain rfl : h = h' := by omega
      rw [hdnum] at hj
      rcases lt_trichotomy j (i + 1) with hji | hji | hji
      · rw [hlt j (by omega)]
        exact hkids j (by rw [numItems_mk]; omega)
      · rw [hji, hat]
        exact hc
      · obtain ⟨a, rfl⟩ : ∃ a, j = a + 1 := ⟨j - 1, by omega⟩
        rw [hgt a (by omega) (by omega)]
        exact hkids a (by rw [numItems_mk]; omega)
  · rw [inorder_eq, hdnum, upTo, after, numItems_mk]
    refine interleave_insert hi ?_ ?_ ?_ ?_ ?_ ?_
    · intro j hj
      rw [hdmk, key_mk, key_mk, update_of_ne (by omega), blit, if_neg (by omega)]
    · rw [hdmk, key_mk, update_self]
    · intro j hij hj
      rw [hdmk, key_mk, key_mk, update_of_ne (by omega), blit, if_pos (by omega)]
      congr 1
      omega
    · intro j hj
      rw [sub_of_inner hdleaf, hlt j hj, sub_of_inner rfl, child_mk]
    · rw [sub_of_inner hdleaf, hat]
    · intro j hj hj'
      rw [sub_of_inner hdleaf, hgt j hj hj', sub_of_inner rfl, child_mk]

theorem shiftLeft_mk (leaf : Bool) (m : ℕ) (k : ℕ → K) (t : UInt32) (c : ℕ → BPTreeNode K) (i : ℕ)
    (step : Bool) : (mk leaf m k t c).shiftLeft i step =
      mk leaf (m - 1) (blit k i k (i + 1) (m - i - 1)) t
        (if leaf ∨ m ≤ i + 1 then c else blit c (if step then i + 1 else i) c
          ((if step then i + 1 else i) + 1) (m - (if step then i + 1 else i))) := by
  by_cases hi : m ≤ i + 1
  · have hk : blit k i k (i + 1) (m - i - 1) = k := by
      funext j
      rw [blit, if_neg (by omega)]
    rw [if_pos (.inr hi), hk]
    simp only [shiftLeft]
    rw [if_neg (show ¬ 0 < numItems (mk leaf m k t c) - i - 1 by rw [numItems_mk]; omega)]
    rfl
  · simp only [shiftLeft]
    rw [if_pos (show 0 < numItems (mk leaf m k t c) - i - 1 by rw [numItems_mk]; omega)]
    cases leaf with
    | true => rfl
    | false =>
      rw [if_neg (show ¬ (false = true ∨ m ≤ i + 1) by simp; omega)]
      rfl

theorem shiftLeft_leaf_spec (hn : Shaped L 0 n) (hi : i < n.numItems) (step : Bool) :
    Shaped L 0 (n.shiftLeft i step) ∧ (n.shiftLeft i step).numItems = n.numItems - 1 ∧
      inorder (n.shiftLeft i step) = n.upTo i ++ n.after (i + 1) := by
  have hcap := hn.2
  obtain ⟨leaf, m, k, t, c, rfl⟩ := hn.exists_mk
  have hleaf : leaf = true := hn.1
  rw [upTo, after]
  rw [numItems_mk] at hi hcap ⊢
  rw [shiftLeft_mk]
  refine ⟨⟨hleaf, ?_⟩, rfl, ?_⟩
  · rw [numItems_mk]
    omega
  · rw [inorder_eq, numItems_mk]
    refine (interleave_erase (mk leaf m k t c).key (mk leaf m k t c).sub
      (show i ≤ m - 1 by omega) ?_ ?_ ?_ ?_).trans ?_
    · intro j hj
      rw [key_mk, key_mk, blit, if_neg (by omega)]
    · intro j hij hj
      rw [key_mk, key_mk, blit, if_pos (by omega)]
      congr 1
      omega
    · intro j _
      rw [sub_of_leaf (by exact hleaf), sub_of_leaf (by exact hleaf)]
    · intro j _ _
      rw [sub_of_leaf (by exact hleaf), sub_of_leaf (by exact hleaf)]
    · have h0 := interleave_focus (mk leaf m k t c).key (mk leaf m k t c).sub i 0
      rw [add_zero, trailing, List.append_nil] at h0
      rw [h0, sub_of_leaf (n := mk leaf (m - 1) _ t _) (by exact hleaf),
        sub_of_leaf (n := mk leaf m k t c) (by exact hleaf), List.nil_append, List.append_nil,
        show m - 1 - i = m - (i + 1) by omega]

theorem leafEraseRight_spec (hn : Shaped L 0 n) :
    Shaped L 0 n.leafEraseRight ∧ n.leafEraseRight.numItems = n.numItems - 1 ∧
      inorder n.leafEraseRight = n.upTo (n.numItems - 1) := by
  have hcap := hn.2
  obtain ⟨leaf, m, k, t, c, rfl⟩ := hn.exists_mk
  refine ⟨⟨hn.1, ?_⟩, rfl, rfl⟩
  show m - 1 ≤ L.kMaxLeafKeys
  rw [numItems_mk] at hcap
  omega

end BPTreeNode
