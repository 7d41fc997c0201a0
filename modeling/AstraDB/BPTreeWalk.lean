/-
Walking in a B+tree along a path.

`Below root top h p n` says that the node `n`, of height `h`, hangs below the path
`p`.  A path that stands on a key (`OnKey`) cuts the in-order sequence of the tree in
two, `left` and `right`, and `right` starts with that key.

* `next_spec`, `prev_spec` — `Next` and `Prev` move the cut by one key;
* `next_spec_end` — `Next` from behind the last key of a leaf;
* `OnKey.eq_of_left` — there is one path to each key;
* `OnKey.rank_eq` — `Rank` is the number of keys left of the cut.
-/
import AstraDB.BPTreeContext

open Loops BPTreeNode List

set_option linter.unusedSectionVars false

namespace BPTreePath

variable {K : Type} [Inhabited K] {L : BPNodeLayout}

/-! ### Nodes of a tree -/

/-- The node `n` of height `h` is in the slot that the last record of `p` names. -/
def Below (root : BPTreeNode K) (top : ℕ) : ℕ → BPTreePath K → BPTreeNode K → Prop
  | h, [], n => n = root ∧ h = top
  | h, r :: rest, n => n = r.node.child r.pos ∧ r.node.isLeaf = false ∧
      r.pos ≤ r.node.numItems ∧ Below root top (h + 1) rest r.node

/-- What holds of a node of a tree and of the path above it. -/
structure Standing (L : BPNodeLayout) (root : BPTreeNode K) (top h : ℕ) (p : BPTreePath K)
    (n : BPTreeNode K) : Prop where
  shaped : Shaped L h n
  pos : 1 ≤ n.numItems
  low_le : p ≠ [] → L.low h ≤ n.numItems
  surplus : Surplus n 0
  context : Context L top h p (inorder n).length
  keys : pre p ++ (inorder n ++ post p) = inorder root

variable {root : BPTreeNode K} {top h : ℕ} {p : BPTreePath K} {n : BPTreeNode K}

theorem Below.standing (hL : L.Roomy) (hroot : Rooted L top root) :
    ∀ {p : BPTreePath K} {h : ℕ} {n : BPTreeNode K}, Below root top h p n →
      Standing L root top h p n := by
  intro p
  induction p with
  | nil =>
    rintro h n ⟨rfl, rfl⟩
    exact ⟨hroot.shaped, hroot.pos, fun hne => absurd rfl hne,
      surplus_zero_iff.mpr hroot.count, rfl, by simp [pre, post]⟩
  | cons r rest ih =>
    -- what holds of the parent, by induction, gives what holds of its child
    rintro h n ⟨rfl, hleaf, hpos, hbelow⟩
    have hup := ih hbelow
    have hchild := hup.shaped.child hpos
    have hfocus := inorder_focus hleaf hpos
    have htotal : total r (inorder (r.node.child r.pos)).length = (inorder r.node).length := by
      rw [hfocus, length_append, length_append, total]
      omega
    have hcount := surplus_zero_iff.mp hup.surplus
    rw [treeCount_of_inner hleaf] at hcount
    refine ⟨hchild.shaped, (hL.low_pos h).trans hchild.low_le, fun _ => hchild.low_le,
      hchild.surplus, ⟨hup.shaped.frame hpos, hup.pos, hup.low_le, ?_, ?_⟩, ?_⟩
    · rw [htotal]
      exact hcount
    · rw [htotal]
      exact hup.context
    · rw [pre, post, ← hup.keys, hfocus]
      simp

theorem Below.child (hL : L.Roomy) {pos : ℕ} (hroot : Rooted L top root)
    (hb : Below root top (h + 1) p n) (hpos : pos ≤ n.numItems) :
    Below root top h (⟨n, pos⟩ :: p) (n.child pos) :=
  ⟨rfl, (hb.standing hL hroot).shaped.2.1, hpos, hb⟩

/-! ### Places -/

/-- The keys before the place a path stands at. -/
def left : BPTreePath K → List K
  | [] => []
  | r :: rest => pre rest ++ r.node.upTo r.pos

/-- The keys from the place a path stands at on. -/
def right : BPTreePath K → List K
  | [] => []
  | r :: rest => r.node.after r.pos ++ post rest

/-- The path leads to a node of the tree and to a key of it, or behind its last. -/
def Place (root : BPTreeNode K) (top : ℕ) : BPTreePath K → Prop
  | [] => False
  | r :: rest => (∃ h, Below root top h rest r.node) ∧ r.pos ≤ r.node.numItems

/-- The path leads to a key of the tree. -/
def OnKey (root : BPTreeNode K) (top : ℕ) : BPTreePath K → Prop
  | [] => False
  | r :: rest => (∃ h, Below root top h rest r.node) ∧ r.pos < r.node.numItems

section Places

variable {root : BPTreeNode K} {top : ℕ} {p : BPTreePath K}

theorem OnKey.place : ∀ {p : BPTreePath K}, OnKey root top p → Place root top p
  | [], h => h
  | _ :: _, h => ⟨h.1, h.2.le⟩

theorem Place.left_append_right (hL : L.Roomy) (hroot : Rooted L top root) :
    ∀ {p : BPTreePath K}, Place root top p → left p ++ right p = inorder root
  | [], h => h.elim
  | r :: rest, ⟨⟨_, hb⟩, hpos⟩ => by
    rw [left, right, ← (hb.standing hL hroot).keys, inorder_cut hpos]
    simp

theorem OnKey.right_eq_cons : ∀ {p : BPTreePath K}, OnKey root top p →
    ∃ x ys, terminal p = some x ∧ right p = x :: ys
  | [], h => h.elim
  | r :: rest, ⟨_, hpos⟩ => by
    refine ⟨r.node.key r.pos, r.node.sub (r.pos + 1) ++ r.node.after (r.pos + 1) ++ post rest,
      ?_, ?_⟩
    · rw [terminal, if_pos hpos]
    · rw [right, after_eq_cons hpos]
      rfl

theorem OnKey.terminal_eq {x : K} {ys : List K} (hp : OnKey root top p) (hr : right p = x :: ys) :
    terminal p = some x := by
  obtain ⟨y, zs, ht, hr'⟩ := hp.right_eq_cons
  rw [hr] at hr'
  cases hr'
  exact ht

theorem Place.right_eq (hL : L.Roomy) (hroot : Rooted L top root) {q : BPTreePath K}
    (hp : Place root top p) (hq : Place root top q) {s : List K} (h : left q = left p ++ s) :
    right p = s ++ right q := by
  have := (hp.left_append_right hL hroot).trans (hq.left_append_right hL hroot).symm
  rw [h, append_assoc] at this
  exact append_cancel_left this

end Places

/-! ### Down to a leaf -/

theorem pre_append : ∀ (p q : BPTreePath K), pre (p ++ q) = pre q ++ pre p := by
  intro p q
  induction p with
  | nil => simp [pre]
  | cons r rest ih => rw [cons_append, pre, pre, ih, append_assoc]

theorem post_append : ∀ (p q : BPTreePath K), post (p ++ q) = post p ++ post q := by
  intro p q
  induction p with
  | nil => rfl
  | cons r rest ih => rw [cons_append, post, post, ih, append_assoc]

theorem push_eq (hp : p.length < kMaxDepth) (n : BPTreeNode K) (pos : ℕ) :
    push p n pos = some (⟨n, pos⟩ :: p) := by
  rw [push, if_pos hp]

theorem Below.depth_lt (hL : L.Roomy) (hroot : Rooted L top root) (htop : top < kMaxDepth)
    (hb : Below root top h p n) : p.length < kMaxDepth := by
  have := (hb.standing hL hroot).context.length_add
  omega

section Dig

variable {root : BPTreeNode K} {top : ℕ}

section

variable (hL : L.Roomy) (hroot : Rooted L top root) (htop : top < kMaxDepth)
include hL hroot htop

theorem digLeft_spec :
    ∀ {h : ℕ} {n : BPTreeNode K} {pos : ℕ} {rest : BPTreePath K},
      Below root top (h + 1) rest n → pos ≤ n.numItems →
      ∃ p, digLeft n pos (⟨n, pos⟩ :: rest) = some p ∧ OnKey root top p ∧
        left p = pre (⟨n, pos⟩ :: rest) := by
  intro h
  induction h with
  | zero =>
    intro n pos rest hb hpos
    have hst := hb.standing hL hroot
    have hc := hb.child hL hroot hpos
    have hcst := hc.standing hL hroot
    obtain ⟨leaf, m, k, t, c, rfl⟩ := hst.shaped.exists_mk
    rw [child_mk] at hc hcst
    refine ⟨⟨c pos, 0⟩ :: ⟨mk leaf m k t c, pos⟩ :: rest, ?_, ⟨⟨0, hc⟩, hcst.pos⟩, ?_⟩
    · rw [digLeft, push_eq (hc.depth_lt hL hroot htop)]
      simp [hcst.shaped.1]
    · rw [left, upTo_eq, sub_of_leaf hcst.shaped.1, before_zero]
      simp
  | succ h ih =>
    intro n pos rest hb hpos
    have hst := hb.standing hL hroot
    have hc := hb.child hL hroot hpos
    have hcst := hc.standing hL hroot
    obtain ⟨p, hdig, hon, hleft⟩ := ih hc (Nat.zero_le _)
    obtain ⟨leaf, m, k, t, c, rfl⟩ := hst.shaped.exists_mk
    rw [child_mk] at hc hcst hdig hleft
    refine ⟨p, ?_, hon, ?_⟩
    · rw [digLeft, push_eq (hc.depth_lt hL hroot htop)]
      simpa [hcst.shaped.2.1] using hdig
    · rw [hleft, pre, before_zero, append_nil]

theorem digRightLoop_spec :
    ∀ {h : ℕ} {n : BPTreeNode K} {pos : ℕ} {rest : BPTreePath K},
      Below root top (h + 1) rest n → pos ≤ n.numItems →
      ∃ leaf dug, digRightLoop n pos (⟨n, pos⟩ :: rest)
          = some (⟨leaf, leaf.numItems⟩ :: (dug ++ ⟨n, pos⟩ :: rest)) ∧
        Below root top 0 (dug ++ ⟨n, pos⟩ :: rest) leaf ∧ post dug = [] ∧
        pre dug ++ inorder leaf = inorder (n.child pos) := by
  intro h
  induction h with
  | zero =>
    intro n pos rest hb hpos
    have hst := hb.standing hL hroot
    have hc := hb.child hL hroot hpos
    have hcst := hc.standing hL hroot
    obtain ⟨leaf, m, k, t, c, rfl⟩ := hst.shaped.exists_mk
    rw [child_mk] at hc hcst
    refine ⟨c pos, [], ?_, hc, rfl, by simp [pre]⟩
    rw [digRightLoop, push_eq (hc.depth_lt hL hroot htop)]
    simp [hcst.shaped.1]
  | succ h ih =>
    intro n pos rest hb hpos
    have hst := hb.standing hL hroot
    have hc := hb.child hL hroot hpos
    have hcst := hc.standing hL hroot
    obtain ⟨lf, dug, hdig, hbelow, hpost, hpre⟩ := ih hc le_rfl
    obtain ⟨leaf, m, k, t, c, rfl⟩ := hst.shaped.exists_mk
    rw [child_mk] at hc hcst hdig hbelow hpre
    refine ⟨lf, dug ++ [⟨c pos, (c pos).numItems⟩], ?_, ?_, ?_, ?_⟩
    · rw [digRightLoop, push_eq (hc.depth_lt hL hroot htop)]
      simpa [hcst.shaped.2.1] using hdig
    · simpa using hbelow
    · rw [post_append, hpost, post, post, after_numItems]
      rfl
    · rw [pre_append, append_assoc, hpre, pre, pre, child_mk,
        inorder_focus hcst.shaped.2.1 le_rfl, after_numItems]
      simp

end

theorem inorder_last_of_leaf {n : BPTreeNode K} (hn : n.isLeaf = true) (h1 : 1 ≤ n.numItems) :
    inorder n = n.upTo (n.numItems - 1) ++ [n.key (n.numItems - 1)] := by
  rw [← before_succ, show n.numItems - 1 + 1 = n.numItems by omega, ← upTo_numItems, upTo_eq,
    sub_of_leaf hn, append_nil]

theorem digRight_spec (hL : L.Roomy) (hroot : Rooted L top root) (htop : top < kMaxDepth)
    {h : ℕ} {n : BPTreeNode K} {pos : ℕ} {rest : BPTreePath K}
    (hb : Below root top (h + 1) rest n) (hpos : pos ≤ n.numItems) :
    ∃ p x, digRight (⟨n, pos⟩ :: rest) = some p ∧ OnKey root top p ∧
      left (⟨n, pos⟩ :: rest) = left p ++ [x] := by
  obtain ⟨lf, dug, hdig, hbelow, hpost, hpre⟩ := digRightLoop_spec hL hroot htop hb hpos
  have hst := hbelow.standing hL hroot
  have h1 := hst.pos
  refine ⟨⟨lf, lf.numItems - 1⟩ :: (dug ++ ⟨n, pos⟩ :: rest), lf.key (lf.numItems - 1), ?_,
    ⟨⟨0, hbelow⟩, by show lf.numItems - 1 < lf.numItems; omega⟩, ?_⟩
  · rw [digRight, hdig]
    rfl
  · rw [left, left, pre_append, pre, upTo_eq, sub_of_inner (hb.standing hL hroot).shaped.2.1, ← hpre,
      inorder_last_of_leaf hst.shaped.1 h1]
    simp

end Dig

/-! ### Up from the end of a node -/

section Pop

variable {root : BPTreeNode K} {top : ℕ}

/-- The first place of the path above a node that stands on a key. -/
theorem popFinished_spec : ∀ {p : BPTreePath K} {h : ℕ} {n : BPTreeNode K}, Below root top h p n →
      (popFinished p = [] ∧ post p = []) ∨
        (OnKey root top (popFinished p) ∧ left (popFinished p) = pre p ++ inorder n) := by
  intro p
  induction p with
  | nil =>
    intro h n _
    exact .inl ⟨rfl, rfl⟩
  | cons r rest ih =>
    rintro h n ⟨rfl, hleaf, hpos, hb⟩
    rw [popFinished]
    split
    · next hend =>
      -- behind the last key of this node the search goes on above it
      have hafter : r.node.after r.pos = [] := by rw [hend, after_numItems]
      rcases ih hb with ⟨h1, h2⟩ | ⟨h1, h2⟩
      · exact .inl ⟨h1, by rw [post, hafter, h2]; rfl⟩
      · refine .inr ⟨h1, ?_⟩
        rw [h2, pre, inorder_focus hleaf hpos, hafter]
        simp
    · refine .inr ⟨⟨⟨h + 1, hb⟩, by omega⟩, ?_⟩
      rw [left, pre, upTo_eq, sub_of_inner hleaf, append_assoc]

/-- The last place of the path above a node that has a key before it. -/
theorem popStarted_spec : ∀ {p : BPTreePath K} {h : ℕ} {n : BPTreeNode K}, Below root top h p n →
      (popStarted p = [] ∧ pre p = []) ∨
        ∃ r rest x, popStarted p = r :: rest ∧ OnKey root top (decLast (r :: rest)) ∧
          pre p = left (decLast (r :: rest)) ++ [x] := by
  intro p
  induction p with
  | nil =>
    intro h n _
    exact .inl ⟨rfl, rfl⟩
  | cons r rest ih =>
    rintro h n ⟨rfl, hleaf, hpos, hb⟩
    rw [popStarted]
    split
    · next hstart =>
      have hpre : pre (r :: rest) = pre rest := by rw [pre, hstart, before_zero, append_nil]
      rw [hpre]
      exact ih hb
    · refine .inr ⟨r, rest, r.node.key (r.pos - 1), rfl, ⟨⟨h + 1, hb⟩, ?_⟩, ?_⟩
      · show r.pos - 1 < r.node.numItems
        omega
      · have := before_succ r.node (r.pos - 1)
        rw [show r.pos - 1 + 1 = r.pos by omega] at this
        rw [decLast, left, pre, this, append_assoc]

end Pop

/-! ### One key forward, one key back -/

section Step

variable {root : BPTreeNode K} {top : ℕ} {p : BPTreePath K}

theorem next_leaf_end {r : BPTreeRecord K} {rest : BPTreePath K} {h : ℕ}
    (hb : Below root top h rest r.node) (hleaf : r.node.isLeaf = true)
    (hend : r.node.numItems ≤ r.pos + 1) : (post rest = [] ∧ next (r :: rest) = some (false, [])) ∨
      (∃ q, next (r :: rest) = some (true, q) ∧ OnKey root top q ∧
        left q = pre rest ++ inorder r.node) := by
  have hnext : next (r :: rest) = some (!(popFinished rest).isEmpty, popFinished rest) := by
    rw [next, if_pos hleaf, if_neg (by omega)]
  rw [hnext]
  rcases popFinished_spec hb with ⟨h1, h2⟩ | ⟨h1, h2⟩
  · exact .inl ⟨h2, by rw [h1]; rfl⟩
  · refine .inr ⟨popFinished rest, ?_, h1, h2⟩
    cases hpop : popFinished rest with
    | nil =>
      rw [hpop] at h1
      exact h1.elim
    | cons _ _ => rfl

section

variable (hL : L.Roomy) (hroot : Rooted L top root)
include hL hroot

theorem next_spec (htop : top < kMaxDepth) (hp : OnKey root top p) {x : K} {ys : List K}
    (hr : right p = x :: ys) : (ys = [] ∧ next p = some (false, [])) ∨
      (∃ q, next p = some (true, q) ∧ OnKey root top q ∧ left q = left p ++ [x] ∧
        right q = ys) := by
  -- it is enough to know the left side of the new place
  suffices hsuff : (ys = [] ∧ next p = some (false, [])) ∨
      (∃ q, next p = some (true, q) ∧ OnKey root top q ∧ left q = left p ++ [x]) by
    rcases hsuff with h | ⟨q, h1, h2, h3⟩
    · exact .inl h
    · refine .inr ⟨q, h1, h2, h3, ?_⟩
      have := hp.place.right_eq hL hroot h2.place h3
      rw [hr] at this
      exact (List.cons.inj this).2.symm
  cases p with
  | nil => exact hp.elim
  | cons r rest =>
    obtain ⟨⟨h, hb⟩, hpos⟩ := hp
    have hst := hb.standing hL hroot
    have hcons := after_eq_cons hpos
    have hx : x = r.node.key r.pos := by
      rw [right, hcons] at hr
      exact (List.cons.inj hr).1.symm
    cases h with
    | zero =>
      have hleaf := hst.shaped.1
      by_cases hlt : r.pos + 1 < r.node.numItems
      · refine .inr ⟨⟨r.node, r.pos + 1⟩ :: rest, ?_, ⟨⟨0, hb⟩, hlt⟩, ?_⟩
        · rw [next, if_pos hleaf, if_pos hlt]
        · rw [left, left, upTo_eq, sub_of_leaf hleaf, append_nil, before_succ, hx]
          simp
      · -- the last key of a leaf: the next one is above, if there is one
        have hall : inorder r.node = r.node.upTo r.pos ++ [x] := by
          rw [inorder_cut hpos.le, hcons, sub_of_leaf hleaf,
            show r.pos + 1 = r.node.numItems by omega, after_numItems, hx]
          rfl
        rcases next_leaf_end hb hleaf (by omega) with ⟨h1, h2⟩ | ⟨q, h1, h2, h3⟩
        · refine .inl ⟨?_, h2⟩
          rw [right, hcons, h1, sub_of_leaf hleaf, show r.pos + 1 = r.node.numItems by omega,
            after_numItems] at hr
          simpa using (List.cons.inj hr).2.symm
        · refine .inr ⟨q, h1, h2, ?_⟩
          rw [h3, hall, left]
          simp
    | succ h =>
      -- a key of an inner node: down to the first key right of it
      have hleaf := hst.shaped.2.1
      obtain ⟨q, hdig, hon, hleft⟩ := digLeft_spec hL hroot htop hb
        (show r.pos + 1 ≤ r.node.numItems from hpos)
      refine .inr ⟨q, ?_, hon, ?_⟩
      · rw [next, if_neg (by simp [hleaf]), hdig]
        rfl
      · rw [hleft, pre, before_succ, left, hx]
        simp

theorem next_spec_end {r : BPTreeRecord K}
    {rest : BPTreePath K} {h : ℕ} (hb : Below root top h rest r.node)
    (hleaf : r.node.isLeaf = true) (hend : r.pos = r.node.numItems) :
    (right (r :: rest) = [] ∧ next (r :: rest) = some (false, [])) ∨
      (∃ q, next (r :: rest) = some (true, q) ∧ OnKey root top q ∧ left q = left (r :: rest) ∧
        right q = right (r :: rest)) := by
  have hplace : Place root top (r :: rest) := ⟨⟨h, hb⟩, hend.le⟩
  have hright : right (r :: rest) = post rest := by
    rw [right, hend, after_numItems, nil_append]
  rcases next_leaf_end hb hleaf (by omega) with ⟨h1, h2⟩ | ⟨q, h1, h2, h3⟩
  · exact .inl ⟨by rw [hright, h1], h2⟩
  · have hleft : left q = left (r :: rest) := by rw [h3, left, hend, upTo_numItems]
    refine .inr ⟨q, h1, h2, hleft, ?_⟩
    have := hplace.right_eq hL hroot h2.place (s := []) (by rw [hleft, append_nil])
    exact this.symm

theorem prev_spec (htop : top < kMaxDepth) (hp : Place root top p) :
    (left p = [] ∧ prev p = some (false, [])) ∨
      (∃ q x, prev p = some (true, q) ∧ OnKey root top q ∧ left p = left q ++ [x] ∧
        right q = x :: right p) := by
  suffices hsuff : (left p = [] ∧ prev p = some (false, [])) ∨
      (∃ q x, prev p = some (true, q) ∧ OnKey root top q ∧ left p = left q ++ [x]) by
    rcases hsuff with h | ⟨q, x, h1, h2, h3⟩
    · exact .inl h
    · exact .inr ⟨q, x, h1, h2, h3, h2.place.right_eq hL hroot hp h3⟩
  cases p with
  | nil => exact hp.elim
  | cons r rest =>
    obtain ⟨⟨h, hb⟩, hpos⟩ := hp
    have hst := hb.standing hL hroot
    cases h with
    | zero =>
      have hleaf := hst.shaped.1
      -- in a leaf there is nothing between two keys
      have hupTo : r.node.upTo r.pos = r.node.before r.pos := by
        rw [upTo_eq, sub_of_leaf hleaf, append_nil]
      rw [prev, if_pos hleaf, popStarted]
      by_cases hstart : r.pos = 0
      · rw [if_pos hstart]
        have hleft : left (r :: rest) = pre rest := by
          rw [left, hupTo, hstart, before_zero, append_nil]
        rcases popStarted_spec hb with ⟨h1, h2⟩ | ⟨s, rest', x, h1, h2, h3⟩
        · exact .inl ⟨by rw [hleft, h2], by rw [h1]⟩
        · exact .inr ⟨decLast (s :: rest'), x, by rw [h1], h2, by rw [hleft, h3]⟩
      · rw [if_neg hstart]
        refine .inr ⟨decLast (r :: rest), r.node.key (r.pos - 1), rfl, ⟨⟨0, hb⟩, ?_⟩, ?_⟩
        · show r.pos - 1 < r.node.numItems
          omega
        · have := before_succ r.node (r.pos - 1)
          rw [show r.pos - 1 + 1 = r.pos by omega] at this
          rw [decLast, left, left, hupTo, this, append_assoc]
    | succ h =>
      have hleaf := hst.shaped.2.1
      obtain ⟨q, x, hdig, hon, hleft⟩ := digRight_spec hL hroot htop hb hpos
      refine .inr ⟨q, x, ?_, hon, hleft⟩
      rw [prev, if_neg (by simp [hleaf])]
      rw [hdig]
      rfl

end

end Step

/-! ### One path to each key -/

theorem Below.cases_root : ∀ {p : BPTreePath K} {h : ℕ} {n : BPTreeNode K}, Below root top h p n →
    (p = [] ∧ n = root) ∨
      ∃ q i top', top = top' + 1 ∧ p = q ++ [⟨root, i⟩] ∧ root.isLeaf = false ∧
        i ≤ root.numItems ∧ Below (root.child i) top' h q n := by
  intro p
  induction p with
  | nil =>
    rintro h n ⟨rfl, _⟩
    exact .inl ⟨rfl, rfl⟩
  | cons r rest ih =>
    rintro h n ⟨rfl, hleaf, hpos, hb⟩
    rcases ih hb with ⟨rfl, hr⟩ | ⟨q, i, top', ht, rfl, hl, hi, hq⟩
    · have htop : h + 1 = top := hb.2
      rw [← hr]
      exact .inr ⟨[], r.pos, h, htop.symm, rfl, hleaf, hpos, rfl, rfl⟩
    · exact .inr ⟨r :: q, i, top', ht, rfl, hl, hi, rfl, hleaf, hpos, hq⟩

theorem OnKey.cases_root (hp : OnKey root top p) : (∃ i < root.numItems, p = [⟨root, i⟩]) ∨
      ∃ q i top', top = top' + 1 ∧ p = q ++ [⟨root, i⟩] ∧ root.isLeaf = false ∧
        i ≤ root.numItems ∧ OnKey (root.child i) top' q := by
  cases p with
  | nil => exact hp.elim
  | cons r rest =>
    obtain ⟨n, pos⟩ := r
    obtain ⟨⟨h, hb⟩, hpos⟩ := hp
    rcases hb.cases_root with ⟨rfl, hn⟩ | ⟨q, i, top', ht, rfl, hl, hi, hq⟩
    · obtain rfl : n = root := hn
      exact .inl ⟨pos, hpos, rfl⟩
    · exact .inr ⟨⟨n, pos⟩ :: q, i, top', ht, rfl, hl, hi, ⟨⟨h, hq⟩, hpos⟩⟩

theorem left_append_root {i : ℕ} : ∀ {q : BPTreePath K}, q ≠ [] →
    left (q ++ [⟨root, i⟩]) = root.before i ++ left q
  | [], h => absurd rfl h
  | r :: rest, _ => by
    rw [cons_append, left, left, pre_append]
    simp [pre]

theorem length_before_mono (n : BPTreeNode K) : Monotone fun i => (n.before i).length :=
  monotone_nat_of_le_succ fun i => by
    rw [before_succ, upTo_eq]
    simp only [length_append]
    omega

/-- The number of keys before a path that stops at the root, or leaves it, at position `i`. -/
theorem OnKey.length_left (hL : L.Roomy) (hroot : Rooted L top root) (hp : OnKey root top p) :
    ∃ i, (root.before i).length ≤ (left p).length ∧ (left p).length ≤ (root.upTo i).length ∧
      ((p = [⟨root, i⟩] ∧ (left p).length = (root.upTo i).length) ∨
        ∃ q top', top = top' + 1 ∧ p = q ++ [⟨root, i⟩] ∧ Rooted L top' (root.child i) ∧
          OnKey (root.child i) top' q ∧
          (left p).length = (root.before i).length + (left q).length ∧
          (left p).length < (root.upTo i).length) := by
  rcases hp.cases_root with ⟨i, hi, rfl⟩ | ⟨q, i, top', rfl, rfl, hl, hi, hq⟩
  · have hleft : (left [⟨root, i⟩]).length = (root.upTo i).length := by
      rw [left, pre, nil_append]
    refine ⟨i, ?_, hleft.le, .inl ⟨rfl, hleft⟩⟩
    rw [hleft, upTo_eq, length_append]
    omega
  · have hchild := hroot.shaped.child hi
    have hr : Rooted L top' (root.child i) :=
      ⟨hchild.shaped, (hL.low_pos top').trans hchild.low_le, hchild.count⟩
    have hne : q ≠ [] := by
      rintro rfl
      exact hq
    have hleft : (left (q ++ [⟨root, i⟩])).length = (root.before i).length + (left q).length := by
      rw [left_append_root hne, length_append]
    have hlt : (left (q ++ [⟨root, i⟩])).length < (root.upTo i).length := by
      obtain ⟨x, ys, -, hright⟩ := hq.right_eq_cons
      have hkeys := congrArg List.length (hq.place.left_append_right hL hr)
      rw [hright] at hkeys
      rw [hleft, upTo_eq, sub_of_inner hl]
      simp only [length_append, length_cons] at hkeys ⊢
      omega
    exact ⟨i, by omega, hlt.le, .inr ⟨q, top', rfl, rfl, hr, hq, hleft, hlt⟩⟩

theorem position_unique (n : BPTreeNode K) {i j m : ℕ} (hi : (n.before i).length ≤ m)
    (hi' : m ≤ (n.upTo i).length) (hj : (n.before j).length ≤ m) (hj' : m ≤ (n.upTo j).length) :
    i = j := by
  -- key `i` itself stands between the two
  have hstep : ∀ i j, i < j → (n.upTo i).length < (n.before j).length := fun i j hij => by
    have := length_before_mono n (show i + 1 ≤ j from hij)
    simp only [before_succ, length_append, length_singleton] at this
    omega
  rcases Nat.lt_trichotomy i j with hlt | heq | hlt
  · have := hstep i j hlt
    omega
  · exact heq
  · have := hstep j i hlt
    omega

theorem OnKey.eq_of_left (hL : L.Roomy) : ∀ {top : ℕ} {root : BPTreeNode K},
    Rooted L top root → ∀ {p q : BPTreePath K}, OnKey root top p → OnKey root top q →
    (left p).length = (left q).length → p = q := by
  intro top
  induction top using Nat.strong_induction_on with
  | _ top ih =>
    intro root hroot p q hp hq heq
    obtain ⟨i, hi, hi', hp⟩ := hp.length_left hL hroot
    obtain ⟨j, hj, hj', hq⟩ := hq.length_left hL hroot
    obtain rfl := position_unique root hi hi' (heq ▸ hj) (heq ▸ hj')
    -- a path that stops at the root has more keys before it than one that goes on
    rcases hp with ⟨rfl, h1⟩ | ⟨p', t, ht, rfl, hr, hp', h1, h1'⟩
    · rcases hq with ⟨rfl, -⟩ | ⟨q', t', -, rfl, -, -, -, h2'⟩
      · rfl
      · omega
    · rcases hq with ⟨rfl, h2⟩ | ⟨q', t', ht', rfl, -, hq', h2, -⟩
      · omega
      · -- both go on in the same child, and there by induction the same way
        obtain rfl : t = t' := by omega
        rw [ih t (by omega) hr hp' hq' (by omega)]

/-! ### Ranks -/

theorem childCounts_eq {m : ℕ} (hn : Shaped L (h + 1) n) (hm : m ≤ n.numItems + 1) :
    childCounts n m = UInt32.ofNat (∑ j ∈ Finset.range m, (n.sub j).length) := by
  have hleaf : n.isLeaf = false := hn.2.1
  simp only [sub_of_inner hleaf]
  rw [childCounts, forUp_add_ofNat 0 fun j hj => (hn.child (i := j) (by omega)).count,
    UInt32.zero_add]

theorem recordRank_zero {r : BPTreeRecord K} (hn : Shaped L (h + 1) r.node)
    (hpos : r.pos ≤ r.node.numItems) :
    recordRank r 0 = UInt32.ofNat (r.node.before r.pos).length := by
  have hleaf : r.node.isLeaf = false := hn.2.1
  rw [recordRank, if_neg (by simp [hleaf]), childCounts_eq hn (by omega), ← UInt32.ofNat_add, before,
    length_leading, Nat.add_zero, Nat.add_comm]

theorem recordRank_one {r : BPTreeRecord K} (hn : Shaped L h r.node)
    (hpos : r.pos ≤ r.node.numItems) :
    recordRank r 1 = UInt32.ofNat (r.node.upTo r.pos).length := by
  rw [upTo, interleave_length, UInt32.ofNat_add]
  simp only [Nat.zero_add]
  cases h with
  | zero =>
    rw [recordRank, if_pos hn.1, sub_of_leaf hn.1]
    simp
  | succ h =>
    have hleaf : r.node.isLeaf = false := hn.2.1
    rw [recordRank, if_neg (by simp [hleaf]), childCounts_eq hn (by omega), UInt32.add_comm]

theorem Below.rank_above (hL : L.Roomy) (hroot : Rooted L top root) :
    ∀ {p : BPTreePath K} {h : ℕ} {n : BPTreeNode K}, Below root top h p n →
      p.foldr (fun r s => s + recordRank r 0) 0 = UInt32.ofNat (pre p).length := by
  intro p
  induction p with
  | nil =>
    intro h n _
    rfl
  | cons r rest ih =>
    rintro h n ⟨rfl, hleaf, hpos, hb⟩
    rw [foldr_cons, ih hb, recordRank_zero (hb.standing hL hroot).shaped hpos, pre,
      length_append, UInt32.ofNat_add]

theorem OnKey.rank_eq (hL : L.Roomy) (hroot : Rooted L top root) :
    ∀ {p : BPTreePath K}, OnKey root top p → rank p = UInt32.ofNat (left p).length
  | [], h => h.elim
  | r :: rest, ⟨⟨h, hb⟩, hpos⟩ => by
    rw [rank, hb.rank_above hL hroot, recordRank_one (hb.standing hL hroot).shaped hpos.le, left,
      length_append, UInt32.ofNat_add]

end BPTreePath
