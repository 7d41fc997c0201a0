/-
Bounds, and walking over all keys.

* `bounds_of_run` — `GEQ`, `LEQ`, `Next` and `Prev`, for every tree with keys that a run reaches.

`GEQ` and `LEQ` start with `Locate` and, like `Contains`, read the null root of an
empty tree.
-/
import AstraDB.BPTreeRank

open List

open BPTreeNode BPTreePath

namespace BPTree

variable {K : Type} [Inhabited K] {L : BPNodeLayout}

/-- `p` is a path of the tree, and it stands on the key `x`. -/
def LeadsTo (t : BPTree K) (p : BPTreePath K) (x : K) : Prop :=
  OnKey t.root (t.height.toNat - 1) p ∧ terminal p = some x

/-- The keys met by calling `Next` until it returns false. -/
def nextAll : ℕ → BPTreePath K → Option (List K)
  | 0, _ => none
  | fuel + 1, p => do
    let x ← terminal p
    let (more, p) ← next p
    if more then
      let xs ← nextAll fuel p
      some (x :: xs)
    else some [x]

section Walk

variable {root : BPTreeNode K} {top : ℕ}

section

variable (hL : L.Roomy) (hroot : Rooted L top root) (htop : top < kMaxDepth)
include hL hroot htop

theorem nextAll_spec :
    ∀ {fuel : ℕ} {p : BPTreePath K}, OnKey root top p → (right p).length ≤ fuel →
      nextAll fuel p = some (right p) := by
  intro fuel
  induction fuel with
  | zero =>
    intro p hp hf
    obtain ⟨x, ys, -, hr⟩ := hp.right_eq_cons
    rw [hr, length_cons] at hf
    omega
  | succ fuel ih =>
    intro p hp hf
    obtain ⟨x, ys, hterm, hr⟩ := hp.right_eq_cons
    rw [hr, length_cons] at hf
    rw [nextAll, hterm, hr]
    simp only [Option.bind_eq_bind, Option.bind_some]
    rcases next_spec hL hroot htop hp hr with ⟨rfl, hnext⟩ | ⟨q, hnext, hq, -, hqr⟩
    · rw [hnext]
      rfl
    · rw [hnext]
      simp only [Option.bind_some, if_true]
      rw [ih hq (by rw [hqr]; omega), hqr]
      rfl

theorem prev_of_next
    {p q : BPTreePath K} (hp : OnKey root top p) (hnext : next p = some (true, q)) :
    OnKey root top q ∧ prev q = some (true, p) := by
  obtain ⟨x, ys, -, hr⟩ := hp.right_eq_cons
  rcases next_spec hL hroot htop hp hr with ⟨-, h⟩ | ⟨q', h, hq, hql, -⟩
  · rw [hnext] at h
    cases h
  · rw [hnext] at h
    cases h
    refine ⟨hq, ?_⟩
    rcases prev_spec hL hroot htop hq.place with ⟨hnil, -⟩ | ⟨p', y, hprev, hp', hleft, -⟩
    · rw [hql] at hnil
      simp at hnil
    · -- the path before has as many keys left of it, and there is only one such path
      have hlen := congrArg List.length (hql.symm.trans hleft)
      simp only [length_append, length_singleton] at hlen
      rw [hprev, hp'.eq_of_left hL hroot hp (by omega)]

end

end Walk

section Bounds

variable [LinearOrder K] {t : BPTree K} {s : Finset K} {cmp : K → K → ℤ} {top : ℕ} {c : K → ℤ}

variable {p : BPTreePath K} {x : K} {ys : List K}

theorem NonEmpty.leadsTo (ht : NonEmpty L t s top) (hp : OnKey t.root top p)
    (hr : right p = x :: ys) : LeadsTo t p x := by
  refine ⟨?_, hp.terminal_eq hr⟩
  rw [ht.height_toNat, Nat.add_sub_cancel]
  exact hp

section

variable (hL : L.Roomy) (ht : NonEmpty L t s top)
include hL ht

/-- A key with only too small keys before it is the least that is not smaller. -/
theorem NonEmpty.isLeast (hp : Place t.root top p)
    (hr : right p = x :: ys) (hleft : ∀ y ∈ left p, 0 < c y) (hx : c x ≤ 0) :
    IsLeast {y | y ∈ s ∧ c y ≤ 0} x := by
  have hsorted := ht.sorted
  rw [← hp.left_append_right hL ht.rooted, hr] at hsorted
  have hcons := (pairwise_cons.mp (pairwise_append.mp hsorted).2.1).1
  refine ⟨⟨(ht.mem_iff hL hp x).mpr (.inr (by simp [hr])), hx⟩, ?_⟩
  rintro y ⟨hy, hcy⟩
  rcases (ht.mem_iff hL hp y).mp hy with h | h
  · have := hleft y h
    omega
  · rw [hr] at h
    rcases mem_cons.mp h with rfl | h
    · exact le_rfl
    · exact (hcons y h).le

/-- A key with only too great keys after it is the greatest that is not larger. -/
theorem NonEmpty.isGreatest (hp : Place t.root top p)
    (hr : right p = x :: ys) (hright : ∀ y ∈ ys, c y < 0) (hx : 0 ≤ c x) :
    IsGreatest {y | y ∈ s ∧ 0 ≤ c y} x := by
  have hsorted := ht.sorted
  rw [← hp.left_append_right hL ht.rooted, hr] at hsorted
  have hleft := (pairwise_append.mp hsorted).2.2
  refine ⟨⟨(ht.mem_iff hL hp x).mpr (.inr (by simp [hr])), hx⟩, ?_⟩
  rintro y ⟨hy, hcy⟩
  rcases (ht.mem_iff hL hp y).mp hy with h | h
  · exact (hleft y h x (mem_cons_self ..)).le
  · rw [hr] at h
    rcases mem_cons.mp h with rfl | h
    · exact le_rfl
    · have := hright y h
      omega

theorem geq_spec (hc : IsQuery c) :
    ∃ p, geq t c = some p ∧ ((p = [] ∧ ∀ y ∈ s, 0 < c y) ∨
      ∃ x, LeadsTo t p x ∧ IsLeast {y | y ∈ s ∧ c y ≤ 0} x) := by
  obtain ⟨found, p, hloc, hok⟩ := locate_spec hL ht.rooted ht.depth ht.sorted hc
  cases p with
  | nil => exact hok.place.elim
  | cons r rest =>
    have hval : geq t c = (if !found ∧ r.node.numItems ≤ r.pos then do
        let (_, path) ← next (r :: rest)
        some path
      else some (r :: rest)) := by
      rw [geq, hloc]
      rfl
    rw [hval]
    cases hf : found with
    | true =>
      obtain ⟨hon, x, ys, hr, hx⟩ := hok.hit hf
      rw [if_neg (by simp)]
      exact ⟨r :: rest, rfl, .inr ⟨x, ht.leadsTo hon hr,
        ht.isLeast hL hon.place hr hok.below hx.le⟩⟩
    | false =>
      obtain ⟨hright, leaf, pos, above, hp, hb⟩ := hok.miss hf
      obtain ⟨rfl, rfl⟩ : r = ⟨leaf, pos⟩ ∧ rest = above := List.cons.inj hp
      -- the place may be behind the last key of its leaf
      by_cases hend : leaf.numItems ≤ pos
      · rw [if_pos ⟨rfl, hend⟩]
        have hpos : pos = leaf.numItems := le_antisymm hok.place.2 hend
        have hleaf := (hb.standing hL ht.rooted).shaped.1
        rcases next_spec_end hL ht.rooted (r := ⟨leaf, pos⟩) hb hleaf hpos with
          ⟨hnil, hnext⟩ | ⟨q, hnext, hq, hql, hqr⟩
        · rw [hnext]
          refine ⟨[], rfl, .inl ⟨rfl, fun y hy => ?_⟩⟩
          rcases (ht.mem_iff hL hok.place y).mp hy with h | h
          · exact hok.below y h
          · rw [hnil] at h
            cases h
        · rw [hnext]
          obtain ⟨x, ys, -, hr⟩ := hq.right_eq_cons
          refine ⟨q, rfl, .inr ⟨x, ht.leadsTo hq hr, ht.isLeast hL hq.place hr ?_ ?_⟩⟩
          · rw [hql]
            exact hok.below
          · exact (hright x (by rw [← hqr, hr]; exact mem_cons_self ..)).le
      · rw [if_neg fun h => hend h.2]
        have hon : OnKey t.root top (⟨leaf, pos⟩ :: rest) := ⟨⟨0, hb⟩, not_le.mp hend⟩
        obtain ⟨x, ys, -, hr⟩ := hon.right_eq_cons
        exact ⟨_, rfl, .inr ⟨x, ht.leadsTo hon hr, ht.isLeast hL hon.place hr hok.below
          (hright x (by rw [hr]; exact mem_cons_self ..)).le⟩⟩

theorem leq_spec (hc : IsQuery c) :
    ∃ p, leq t c = some p ∧ ((p = [] ∧ ∀ y ∈ s, c y < 0) ∨
      ∃ x, LeadsTo t p x ∧ IsGreatest {y | y ∈ s ∧ 0 ≤ c y} x) := by
  obtain ⟨found, p, hloc, hok⟩ := locate_spec hL ht.rooted ht.depth ht.sorted hc
  rw [leq, hloc]
  simp only [Option.bind_eq_bind, Option.bind_some]
  cases hf : found with
  | true =>
    obtain ⟨hon, x, ys, hr, hx⟩ := hok.hit hf
    have hsorted := ht.sorted
    rw [← hok.place.left_append_right hL ht.rooted, hr] at hsorted
    exact ⟨p, rfl, .inr ⟨x, ht.leadsTo hon hr, ht.isGreatest hL hon.place hr
      (hc.above_of_append hsorted hx.le) hx.ge⟩⟩
  | false =>
    obtain ⟨hright, -⟩ := hok.miss hf
    rw [if_neg (by simp)]
    rcases prev_spec hL ht.rooted ht.depth hok.place with ⟨hnil, hprev⟩ | ⟨q, x, hprev, hq, hql, hqr⟩
    · rw [hprev]
      refine ⟨[], rfl, .inl ⟨rfl, fun y hy => ?_⟩⟩
      rcases (ht.mem_iff hL hok.place y).mp hy with h | h
      · rw [hnil] at h
        cases h
      · exact hright y h
    · rw [hprev]
      exact ⟨q, rfl, .inr ⟨x, ht.leadsTo hq hqr, ht.isGreatest hL hq.place hqr hright
        (hok.below x (by rw [hql]; simp)).le⟩⟩

end

/-- `GEQ`, `LEQ`, `Next` and `Prev` on every tree with keys that a run reaches. -/
theorem bounds_of_run (hcmp : IsThreeWay cmp) (hL : L.Roomy) {ops : List (SetOp K)}
    {rs : List (Option Bool)} (hlim : WithinLimits L cmp ops)
    (hrun : run L cmp empty ops = some (t, rs)) (hne : 0 < t.size) :
    let s := (SetOp.applyAll ∅ ops).1
    (∀ c, IsQuery c → ∃ p, geq t c = some p ∧ ((p = [] ∧ ∀ y ∈ s, 0 < c y) ∨
      ∃ x, LeadsTo t p x ∧ IsLeast {y | y ∈ s ∧ c y ≤ 0} x)) ∧
    (∀ c, IsQuery c → ∃ p, leq t c = some p ∧ ((p = [] ∧ ∀ y ∈ s, c y < 0) ∨
      ∃ x, LeadsTo t p x ∧ IsGreatest {y | y ∈ s ∧ 0 ≤ c y} x)) ∧
    (∃ p x, LeadsTo t p x ∧ IsLeast (s : Set K) x ∧ nextAll t.size p = some s.sort) ∧
    ∀ p x q, LeadsTo t p x → next p = some (true, q) → prev q = some (true, p) := by
  intro s
  have h32 : s.card < 2 ^ 32 := hlim.card_lt
  obtain ⟨ht, hfit, hsize⟩ : Represents L t s ∧ PathsFit L t ∧ t.size = s.card :=
    hlim.of_run hcmp hL hrun
  rcases ht.cases hfit with ⟨-, hempty, -⟩ | ⟨top, hn⟩
  · rw [hsize, hempty] at hne
    simp at hne
  · refine ⟨fun c hc => geq_spec hL hn hc, fun c hc => leq_spec hL hn hc, ?_, ?_⟩
    · -- the path of the smallest key is that of rank `0`
      obtain ⟨p, -, hon, hleft⟩ := hn.fromRank_spec hL h32 (r := 0) (by rw [← hsize]; exact hne)
      obtain ⟨x, ys, -, hr⟩ := hon.right_eq_cons
      have hnil : left p = [] := length_eq_zero_iff.mp hleft
      have hall : right p = s.sort := by
        rw [← hn.keys, ← hon.place.left_append_right hL hn.rooted, hnil, nil_append]
      have hleast := hn.isLeast hL (c := fun _ => 0) hon.place hr (by simp [hnil]) le_rfl
      refine ⟨p, x, hn.leadsTo hon hr, by simpa using hleast, ?_⟩
      rw [nextAll_spec hL hn.rooted hn.depth hon (by rw [hall, hsize, Finset.length_sort]), hall]
    · rintro p x q ⟨hp, -⟩ hnext
      rw [hn.height_toNat, Nat.add_sub_cancel] at hp
      exact (prev_of_next hL hn.rooted hn.depth hp hnext).2

end Bounds

theorem bounds_of_run_example :
    ∃ t p, run layout16 (fun a b : ℤ => a - b) empty [.insert 5, .insert 3]
        = some (t, [some true, some true]) ∧ geq t (fun b => 4 - b) = some p ∧ LeadsTo t p 5 := by
  obtain ⟨t, hrun, hsize⟩ : ∃ t, run layout16 (fun a b : ℤ => a - b) empty [.insert 5, .insert 3]
      = some (t, [some true, some true]) ∧ t.size = 2 := ⟨_, rfl, rfl⟩
  obtain ⟨p, hp, ⟨-, h⟩ | ⟨x, hx, hleast⟩⟩ := (bounds_of_run isThreeWay_int_sub
    layout16_roomy (layout16_withinLimits (by decide)) hrun (by rw [hsize]; decide)).1 (fun b => 4 - b)
    (isThreeWay_int_sub.isQuery 4)
  · have := h 5 (by decide)
    omega
  · have hx5 : x = 5 := by
      have h1 : x = 3 ∨ x = 5 := by simpa [SetOp.applyAll, SetOp.apply] using hleast.1.1
      have h2 : 4 - x ≤ 0 := hleast.1.2
      omega
    exact ⟨t, p, hrun, hp, hx5 ▸ hx⟩

/-- On an empty tree the searches of `GEQ` and `LEQ` read the null root. -/
theorem bounds_of_empty :
    geq (empty : BPTree ℤ) (fun b => 1 - b) = none ∧ leq (empty : BPTree ℤ) (fun b => 1 - b) = none :=
  ⟨rfl, rfl⟩

end BPTree
