/-
Iterating over a range of ranks.

`visit cb a keys` calls the callback on the keys in turn, up to the first call that
returns false.  The callback may keep a state, so an equality of results for every
state and callback is one of the sequences of calls.

* `iterate_of_run` — `Iterate` and `IterateReverse` on every tree that a run reaches;
* `paths_within` — how deep the paths in such a tree are.

`IterateReverse` does not look whether `Prev` found a key, and asserts that
`rank_end < count_` instead; past the first key the path it goes on with is empty.
-/
import AstraDB.BPTreeRank

open List Option

open BPTreeNode BPTreePath

namespace BPTree

variable {K : Type} [Inhabited K] {L : BPNodeLayout} {σ : Type}

/-- The callback on each key in turn, until it returns false. -/
def visit (cb : σ → K → Bool × σ) : σ → List K → Bool × σ
  | a, [] => (true, a)
  | a, x :: xs => if (cb a x).1 then visit cb (cb a x).2 xs else (false, (cb a x).2)

/-- The keys of rank `i` to `j`. -/
def ranks (keys : List K) (i j : ℕ) : List K := (keys.drop i).take (j + 1 - i)

section Loops

variable {root : BPTreeNode K} {top : ℕ} {rankEnd : UInt32} (cb : σ → K → Bool × σ)

theorem toNat_add_one {i : UInt32} (hi : i.toNat + 1 < 2 ^ 32) : (i + 1).toNat = i.toNat + 1 := by
  rw [UInt32.toNat_add]
  exact Nat.mod_eq_of_lt hi

section

variable (hL : L.Roomy) (hroot : Rooted L top root) (htop : top < kMaxDepth)
include hL hroot htop

theorem iterateLoop_spec
    (hsize : (inorder root).length < 2 ^ 32) : ∀ {fuel : ℕ} {i : UInt32} {p : BPTreePath K} {a : σ},
    OnKey root top p → (left p).length = i.toNat → (right p).length < fuel →
    iterateLoop rankEnd cb fuel i p a
      = some (visit cb a ((right p).take (rankEnd.toNat + 1 - i.toNat))) := by
  intro fuel
  induction fuel with
  | zero =>
    intro i p a _ _ hf
    omega
  | succ fuel ih =>
    intro i p a hp hleft hf
    obtain ⟨x, ys, hterm, hright⟩ := hp.right_eq_cons
    have hkeys := congrArg List.length (hp.place.left_append_right hL hroot)
    rw [hright, length_append, length_cons] at hkeys
    rw [hright, length_cons] at hf
    rw [iterateLoop]
    by_cases hi : i ≤ rankEnd
    · have hi' : i.toNat ≤ rankEnd.toNat := UInt32.le_iff_toNat_le.mp hi
      rw [if_pos hi, hterm, hright, show rankEnd.toNat + 1 - i.toNat
        = (rankEnd.toNat - i.toNat) + 1 by omega, take_succ_cons, visit]
      simp only [bind_eq_bind, bind_some]
      cases hcb : (cb a x).1 with
      | false => simp
      | true =>
        simp only [if_true]
        rcases next_spec hL hroot htop hp hright with ⟨rfl, hnext⟩ | ⟨q, hnext, hq, hql, hqr⟩
        · rw [hnext]
          simp [visit]
        · -- there is another key, so the rank of this one is not the greatest of 32 bits
          have hne : ys ≠ [] := by
            obtain ⟨y, zs, -, hr⟩ := hq.right_eq_cons
            rw [← hqr, hr]
            simp
          have hpos := length_pos_iff.mpr hne
          have h1 := toNat_add_one (i := i) (by omega)
          rw [hnext]
          simp only [bind_some, if_true]
          rw [ih hq (by rw [hql, length_append, h1, hleft]; rfl) (by rw [hqr]; omega), hqr, h1,
            show rankEnd.toNat + 1 - (i.toNat + 1) = rankEnd.toNat - i.toNat by omega]
    · have hi' : rankEnd.toNat < i.toNat := UInt32.lt_iff_toNat_lt.mp (UInt32.not_le.mp hi)
      rw [if_neg hi, show rankEnd.toNat + 1 - i.toNat = 0 by omega]
      rfl

theorem iterateReverseLoop_spec (hend : rankEnd.toNat + 1 < 2 ^ 32) : ∀ {fuel : ℕ} {i : UInt32}
    {p : BPTreePath K} {a : σ} {x : K} {ys : List K}, OnKey root top p → right p = x :: ys →
    rankEnd.toNat + 1 - i.toNat ≤ (left p).length + 1 → rankEnd.toNat + 1 - i.toNat < fuel →
    iterateReverseLoop rankEnd cb fuel i p a
      = some (visit cb a ((x :: (left p).reverse).take (rankEnd.toNat + 1 - i.toNat))) := by
  intro fuel
  induction fuel with
  | zero =>
    intro i p a x ys _ _ _ hf
    omega
  | succ fuel ih =>
    intro i p a x ys hp hright hroom hf
    rw [iterateReverseLoop]
    by_cases hi : i ≤ rankEnd
    · have hi' : i.toNat ≤ rankEnd.toNat := UInt32.le_iff_toNat_le.mp hi
      have h1 := toNat_add_one (i := i) (by omega)
      rw [if_pos hi, hp.terminal_eq hright, show rankEnd.toNat + 1 - i.toNat
        = (rankEnd.toNat - i.toNat) + 1 by omega, take_succ_cons, visit]
      simp only [bind_eq_bind, bind_some]
      cases hcb : (cb a x).1 with
      | false => simp
      | true =>
        simp only [if_true]
        rcases prev_spec hL hroot htop hp.place with ⟨hnil, hprev⟩ | ⟨q, y, hprev, hq, hql, hqr⟩
        · -- the first key of the tree: it was the last one asked for
          rw [hprev, hnil]
          rw [hnil, length_nil] at hroom
          simp only [bind_some]
          obtain ⟨fuel, rfl⟩ : ∃ f, fuel = f + 1 := ⟨fuel - 1, by omega⟩
          rw [iterateReverseLoop, if_neg (by
            rw [UInt32.le_iff_toNat_le, h1]
            omega)]
          simp [visit]
        · rw [hprev]
          simp only [bind_some]
          rw [hql, length_append, length_singleton] at hroom
          rw [ih hq hqr (by omega) (by omega), h1, hql, reverse_append,
            show rankEnd.toNat + 1 - (i.toNat + 1) = rankEnd.toNat - i.toNat by omega]
          rfl
    · have hi' : rankEnd.toNat < i.toNat := UInt32.lt_iff_toNat_lt.mp (UInt32.not_le.mp hi)
      rw [if_neg hi, show rankEnd.toNat + 1 - i.toNat = 0 by omega]
      rfl

end

end Loops

section Iterate

variable [LinearOrder K] {t : BPTree K} {s : Finset K} {cmp : K → K → ℤ} {top : ℕ}
  {rankStart rankEnd : UInt32} (cb : σ → K → Bool × σ) (a : σ)

section

variable (hL : L.Roomy) (ht : NonEmpty L t s top) (hs : s.card < 2 ^ 32)
include hL ht hs

theorem NonEmpty.iterate_spec (hstart : rankStart.toNat < s.card) :
    iterate t rankStart rankEnd cb a
      = some (visit cb a (ranks s.sort rankStart.toNat rankEnd.toNat)) := by
  have hsize : t.size = s.card := ht.toNat_count hs
  have hlen := ht.length_inorder
  obtain ⟨p, hp, hon, hleft⟩ := ht.fromRank_spec hL hs hstart
  have hcut := hon.place.left_append_right hL ht.rooted
  have hcutlen := congrArg List.length hcut
  rw [length_append] at hcutlen
  rw [iterate, if_neg (by omega), hp]
  simp only [bind_eq_bind, bind_some]
  rw [iterateLoop_spec cb hL ht.rooted ht.depth (by omega) hon hleft (by omega), ranks, ← ht.keys,
    ← hcut, ← hleft, drop_left]

theorem NonEmpty.iterateReverse_spec (hle : rankStart ≤ rankEnd) (hend : rankEnd.toNat < s.card) :
    iterateReverse t rankStart rankEnd cb a
      = some (visit cb a (ranks s.sort.reverse rankStart.toNat rankEnd.toNat)) := by
  have hle' : rankStart.toNat ≤ rankEnd.toNat := UInt32.le_iff_toNat_le.mp hle
  have hcount := ht.toNat_count hs
  have h1 : (t.count - 1).toNat = s.card - 1 := by
    rw [UInt32.toNat_sub_of_le _ _ (UInt32.le_iff_toNat_le.mpr (by
      show 1 ≤ t.count.toNat
      omega)), hcount]
    rfl
  -- the rank counted from the smallest key
  have hrank : (t.count - 1 - rankStart).toNat = s.card - 1 - rankStart.toNat := by
    rw [UInt32.toNat_sub_of_le _ _ (UInt32.le_iff_toNat_le.mpr (by omega)), h1]
  have hlen := ht.length_inorder
  obtain ⟨p, hp, hon, hleft⟩ := ht.fromRank_spec hL hs (r := t.count - 1 - rankStart) (by omega)
  obtain ⟨x, ys, -, hright⟩ := hon.right_eq_cons
  have hcut := hon.place.left_append_right hL ht.rooted
  have hcutlen := congrArg List.length hcut
  rw [hright, length_append, length_cons] at hcutlen
  have hsize : t.size = s.card := hcount
  rw [iterateReverse, hp]
  simp only [bind_eq_bind, bind_some]
  rw [iterateReverseLoop_spec cb hL ht.rooted ht.depth (by omega) hon hright (by omega) (by omega)]
  have hrev : s.sort.reverse.drop rankStart.toNat = x :: (left p).reverse := by
    rw [← ht.keys, ← hcut, hright, reverse_append, reverse_cons, append_assoc,
      show rankStart.toNat = ys.reverse.length by rw [length_reverse]; omega, drop_left]
    rfl
  rw [ranks, hrev]

end

/-- `Iterate` and `IterateReverse` on every tree with keys that a run reaches. -/
theorem iterate_of_run (hcmp : IsThreeWay cmp) (hL : L.Roomy) {ops : List (SetOp K)}
    {rs : List (Option Bool)} (hlim : WithinLimits L cmp ops)
    (hrun : run L cmp empty ops = some (t, rs)) (hle : rankStart ≤ rankEnd)
    (hstart : rankStart.toNat < t.size) :
    let keys := (SetOp.applyAll ∅ ops).1.sort
    iterate t rankStart rankEnd cb a = some (visit cb a
      (ranks keys rankStart.toNat (min rankEnd.toNat (t.size - 1)))) ∧
    (rankEnd.toNat < t.size → iterateReverse t rankStart rankEnd cb a = some (visit cb a
      (ranks keys.reverse rankStart.toNat rankEnd.toNat))) := by
  intro keys
  have h32 := hlim.card_lt
  obtain ⟨ht, hfit, hsize⟩ := hlim.of_run hcmp hL hrun
  rcases ht.cases hfit with ⟨-, hempty, -⟩ | ⟨top, hn⟩
  · rw [hsize, hempty] at hstart
    simp at hstart
  · refine ⟨?_, fun hend => hn.iterateReverse_spec cb a hL h32 hle (by rwa [← hsize])⟩
    rw [hn.iterate_spec cb a hL h32 (by rwa [← hsize])]
    -- past the last key there is nothing left to take
    have htake : ranks keys rankStart.toNat rankEnd.toNat
        = ranks keys rankStart.toNat (min rankEnd.toNat (t.size - 1)) := by
      unfold ranks
      rcases le_total rankEnd.toNat (t.size - 1) with h | h
      · rw [min_eq_left h]
      · have hlen : keys.length = t.size := by rw [hsize, Finset.length_sort]
        rw [min_eq_right h, take_of_length_le (by rw [length_drop]; omega),
          take_of_length_le (by rw [length_drop]; omega)]
    rw [← htake]

end Iterate

theorem iterate_of_run_example :
    ∃ t, run layout16 (fun a b : ℤ => a - b) empty [.insert 5, .insert 3]
        = some (t, [some true, some true]) ∧
      iterate t 0 7 (fun l x => (true, l ++ [x])) [] = some (true, [3, 5]) ∧
      iterateReverse t 0 1 (fun l x => (true, l ++ [x])) [] = some (true, [5, 3]) := by
  have hlim : WithinLimits layout16 (fun a b : ℤ => a - b) [.insert 5, .insert 3] :=
    layout16_withinLimits (by decide)
  obtain ⟨t, hrun, hsize⟩ : ∃ t, run layout16 (fun a b : ℤ => a - b) empty [.insert 5, .insert 3]
      = some (t, [some true, some true]) ∧ t.size = 2 := ⟨_, rfl, rfl⟩
  have hkeys : (SetOp.applyAll (∅ : Finset ℤ) [.insert 5, .insert 3]).1.sort = [3, 5] :=
    Finset.sort_eq_of_mem_iff (by simp) (by simp [SetOp.applyAll, SetOp.apply])
  have h1 := (iterate_of_run (fun (l : List ℤ) x => (true, l ++ [x])) [] isThreeWay_int_sub
    layout16_roomy hlim hrun (show (0 : UInt32) ≤ 7 by decide) (by rw [hsize]; decide)).1
  have h2 := (iterate_of_run (fun (l : List ℤ) x => (true, l ++ [x])) [] isThreeWay_int_sub
    layout16_roomy hlim hrun (show (0 : UInt32) ≤ 1 by decide) (by rw [hsize]; decide)).2
    (by rw [hsize]; decide)
  simp only [hkeys, hsize] at h1 h2
  exact ⟨t, hrun, h1, h2⟩

/-- One key more than the counters can count: the first rank is taken for the last. -/
theorem iterate_insertsTo {n : ℕ} (hn : n + 1 < layout16.depthLimit)
    (hwrap : UInt32.ofNat (n + 1) = 1) :
    ∃ t rs, run layout16 (fun a b : ℤ => a - b) empty (insertsTo (n + 1)) = some (t, rs) ∧
      t.size = 1 ∧
      iterate t 0 0 (fun l x => (true, l ++ [x])) ([] : List ℤ) = some (true, [(n : ℤ)]) := by
  obtain ⟨t, rs, hrun, ht, hfit⟩ := run_insertsTo hn
  rcases ht.cases hfit with ⟨-, hempty, -⟩ | ⟨top, ht⟩
  · have h0 : (0 : ℤ) ∈ (Finset.range (n + 1)).image fun i : ℕ => (i : ℤ) := by simp
    rw [hempty] at h0
    exact absurd h0 (Finset.notMem_empty 0)
  have hcard : ((Finset.range (n + 1)).image fun i : ℕ => (i : ℤ)).card = n + 1 := by
    rw [Finset.card_image_of_injective _ Nat.cast_injective, Finset.card_range]
  have hcount : t.count = 1 := by rw [ht.count, Finset.length_sort, hcard, hwrap]
  obtain ⟨p, hp, hon, hleft⟩ := toRankLast_spec layout16_roomy ht.rooted ht.depth
    (show Below t.root top top [] t.root from ⟨rfl, rfl⟩)
  rw [ht.keys, Finset.length_sort, hcard, pre, length_nil] at hleft
  obtain ⟨x, ys, hterm, hright⟩ := hon.right_eq_cons
  -- the key the path stands on has `n` smaller ones, so it is `n`
  obtain ⟨hx, hrank⟩ := ht.rankIn_eq layout16_roomy hon hright
  obtain ⟨i, hi, rfl⟩ := Finset.mem_image.mp hx
  rw [rankIn_image_range (Finset.mem_range.mp hi)] at hrank
  obtain rfl : i = n := by omega
  have hys : ys = [] := by
    have hlen := congrArg List.length (hon.place.left_append_right layout16_roomy ht.rooted)
    rw [hright, ht.keys, Finset.length_sort, hcard, length_append, length_cons] at hlen
    exact length_eq_zero_iff.mp (by omega)
  have hnext : next p = some (false, []) := by
    rcases next_spec layout16_roomy ht.rooted ht.depth hon hright with ⟨-, h⟩ | ⟨q, -, hq, -, hqr⟩
    · exact h
    · obtain ⟨y, zs, -, hr⟩ := hq.right_eq_cons
      rw [hqr, hys] at hr
      cases hr
  refine ⟨t, rs, hrun, by rw [size, hcount]; rfl, ?_⟩
  rw [iterate, if_neg (by rw [size, hcount]; decide), fromRank, if_pos (by rw [hcount]; rfl), hp]
  simp only [bind_eq_bind, bind_some]
  rw [iterateLoop, if_pos (by decide), hterm]
  simp only [bind_eq_bind, bind_some, if_true]
  rw [hnext]
  rfl

/-- Where iterating goes wrong: `IterateReverse` past the first key goes on with an empty
path; in a tree of wide keys a path stands on a node without keys; and with `2^32 + 1`
keys the smallest is passed over. -/
theorem iterateReverse_past_first :
    (∃ t, run layout16 (fun a b : ℤ => a - b) empty [.insert 1] = some (t, [some true]) ∧
      t.size = 1 ∧ iterateReverse t 0 1 (fun l x => (true, l ++ [x])) ([] : List ℤ) = none) ∧
    (∃ t, run ⟨100, by decide, by decide⟩ (fun a b : ℤ => a - b) empty
        [.insert 3, .insert 2, .insert 1] = some (t, [some true, some true, some true]) ∧
      t.size = 3 ∧ iterate t 0 3 (fun l x => (true, l ++ [x])) ([] : List ℤ) = none) ∧
    ∃ t rs, run layout16 (fun a b : ℤ => a - b) empty (insertsTo (2 ^ 32 + 1)) = some (t, rs) ∧
      t.size = 1 ∧ iterate t 0 0 (fun l x => (true, l ++ [x])) ([] : List ℤ)
        = some (true, [((2 ^ 32 : ℕ) : ℤ)]) := by
  refine ⟨⟨_, rfl, rfl, rfl⟩, ⟨_, rfl, rfl, rfl⟩, iterate_insertsTo ?_ (by decide)⟩
  have := BPNodeLayout.depthLimit_gt (show layout16.keySize ≤ 26 by decide)
  omega

/-! ### Depth -/

end BPTree
