/-
Answers to a line of numbered requests.

Requests are numbered as they come, and wait in line.  The one in front is answered, once
or several times, or goes away by one of several ways; on each way requests stay in line,
and the one in front there comes back and is answered once.

* `InOrder.act` — if a request is answered only while none is away, and goes away only
  while none is away on another way, the answers are in the order of the requests;
* `Placed.act` — a request is in one place, and is not answered before it leaves it.
-/
import Mathlib.Data.List.Basic
import Mathlib.Logic.Function.Basic
import Mathlib.Order.Basic

open List Function

@[ext]
structure Detours (ι : Type) where
  answered : List ℕ
  away : ι → List ℕ
  waiting : List ℕ
  received : ℕ

namespace Detours

variable {ι : Type}

def init : Detours ι := ⟨[], fun _ => [], [], 0⟩

inductive Act (ι : Type)
  | idle
  | receive
  | answer (copies : ℕ)
  | depart (u : ι)
  | comeBack (u : ι)

variable [DecidableEq ι]

def act (s : Detours ι) : Act ι → Detours ι
  | .idle => s
  | .receive => { s with waiting := s.waiting ++ [s.received], received := s.received + 1 }
  | .answer copies =>
    match s.waiting with
    | [] => s
    | n :: rest => { s with answered := s.answered ++ replicate copies n, waiting := rest }
  | .depart u =>
    match s.waiting with
    | [] => s
    | n :: rest => { s with away := update s.away u (s.away u ++ [n]), waiting := rest }
  | .comeBack u =>
    match s.away u with
    | [] => s
    | n :: rest =>
      { s with answered := s.answered ++ [n], away := update s.away u rest }

variable {n : ℕ} {rest : List ℕ} {u : ι} {s : Detours ι}

theorem act_answer (h : s.waiting = n :: rest) (copies : ℕ) : s.act (.answer copies) =
      { s with answered := s.answered ++ replicate copies n, waiting := rest } := by
  simp only [act, h]

theorem act_depart (h : s.waiting = n :: rest) (u : ι) : s.act (.depart u) =
      { s with away := update s.away u (s.away u ++ [n]), waiting := rest } := by
  simp only [act, h]

theorem act_comeBack (h : s.away u = n :: rest) : s.act (.comeBack u) =
      { s with answered := s.answered ++ [n], away := update s.away u rest } := by
  simp only [act, h]

/-! ### Order -/

/-- Nothing that was there before is overtaken. -/
def Clear (s : Detours ι) : Act ι → Prop
  | .answer _ => ∀ u, s.away u = []
  | .depart u => ∀ v, v ≠ u → s.away v = []
  | _ => True

/-- What has been answered, what is away on one way, and what waits. -/
def line (s : Detours ι) (u : ι) : List ℕ := s.answered ++ s.away u ++ s.waiting

structure InOrder (s : Detours ι) : Prop where
  sorted : ∀ u, (s.line u).Pairwise (· ≤ ·)
  single : ∀ u v, s.away u ≠ [] → s.away v ≠ [] → u = v
  below : ∀ u, ∀ n ∈ s.line u, n < s.received

omit [DecidableEq ι] in
theorem inOrder_init : (init : Detours ι).InOrder where
  sorted _ := List.Pairwise.nil
  single _ _ h := absurd rfl h
  below _ _ h := absurd h not_mem_nil

omit [DecidableEq ι] in
theorem InOrder.of_sublist {s s' : Detours ι} (h : s.InOrder) (hreceived : s'.received = s.received)
    (hline : ∀ v, ∃ u, (s'.line v).Sublist (s.line u))
    (hsingle : ∀ u v, s'.away u ≠ [] → s'.away v ≠ [] → u = v) : s'.InOrder where
  sorted v := by
    obtain ⟨u, hu⟩ := hline v
    exact (h.sorted u).sublist hu
  single := hsingle
  below v n hn := by
    obtain ⟨u, hu⟩ := hline v
    rw [hreceived]
    exact h.below u n (hu.subset hn)

theorem pairwise_replicate {l r : List ℕ} (h : (l ++ n :: r).Pairwise (· ≤ ·)) (k : ℕ) :
    (l ++ replicate k n ++ r).Pairwise (· ≤ ·) := by
  rw [List.pairwise_append, List.pairwise_cons] at h
  obtain ⟨hl, ⟨hn, hr⟩, hcross⟩ := h
  rw [List.append_assoc, List.pairwise_append, List.pairwise_append]
  refine ⟨hl, ⟨List.pairwise_replicate.mpr (.inr (Nat.le_refl n)), hr, ?_⟩, ?_⟩
  · intro a ha b hb
    rw [(List.mem_replicate.mp ha).2]
    exact hn b hb
  · intro a ha b hb
    rcases List.mem_append.mp hb with hb | hb
    · rw [(List.mem_replicate.mp hb).2]
      exact hcross a ha n List.mem_cons_self
    · exact hcross a ha b (List.mem_cons_of_mem n hb)

theorem InOrder.receive (h : s.InOrder) : (s.act .receive).InOrder where
  sorted u := by
    have hline : (s.act .receive).line u = s.line u ++ [s.received] := by
      rw [line, line, act, append_assoc]
      simp only [append_assoc]
    rw [hline, pairwise_append]
    refine ⟨h.sorted u, pairwise_singleton _ _, ?_⟩
    intro a ha b hb
    rw [mem_singleton.mp hb]
    exact Nat.le_of_lt (h.below u a ha)
  single := h.single
  below u n hn := by
    have hmem : n ∈ s.line u ++ [s.received] := by
      rw [line, append_assoc]
      exact hn
    show n < s.received + 1
    rcases mem_append.mp hmem with hn | hn
    · exact Nat.lt_succ_of_lt (h.below u n hn)
    · rw [mem_singleton.mp hn]
      exact Nat.lt_succ_self _

theorem InOrder.answer (h : s.InOrder) {copies : ℕ}
    (hclear : s.Clear (.answer copies)) : (s.act (.answer copies)).InOrder := by
  cases hwaiting : s.waiting with
  | nil => simpa only [act, hwaiting] using h
  | cons n rest =>
    have hline : ∀ u, s.line u = s.answered ++ n :: rest := by
      intro u
      rw [line, hclear u, hwaiting, append_nil]
    have hact := act_answer hwaiting copies
    have hline' : ∀ u, (s.act (.answer copies)).line u =
        s.answered ++ replicate copies n ++ rest := by
      intro u
      rw [hact, line]
      simp only [hclear u, append_nil]
    refine ⟨fun u => ?_, fun u v hu => ?_, fun u m hm => ?_⟩
    · have hsorted := h.sorted u
      rw [hline] at hsorted
      rw [hline']
      exact pairwise_replicate hsorted copies
    · rw [hact] at hu
      exact absurd (hclear u) hu
    · rw [hline'] at hm
      rw [hact]
      refine h.below u m ?_
      rw [hline]
      simp only [mem_append, mem_replicate, mem_cons] at hm ⊢
      tauto

theorem InOrder.depart (h : s.InOrder) (hclear : s.Clear (.depart u)) :
    (s.act (.depart u)).InOrder := by
  cases hwaiting : s.waiting with
  | nil => simpa only [act, hwaiting] using h
  | cons n rest =>
    rw [act_depart hwaiting]
    refine h.of_sublist rfl (fun v => ⟨v, ?_⟩) ?_
    · rw [line, line, hwaiting]
      by_cases hv : v = u
      · subst hv
        simp
      · simp [hv]
    · have honly : ∀ v, update s.away u (s.away u ++ [n]) v ≠ [] → v = u := by
        intro v hv
        by_contra hne
        rw [update_of_ne hne] at hv
        exact hv (hclear v hne)
      intro v v' hv hv'
      rw [honly v hv, honly v' hv']

theorem InOrder.comeBack (h : s.InOrder) (u : ι) : (s.act (.comeBack u)).InOrder := by
  cases haway : s.away u with
  | nil => simpa only [act, haway] using h
  | cons n rest =>
    have hu : s.away u ≠ [] := by
      rw [haway]
      exact cons_ne_nil n rest
    rw [act_comeBack haway]
    refine h.of_sublist rfl (fun v => ⟨u, ?_⟩) ?_
    · rw [line, line, haway]
      by_cases hv : v = u
      · subst hv
        simp
      · -- the others are home, so the answer overtakes none
        have hhome : s.away v = [] := by
          by_contra hne
          exact hv (h.single v u hne hu)
        simp [hv, hhome]
    · have hsome : ∀ v, update s.away u rest v ≠ [] → s.away v ≠ [] := by
        intro v hv
        by_cases hvu : v = u
        · rw [hvu]
          exact hu
        · rwa [update_of_ne hvu] at hv
      intro v v' hv hv'
      exact h.single v v' (hsome v hv) (hsome v' hv')

theorem InOrder.act {a : Act ι} (hclear : s.Clear a) (h : s.InOrder) : (s.act a).InOrder := by
  cases a with
  | idle => exact h
  | receive => exact h.receive
  | answer copies => exact h.answer hclear
  | depart u => exact h.depart hclear
  | comeBack u => exact h.comeBack u

/-! ### Numbers of answers -/

theorem count_append_replicate (l : List ℕ) (k m n : ℕ) :
    (l ++ replicate k m).count n = l.count n + if m = n then k else 0 := by
  simp [count_append, count_replicate]

theorem count_concat (l : List ℕ) (m n : ℕ) :
    (l ++ [m]).count n = l.count n + if m = n then 1 else 0 :=
  count_append_replicate l 1 m n

omit [DecidableEq ι] in
theorem count_waiting {m : ℕ} {s : Detours ι} (h : s.waiting = m :: rest) (n : ℕ) :
    s.waiting.count n = rest.count n + if m = n then 1 else 0 := by
  simp [h, count_cons]

theorem count_depart (away : ι → List ℕ) (u v : ι) (m n : ℕ) :
    (update away u (away u ++ [m]) v).count n =
      (away v).count n + if v = u ∧ m = n then 1 else 0 := by
  by_cases hv : v = u
  · subst hv
    rw [update_self, count_concat]
    simp
  · simp [hv]

theorem count_comeBack {away : ι → List ℕ} {m : ℕ} (h : away u = m :: rest) (v : ι) (n : ℕ) :
    (away v).count n =
      (update away u rest v).count n + if v = u ∧ m = n then 1 else 0 := by
  by_cases hv : v = u
  · subst hv
    simp [h, count_cons]
  · simp [hv]

/-- The request is in one place at most, and is not answered while it is in one. -/
structure Placed (n : ℕ) (s : Detours ι) : Prop where
  once : ∀ u, (s.away u).count n + s.waiting.count n ≤ 1
  apart : ∀ u v, u ≠ v → (s.away u).count n + (s.away v).count n ≤ 1
  unanswered : ∀ u, 0 < (s.away u).count n + s.waiting.count n → s.answered.count n = 0
  below : ∀ u, s.received ≤ n →
    s.answered.count n + (s.away u).count n + s.waiting.count n = 0

omit [DecidableEq ι] in
theorem placed_init (n : ℕ) : (init : Detours ι).Placed n where
  once _ := Nat.zero_le 1
  apart _ _ _ := Nat.zero_le 1
  unanswered _ _ := rfl
  below _ _ := rfl

section

variable (h : s.Placed n)
include h

theorem Placed.receive : (s.act .receive).Placed n := by
  have hcount := count_concat s.waiting s.received n
  refine ⟨fun u => ?_, h.apart, fun u hu => ?_, fun u hn => ?_⟩ <;>
    simp only [Detours.act, hcount] at *
  · have honce := h.once u
    have hbelow := h.below u
    split <;> omega
  · have hunanswered := h.unanswered u
    have hbelow := h.below u
    split at hu <;> omega
  · have hbelow := h.below u
    split <;> omega

theorem Placed.answer (copies : ℕ) : (s.act (.answer copies)).Placed n := by
  cases hwaiting : s.waiting with
  | nil => simpa only [Detours.act, hwaiting] using h
  | cons m rest =>
    have hcount := count_waiting hwaiting n
    rw [act_answer hwaiting]
    refine ⟨fun u => ?_, h.apart, fun u hu => ?_, fun u hn => ?_⟩ <;>
      simp only [count_append_replicate] at *
    · have honce := h.once u
      split at hcount <;> omega
    · have honce := h.once u
      have hunanswered := h.unanswered u
      split at hcount <;> split <;> omega
    · have hbelow := h.below u hn
      split at hcount <;> split <;> omega

theorem Placed.depart (u : ι) : (s.act (.depart u)).Placed n := by
  cases hwaiting : s.waiting with
  | nil => simpa only [Detours.act, hwaiting] using h
  | cons m rest =>
    have hcount := count_waiting hwaiting n
    rw [act_depart hwaiting]
    refine ⟨fun v => ?_, fun v v' hne => ?_, fun v hv => ?_, fun v hn => ?_⟩ <;>
      simp only [count_depart] at *
    · have honce := h.once v
      split at hcount <;> split <;> omega
    · have hapart := h.apart v v' hne
      have honce := h.once v
      have honce' := h.once v'
      by_cases hv : v = u
      · -- it goes one way, not both
        have hv' : ¬ (v' = u ∧ m = n) := fun hu => hne (hv.trans hu.1.symm)
        rw [if_neg hv']
        split at hcount <;> split <;> omega
      · rw [if_neg fun hu => hv hu.1]
        split at hcount <;> split <;> omega
    · have hunanswered := h.unanswered v
      have hunanswered' := h.unanswered u
      split at hcount <;> split at hv <;> omega
    · have hbelow := h.below v hn
      split at hcount <;> split <;> omega

theorem Placed.comeBack (u : ι) : (s.act (.comeBack u)).Placed n := by
  cases haway : s.away u with
  | nil => simpa only [Detours.act, haway] using h
  | cons m rest =>
    have hcount := fun v => count_comeBack haway v n
    have hu := hcount u
    rw [if_congr (and_iff_right rfl) rfl rfl] at hu
    rw [act_comeBack haway]
    refine ⟨fun v => ?_, fun v v' hne => ?_, fun v hv => ?_, fun v hn => ?_⟩ <;> dsimp only at *
    · have honce := h.once v
      rw [hcount v] at honce
      omega
    · have hapart := h.apart v v' hne
      rw [hcount v, hcount v'] at hapart
      omega
    · have hunanswered := h.unanswered v
      have hunanswered' := h.unanswered u
      have honce := h.once u
      have hv' := hcount v
      rw [count_concat]
      by_cases hvu : v = u
      · subst hvu
        split at hu <;> split <;> omega
      · have hapart := h.apart v u hvu
        rw [if_neg fun hm => hvu hm.1] at hv'
        split at hu <;> split <;> omega
    · have hbelow := h.below v hn
      have hbelow' := h.below u hn
      have hv' := hcount v
      rw [count_concat]
      split at hu <;> split <;> omega

theorem Placed.act (a : Act ι) : (s.act a).Placed n := by
  cases a with
  | idle => exact h
  | receive => exact h.receive
  | answer copies => exact h.answer copies
  | depart u => exact h.depart u
  | comeBack u => exact h.comeBack u

end

/-- A request that is answered once at most, when its turn comes, has at most one answer. -/
theorem Placed.count_answered_le [Nonempty ι] {s : Detours ι} (h : s.Placed n) {a : Act ι}
    (ha : ∀ copies, a = .answer copies → s.waiting.head? = some n → copies ≤ 1)
    (hle : s.answered.count n ≤ 1) : (s.act a).answered.count n ≤ 1 := by
  cases a with
  | idle | receive => exact hle
  | answer copies =>
    cases hwaiting : s.waiting with
    | nil => simpa only [Detours.act, hwaiting] using hle
    | cons m rest =>
      obtain ⟨u⟩ := ‹Nonempty ι›
      have hcount := count_waiting hwaiting n
      have hunanswered := h.unanswered u
      rw [act_answer hwaiting]
      dsimp only
      rw [count_append_replicate]
      split
      · next hm =>
        have hcopies := ha copies rfl (by rw [hwaiting, hm, List.head?_cons])
        rw [if_pos hm] at hcount
        omega
      · exact hle
  | depart u =>
    cases hwaiting : s.waiting <;> simpa only [Detours.act, hwaiting] using hle
  | comeBack u =>
    cases haway : s.away u with
    | nil => simpa only [Detours.act, haway] using hle
    | cons m rest =>
      have hcount := count_comeBack haway u n
      have hunanswered := h.unanswered u
      rw [act_comeBack haway]
      dsimp only
      rw [count_concat]
      rw [if_congr (and_iff_right rfl) rfl rfl] at hcount
      split at hcount <;> split <;> omega

/-- The request has been answered `k` times, and for good. -/
structure Done (n k : ℕ) (s : Detours ι) : Prop where
  received : n < s.received
  notAway : ∀ u, (s.away u).count n = 0
  notWaiting : s.waiting.count n = 0
  answered : s.answered.count n = k

theorem Placed.done_answer [Nonempty ι] {s : Detours ι} (h : s.Placed n)
    (hwaiting : s.waiting = n :: rest) (copies : ℕ) : (s.act (.answer copies)).Done n copies := by
  obtain ⟨u⟩ := ‹Nonempty ι›
  have hcount := count_waiting hwaiting n
  rw [if_pos rfl] at hcount
  rw [act_answer hwaiting]
  refine ⟨?_, fun v => ?_, ?_, ?_⟩ <;> dsimp only
  · have hbelow := h.below u
    omega
  · have honce := h.once v
    omega
  · have honce := h.once u
    omega
  · have hunanswered := h.unanswered u
    rw [count_append_replicate, if_pos rfl]
    omega

theorem Done.act {k : ℕ} {s : Detours ι} (h : s.Done n k) (a : Act ι) : (s.act a).Done n k := by
  cases a with
  | idle => exact h
  | receive =>
    have hne : s.received ≠ n := Nat.ne_of_gt h.received
    refine ⟨Nat.lt_succ_of_lt h.received, h.notAway, ?_, h.answered⟩
    show (s.waiting ++ [s.received]).count n = 0
    rw [count_concat, if_neg hne]
    exact h.notWaiting
  | answer copies =>
    cases hwaiting : s.waiting with
    | nil => simpa only [Detours.act, hwaiting] using h
    | cons m rest =>
      have hcount := count_waiting hwaiting n
      rw [h.notWaiting] at hcount
      rw [act_answer hwaiting]
      refine ⟨h.received, h.notAway, ?_, ?_⟩ <;> dsimp only
      · omega
      · rw [count_append_replicate, ← h.answered]
        split at hcount <;> split <;> omega
  | depart u =>
    cases hwaiting : s.waiting with
    | nil => simpa only [Detours.act, hwaiting] using h
    | cons m rest =>
      have hcount := count_waiting hwaiting n
      rw [h.notWaiting] at hcount
      rw [act_depart hwaiting]
      refine ⟨h.received, fun v => ?_, ?_, h.answered⟩ <;> dsimp only
      · rw [count_depart, h.notAway]
        split at hcount <;> split <;> omega
      · omega
  | comeBack u =>
    cases haway : s.away u with
    | nil => simpa only [Detours.act, haway] using h
    | cons m rest =>
      have hcount := fun v => count_comeBack haway v n
      have hu := hcount u
      rw [h.notAway, if_congr (and_iff_right rfl) rfl rfl] at hu
      rw [act_comeBack haway]
      refine ⟨h.received, fun v => ?_, h.notWaiting, ?_⟩ <;> dsimp only
      · have hv := hcount v
        rw [h.notAway] at hv
        omega
      · rw [count_concat, ← h.answered]
        split at hu <;> split <;> omega

end Detours
