/-
Runs of a system that takes one labelled step after another.

`Along` says that every step of a run meets a condition on the state before it and the
label.

* `after_invariant` — what such steps preserve, the run preserves;
* `along_iff` — two conditions that agree under an invariant, agree along a run;
* `results_invariant` — what holds of the state and of all results so far;
* `results_simulates` — a system whose steps are simulated step by step has the same results.
-/
import Mathlib.Data.List.Basic

open List

namespace Runs

variable {σ α : Type} (step : σ → α → σ)

def after (s : σ) (labels : List α) : σ := labels.foldl step s

/-- Every step of the run from `s` meets the condition. -/
def Along (p : σ → α → Prop) : σ → List α → Prop
  | _, [] => True
  | s, label :: labels => p s label ∧ Along p (step s label) labels

instance decidableAlong (p : σ → α → Prop) [∀ s label, Decidable (p s label)] :
    ∀ s labels, Decidable (Along step p s labels)
  | _, [] => isTrue trivial
  | s, label :: labels =>
    haveI := decidableAlong p (step s label) labels
    inferInstanceAs (Decidable (p s label ∧ Along step p (step s label) labels))

variable {step} {p : σ → α → Prop} {s : σ}

variable {labels : List α} {β : Type} {q : σ → α → Prop} {later : List α}

theorem after_invariant (inv : σ → Prop) (hstep : ∀ s label, p s label → inv s → inv (step s label)) :
    ∀ {s}, Along step p s labels → inv s → inv (after step s labels) := by
  induction labels with
  | nil =>
    intro s _ hs
    exact hs
  | cons label labels ih =>
    intro s hlabels hs
    exact ih hlabels.2 (hstep s label hlabels.1 hs)

/-- An invariant that also speaks of what the labels have put out so far. -/
theorem after_invariant_history (out : α → List β) (inv : σ → List β → Prop)
    (hstep : ∀ s history label, p s label → inv s history →
      inv (step s label) (history ++ out label)) :
    ∀ {s history}, Along step p s labels → inv s history →
      inv (after step s labels) (history ++ labels.flatMap out) := by
  induction labels with
  | nil =>
    intro s history _ hs
    rw [flatMap_nil, append_nil]
    exact hs
  | cons label labels ih =>
    intro s history hlabels hs
    rw [flatMap_cons, ← append_assoc]
    exact ih hlabels.2 (hstep s history label hlabels.1 hs)

theorem along_iff (inv : σ → Prop) (hiff : ∀ s label, inv s → (p s label ↔ q s label))
    (hstep : ∀ s label, inv s → p s label → inv (step s label)) :
    ∀ {s}, inv s → (Along step p s labels ↔ Along step q s labels) := by
  induction labels with
  | nil =>
    intro s _
    exact Iff.rfl
  | cons label labels ih =>
    intro s hs
    rw [Along, Along, ← hiff s label hs]
    exact and_congr_right fun hp => ih (hstep s label hs hp)

theorem Along.of_invariant (inv : σ → Prop) (hinv : ∀ s label, p s label → inv s → q s label)
    (hstep : ∀ s label, p s label → inv s → inv (step s label)) :
    ∀ {s}, Along step p s labels → inv s → Along step q s labels := by
  induction labels with
  | nil =>
    intro s _ _
    trivial
  | cons label labels ih =>
    intro s hlabels hs
    exact ⟨hinv s label hlabels.1 hs, ih hlabels.2 (hstep s label hlabels.1 hs)⟩

theorem after_append (labels : List α) (label : α) (later : List α) :
    after step s (labels ++ label :: later) = after step (step (after step s labels) label) later :=
  foldl_append

theorem along_of_forall {q : α → Prop} (h : ∀ label ∈ labels, q label) :
    Along step (fun _ => q) s labels := by
  induction labels generalizing s with
  | nil => trivial
  | cons label labels ih =>
    exact ⟨h label mem_cons_self, ih fun label' hmem => h label' (mem_cons_of_mem _ hmem)⟩

theorem Along.and (hp : Along step p s labels) (hq : Along step q s labels) :
    Along step (fun s label => p s label ∧ q s label) s labels := by
  induction labels generalizing s with
  | nil => trivial
  | cons label labels ih => exact ⟨⟨hp.1, hq.1⟩, ih hp.2 hq.2⟩

theorem Along.and_forall {q : α → Prop} (hp : Along step p s labels)
    (hq : ∀ label ∈ labels, q label) :
    Along step (fun s label => p s label ∧ q label) s labels := by
  induction labels generalizing s with
  | nil => trivial
  | cons label labels ih =>
    exact ⟨⟨hp.1, hq label mem_cons_self⟩,
      ih hp.2 fun label' hmem => hq label' (mem_cons_of_mem _ hmem)⟩

theorem Along.left (h : Along step p s (labels ++ later)) : Along step p s labels := by
  induction labels generalizing s with
  | nil => trivial
  | cons label labels ih => exact ⟨h.1, ih h.2⟩

theorem Along.at {label : α} (h : Along step p s (labels ++ label :: later)) :
    p (after step s labels) label := by
  induction labels generalizing s with
  | nil => exact h.1
  | cons label' labels ih => exact ih h.2

theorem Along.right (h : Along step p s (labels ++ later)) :
    Along step p (after step s labels) later := by
  induction labels generalizing s with
  | nil => exact h
  | cons label labels ih => exact ih h.2

theorem exists_of_not_along (h : ¬ Along step p s labels) :
    ∃ earlier label later, labels = earlier ++ label :: later ∧
      ¬ p (after step s earlier) label := by
  induction labels generalizing s with
  | nil => exact absurd trivial h
  | cons label labels ih =>
    by_cases hlabel : p s label
    · obtain ⟨earlier, label', later, rfl, hlabel'⟩ := ih fun hlabels => h ⟨hlabel, hlabels⟩
      exact ⟨label :: earlier, label', later, rfl, hlabel'⟩
    · exact ⟨[], label, labels, rfl, hlabel⟩

theorem along_true (s : σ) (labels : List α) : Along step (fun _ _ => True) s labels := by
  induction labels generalizing s with
  | nil => trivial
  | cons label labels ih => exact ⟨trivial, ih _⟩

/-- The results of the steps, and the state after them. -/
def results {β : Type} (act : σ → α → β × σ) : σ → List α → List β × σ
  | s, [] => ([], s)
  | s, label :: labels =>
    let (r, s') := act s label
    let (rs, s'') := results act s' labels
    (r :: rs, s'')

theorem results_invariant {act : σ → α → List β × σ} (inv : σ → List β → Prop)
    (hstep : ∀ s history label, p s label → inv s history →
      inv (act s label).2 (history ++ (act s label).1)) :
    ∀ {s history}, Along (fun s label => (act s label).2) p s labels → inv s history →
      inv (results act s labels).2 (history ++ (results act s labels).1.flatten) := by
  induction labels with
  | nil =>
    intro s history _ hs
    rw [results, flatten_nil, append_nil]
    exact hs
  | cons label labels ih =>
    intro s history hlabels hs
    rw [results]
    dsimp only
    rw [flatten_cons, ← append_assoc]
    exact ih hlabels.2 (hstep s history label hlabels.1 hs)

theorem results_simulates {τ : Type} {act : σ → α → β × σ} {act' : τ → α → β × τ} (view : σ → τ)
    {q : α → Prop} (hact : ∀ s label, q label →
      (act s label).map id view = act' (view s) label) (h : ∀ label ∈ labels, q label) :
    (results act s labels).map id view = results act' (view s) labels := by
  induction labels generalizing s with
  | nil => rfl
  | cons label labels ih =>
    have hstep := hact s label (h label mem_cons_self)
    have hrest := ih (s := (act s label).2) fun label' hmem =>
      h label' (mem_cons_of_mem _ hmem)
    show (_, view (results act (act s label).2 labels).2) = _
    rw [results, ← hstep]
    show _ = ((act s label).1 :: (results act' (view (act s label).2) labels).1, _)
    rw [← hrest]
    rfl

end Runs
