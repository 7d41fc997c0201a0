/-
A vector search in a thread of its own: `VectorSearchJob`.

The thread looks at the status of its job before and after the search and stores one at the end;
`VSEARCHCANCEL` exchanges it at any time.  Both notify those who wait for the job.

* `monotone_of_timely` — the status changes once if every cancellation comes before the thread
  looks for the last time, and no search fails after one;
* `notified_le_one_iff` — the job is completed once if and only if no cancellation was in time.
-/
import AstraDB.Runs

open Runs

inductive VectorSearchJobStatus
  | kPending
  | kDone
  | kCanceled
  | kError
  deriving DecidableEq

/-- What the thread does next. -/
inductive VectorSearchPlace
  | firstLook
  | search
  | secondLook
  | store (failed : Bool)
  | notify
  | finished
  deriving DecidableEq

structure VectorSearchJob where
  status : VectorSearchJobStatus := .kPending
  place : VectorSearchPlace := .firstLook
  /-- a cancellation is about to notify -/
  cancelling : Bool := false
  /-- the calls of `completed.Notify` -/
  notified : ℕ := 0
  /-- the cancellations that returned 1, or will -/
  canceled : ℕ := 0
  deriving DecidableEq

namespace VectorSearchJob

inductive Label
  /-- the thread of the job, whose search may fail -/
  | thread (fails : Bool)
  | cancel
  /-- the second half of a cancellation -/
  | cancelNotify
  | look

variable (job : VectorSearchJob)

/-- `LaunchVectorSearchAsyncJob`, one access to the job after the other. -/
def thread (fails : Bool) : VectorSearchJob :=
  match job.place with
  | .firstLook =>
    { job with place := if job.status = .kCanceled then .notify else .search }
  | .search => { job with place := if fails then .store true else .secondLook }
  | .secondLook =>
    { job with place := if job.status = .kCanceled then .notify else .store false }
  | .store failed => { job with status := if failed then .kError else .kDone, place := .notify }
  | .notify => { job with notified := job.notified + 1, place := .finished }
  | .finished => job

/-- What `HandleVSearchCancel` returns, after it has exchanged the status. -/
def cancelReply : ℕ :=
  match job.status with
  | .kDone | .kError | .kCanceled => 0
  | .kPending => 1

def cancel : VectorSearchJob :=
  { job with
    status := .kCanceled
    cancelling := job.cancelling || job.cancelReply = 1
    canceled := job.canceled + job.cancelReply }

def step : Label → VectorSearchJob
  | .thread fails => job.thread fails
  | .cancel => job.cancel
  | .cancelNotify =>
    if job.cancelling then { job with cancelling := false, notified := job.notified + 1 } else job
  | .look => job

/-- Only a pending job changes its status, and a cancellation returns 1 if and only if it is what
changes it. -/
def Monotone (label : Label) : Prop :=
  ((job.step label).status ≠ job.status → job.status = .kPending) ∧
    (job.cancelReply = 1 ↔ job.status = .kPending ∧ job.cancel.status ≠ .kPending)

/-- A cancellation comes before the thread looks for the last time, or after another one that
did; and no search fails after a cancellation. -/
def Timely : Label → Prop
  | .cancel => job.place ∈ [.firstLook, .search, .secondLook] ∨ job.status = .kCanceled
  | .thread fails => fails = true → job.place = .search → job.status ≠ .kCanceled
  | .cancelNotify | .look => True

/-- Before the thread looks for the last time, the job is pending or canceled; then pending. -/
def Open : Prop :=
  match job.place with
  | .firstLook | .search | .secondLook => job.status = .kPending ∨ job.status = .kCanceled
  | .store _ => job.status = .kPending
  | .notify | .finished => True

variable {job}

theorem cancelReply_eq_one_iff : job.cancelReply = 1 ↔ job.status = .kPending := by
  rw [cancelReply]
  cases job.status <;> decide

theorem open_step {label : Label} (htimely : job.Timely label) (h : job.Open) :
    (job.step label).Open := by
  obtain ⟨status, place, cancelling, notified, canceled⟩ := job
  cases label with
  | thread fails =>
    cases place with
    | firstLook | secondLook => rcases h with rfl | rfl <;> simp [step, thread, Open]
    | search =>
      cases fails with
      | false => exact h
      | true => exact h.resolve_right (htimely rfl rfl)
    | store | notify | finished => trivial
  | cancel =>
    cases place with
    | firstLook | search | secondLook => exact .inr rfl
    | store =>
      have hcanceled := htimely.resolve_left (by simp)
      exact absurd (h.symm.trans hcanceled) nofun
    | notify | finished => trivial
  | cancelNotify =>
    rw [step]
    split <;> exact h
  | look => exact h

theorem monotone_of_open {label : Label} (htimely : job.Timely label) (h : job.Open) :
    job.Monotone label := by
  refine ⟨fun hchanged => ?_, by rw [cancelReply_eq_one_iff, cancel]; simp⟩
  obtain ⟨status, place, cancelling, notified, canceled⟩ := job
  cases label with
  | thread fails =>
    cases place with
    | store => exact h
    | firstLook | search | secondLook | notify | finished => exact absurd rfl hchanged
  | cancel =>
    rcases htimely with hplace | hcanceled
    · simp only [List.mem_cons, List.not_mem_nil, or_false] at hplace
      rcases hplace with rfl | rfl | rfl <;> exact h.resolve_right (Ne.symm hchanged)
    · exact absurd hcanceled.symm hchanged
  | cancelNotify =>
    rw [step] at hchanged
    split at hchanged <;> exact absurd rfl hchanged
  | look => exact absurd rfl hchanged

theorem monotone_of_timely {labels : List Label} (h : Along step Timely {} labels) :
    Along step Monotone {} labels :=
  h.of_invariant Open (fun _ _ => monotone_of_open) (fun _ _ => open_step) (.inl rfl)

theorem monotone_of_timely_canceled :
    Along step Monotone {} [.thread false, .cancel, .cancelNotify, .thread false, .thread false] :=
  monotone_of_timely ⟨nofun, .inl (by decide), trivial, nofun, nofun, trivial⟩

/-- A job that is done is canceled; and one that is canceled is done, or failed. -/
theorem status_changes_twice : (after step {} (.replicate 4 (.thread false))).status = .kDone ∧
    (after step {} (.replicate 4 (.thread false) ++ [.cancel])).status = .kCanceled ∧
    (after step {} (.replicate 3 (.thread false) ++ [.cancel])).status = .kCanceled ∧
    (after step {} (.replicate 3 (.thread false) ++ [.cancel, .thread false])).status = .kDone ∧
    (after step {} [.thread false, .cancel]).status = .kCanceled ∧
    (after step {} [.thread false, .cancel, .thread true, .thread false]).status = .kError := by
  decide

/-- The thread notifies once, and so does every cancellation that returns 1. -/
structure Counted (job : VectorSearchJob) : Prop where
  total : job.notified + job.cancelling.toNat + (if job.place = .finished then 0 else 1) =
    1 + job.canceled
  exchanged : job.cancelling = true → job.status ≠ .kPending

theorem Counted.step (h : job.Counted) (label : Label) : (job.step label).Counted := by
  obtain ⟨status, place, cancelling, notified, canceled⟩ := job
  obtain ⟨htotal, hexchanged⟩ := h
  cases label with
  | thread fails =>
    cases place with
    | firstLook | secondLook =>
      refine ⟨Eq.trans ?_ htotal, hexchanged⟩
      by_cases hstatus : status = .kCanceled <;> simp [VectorSearchJob.step, thread, hstatus]
    | search =>
      refine ⟨Eq.trans ?_ htotal, hexchanged⟩
      cases fails <;> rfl
    | store failed => exact ⟨htotal, fun _ => by cases failed <;> exact nofun⟩
    | notify =>
      refine ⟨Eq.trans ?_ htotal, hexchanged⟩
      exact Nat.add_right_comm notified 1 cancelling.toNat
    | finished => exact ⟨htotal, hexchanged⟩
  | cancel =>
    refine ⟨?_, nofun⟩
    cases status with
    | kPending =>
      obtain rfl : cancelling = false := eq_false_of_ne_true fun hc => hexchanged hc rfl
      exact (Nat.add_right_comm ..).trans (congrArg (· + 1) htotal)
    | kDone | kCanceled | kError =>
      rw [VectorSearchJob.step, VectorSearchJob.cancel]
      simpa [cancelReply] using htotal
  | cancelNotify =>
    rw [VectorSearchJob.step]
    split
    · next hcancelling =>
      subst hcancelling
      exact ⟨htotal, nofun⟩
    · exact ⟨htotal, hexchanged⟩
  | look => exact ⟨htotal, hexchanged⟩

/-- When the thread and all cancellations are through, the job was completed at most once if and
only if no cancellation returned 1. -/
theorem notified_le_one_iff {labels : List Label}
    (hthread : (after step {} labels).place = .finished)
    (hcancel : (after step {} labels).cancelling = false) :
    (after step {} labels).notified ≤ 1 ↔ (after step {} labels).canceled = 0 := by
  have h : (after step {} labels).Counted :=
    after_invariant Counted (fun _ label _ h => h.step label) (along_true _ labels) ⟨rfl, nofun⟩
  have htotal := h.total
  rw [hthread, hcancel, if_pos rfl] at htotal
  simp only [Bool.toNat_false] at htotal
  omega

theorem notified_le_one_iff_late :
    (after step {} (.replicate 4 (.thread false) ++ [.cancel, .thread false])).notified ≤ 1 ↔
      (after step {} (.replicate 4 (.thread false) ++ [.cancel, .thread false])).canceled = 0 :=
  notified_le_one_iff rfl rfl

/-- The cancellation notifies, and the thread that finds the job canceled does so again. -/
theorem notified_twice :
    (after step {} [.cancel, .cancelNotify, .thread false, .thread false]).notified = 2 := by
  decide

end VectorSearchJob
