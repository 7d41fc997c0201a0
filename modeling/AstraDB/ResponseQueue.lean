/-
The response queue of a worker: `NotifyResponseQueue`, `ProcessResponseQueue` and the writes to
the sockets.

The executor notifies the IO thread at the end of its loop, if it has replied to a command.
The IO thread takes what is in the queue and starts one write for each connection, whether or
not an earlier one is finished.

* `not_stranded_of_noticed` — no reply stays in the queue as long as messages of other workers
  and protocol errors are put into it only while a notification is due;
* `along_single_iff` — when every connection has at most one write in progress.
-/
import AstraDB.CRLF
import AstraDB.Runs

open Runs

namespace ResponseQueue

inductive Executor
  /-- in the body of its loop -/
  | working (hasResponses hasWork : Bool)
  /-- in `NotifyResponseQueue` -/
  | notifying
  | waiting
  deriving DecidableEq

inductive IoThread
  | free
  /-- in the handler that was posted, after `ProcessResponseQueue` -/
  | processed
  /-- after the handler has reset `response_queue_scheduled_` -/
  | reset
  /-- in `NotifyResponseQueue` -/
  | notifying
  deriving DecidableEq

structure State where
  queue : List (UInt64 × Bytes) := []
  scheduled : Bool := false
  /-- how many handlers are posted -/
  posted : ℕ := 0
  executor : Executor := .waiting
  io : IoThread := .free
  connections : UInt64 → Bool := fun _ => false
  /-- what is left to write, for each `async_write` in progress -/
  writes : UInt64 → List Bytes := fun _ => []

inductive Label
  /-- the executor replies to a command, or passes on the reply of another worker -/
  | reply (connId : UInt64) (response : Bytes)
  /-- the executor passes on a message that another worker has published -/
  | message (connId : UInt64) (response : Bytes)
  /-- the executor comes to the end of its loop, of `NotifyResponseQueue`, or of its wait -/
  | executor
  /-- the IO thread answers bytes that are no command -/
  | reject (connId : UInt64) (response : Bytes)
  /-- the IO thread starts a handler that was posted, or goes on with it -/
  | io
  | connect (connId : UInt64)
  | disconnect (connId : UInt64)
  /-- the `i`-th write of a connection gets on by `n` bytes, or ends -/
  | transfer (connId : UInt64) (i n : ℕ)

variable (s : State)

def enqueue (connId : UInt64) (response : Bytes) : State :=
  { s with queue := s.queue ++ [(connId, response)] }

/-- What the compare-and-swap protects is posted in the same step: until a handler runs, nobody
sees whether it is posted. -/
def notifyResponseQueue : State :=
  if s.scheduled then s else { s with scheduled := true, posted := s.posted + 1 }

/-- What `ProcessResponseQueue` sends to a connection. -/
def batch (connId : UInt64) : List Bytes :=
  let responses := ((s.queue.take 8192).filter (·.1 = connId)).map (·.2)
  if s.connections connId ∧ responses ≠ [] then [responses.flatten] else []

def processResponseQueue : State :=
  { s with
    queue := s.queue.drop 8192
    writes := fun connId => s.writes connId ++ batch s connId }

def executorStep : State :=
  match s.executor with
  | .working true _ => { s with executor := .notifying }
  | .working false true => { s with executor := .working false false }
  | .working false false => { s with executor := .waiting }
  | .notifying => { notifyResponseQueue s with executor := .working false false }
  | .waiting => { s with executor := .working false false }

def ioStep : State :=
  match s.io with
  | .free =>
    if s.posted = 0 then s
    else { processResponseQueue s with posted := s.posted - 1, io := .processed }
  | .processed => { s with scheduled := false, io := .reset }
  | .reset => { s with io := if s.queue = [] then .free else .notifying }
  | .notifying => { notifyResponseQueue s with io := .free }

/-- A write that has nothing left ends. -/
def transfer (writes : List Bytes) (i n : ℕ) : List Bytes :=
  let left := (writes.getD i []).drop n
  if left = [] then writes.eraseIdx i else writes.set i left

def step : Label → State
  | .reply connId response =>
    match s.executor with
    | .working _ _ => { enqueue s connId response with executor := .working true true }
    | _ => s
  | .message connId response =>
    match s.executor with
    | .working hasResponses _ =>
      { enqueue s connId response with executor := .working hasResponses true }
    | _ => s
  | .executor => executorStep s
  | .reject connId response => if s.io = .free then enqueue s connId response else s
  | .io => ioStep s
  | .connect connId => { s with connections := Function.update s.connections connId true }
  | .disconnect connId => { s with connections := Function.update s.connections connId false }
  | .transfer connId i n =>
    { s with writes := Function.update s.writes connId (transfer (s.writes connId) i n) }

/-- The executor has a response to notify of. -/
def Executor.willNotify : Executor → Bool
  | .working hasResponses _ => hasResponses
  | .notifying => true
  | .waiting => false

/-- A notification is due: the handler is scheduled, or one of the threads is about to look for
responses and call `NotifyResponseQueue`. -/
def due : Bool :=
  s.scheduled || s.executor.willNotify || s.io = .reset || s.io = .notifying

/-- The executor waits, no notification is due, and there are responses. -/
def Stranded : Prop := s.executor = .waiting ∧ due s = false ∧ s.queue ≠ []

/-- What is put into the queue without a call of `NotifyResponseQueue` is put there while one is
due. -/
def noticed : Label → Bool
  | .message _ _ | .reject _ _ => due s
  | _ => true

variable {s}

theorem exists_executorStep_eq (s : State) : ∃ executor scheduled posted,
    executorStep s = { s with executor, scheduled, posted } := by
  rw [executorStep]
  split
  case h_4 =>
    rw [notifyResponseQueue]
    split <;> exact ⟨_, _, _, rfl⟩
  all_goals exact ⟨_, _, _, rfl⟩

theorem due_notifyResponseQueue (executor : Executor) (io : IoThread) :
    due { notifyResponseQueue s with executor, io } = true := by
  rw [notifyResponseQueue]
  split <;> simp [due, *]

theorem due_executorStep (h : due s = true) : due (executorStep s) = true := by
  rw [executorStep]
  split
  · simp [due, Executor.willNotify]
  · next hexecutor => simpa [due, hexecutor, Executor.willNotify] using h
  · next hexecutor => simpa [due, hexecutor, Executor.willNotify] using h
  · exact due_notifyResponseQueue _ _
  · next hexecutor => simpa [due, hexecutor, Executor.willNotify] using h

theorem due_ioStep (h : s.queue ≠ [] → due s = true) (hqueue : (ioStep s).queue ≠ []) :
    due (ioStep s) = true := by
  cases hio : s.io with
  | free =>
    rw [ioStep, hio] at hqueue ⊢
    dsimp only at hqueue ⊢
    split at hqueue
    · next hposted => rw [if_pos hposted]; exact h hqueue
    · next hposted =>
      have hdue := h fun hnil => hqueue ((congrArg (List.drop 8192) hnil).trans List.drop_nil)
      rw [if_neg hposted]
      simpa [due, processResponseQueue, hio] using hdue
  | processed => simp [ioStep, hio, due]
  | reset =>
    rw [ioStep, hio] at hqueue ⊢
    have hs : s.queue ≠ [] := hqueue
    simp [due, hs]
  | notifying =>
    rw [ioStep, hio]
    exact due_notifyResponseQueue _ _

theorem due_step (h : s.queue ≠ [] → due s = true) {label : Label} (hlabel : noticed s label = true)
    (hqueue : (step s label).queue ≠ []) : due (step s label) = true := by
  cases label with
  | reply connId response =>
    rw [step] at hqueue ⊢
    split at hqueue
    · simp [due, Executor.willNotify]
    · exact h hqueue
  | message connId response =>
    have hdue : due s = true := hlabel
    rw [step]
    split
    · next hexecutor => simpa [due, enqueue, hexecutor, Executor.willNotify] using hdue
    · exact hdue
  | executor =>
    obtain ⟨_, _, _, hs⟩ := exists_executorStep_eq s
    rw [step, hs] at hqueue
    exact due_executorStep (h hqueue)
  | reject connId response =>
    have hdue : due s = true := hlabel
    rw [step]
    split <;> exact hdue
  | io => exact due_ioStep h hqueue
  | connect | disconnect | transfer => exact h hqueue

/-- No response stays in the queue. -/
theorem not_stranded_of_noticed {labels : List Label}
    (h : Along step (fun s label => noticed s label = true) {} labels) :
    ¬ Stranded (after step {} labels) := by
  rintro ⟨-, hdue, hqueue⟩
  have hinv : (after step {} labels).queue ≠ [] → due (after step {} labels) = true :=
    after_invariant (fun s => s.queue ≠ [] → due s = true)
      (fun _ _ hlabel h => due_step h hlabel) h (absurd rfl)
  exact Bool.false_ne_true (hdue.symm.trans (hinv hqueue))

/-- A reply to a command is written. -/
theorem not_stranded_of_noticed_reply :
    ¬ Stranded (after step {} [.executor, .reply 1 (ascii "+OK"), .executor, .executor, .io]) :=
  not_stranded_of_noticed (by decide)

/-- A protocol error, and a message of another worker. -/
theorem stranded_reject_message :
    Stranded (after step {} [.reject 1 (ascii "ERR invalid RESP protocol")]) ∧
      Stranded (after step {} [.executor, .message 1 (ascii "m"), .executor, .executor]) := by
  exact ⟨⟨rfl, rfl, List.cons_ne_nil _ _⟩, ⟨rfl, rfl, List.cons_ne_nil _ _⟩⟩

/-- Every connection has at most one write in progress. -/
def Single (s : State) : Prop := ∀ connId, (s.writes connId).length ≤ 1

/-- `ProcessResponseQueue` has responses for a connection to which an earlier write is not
finished. -/
def Overlapping (s : State) (label : Label) : Prop :=
  label = .io ∧ s.io = .free ∧ s.posted ≠ 0 ∧
    ∃ connId, s.writes connId ≠ [] ∧ batch s connId ≠ []

theorem length_batch_le (s : State) (connId : UInt64) : (batch s connId).length ≤ 1 := by
  rw [batch]
  split
  · exact le_rfl
  · exact Nat.zero_le 1

theorem length_transfer_le (writes : List Bytes) (i n : ℕ) :
    (transfer writes i n).length ≤ writes.length := by
  rw [transfer]
  split
  · exact List.length_eraseIdx_le writes i
  · exact (List.length_set ..).le

theorem single_processResponseQueue_iff (h : Single s) :
    Single (processResponseQueue s) ↔ ¬ ∃ connId, s.writes connId ≠ [] ∧ batch s connId ≠ [] := by
  rw [not_exists]
  refine forall_congr' fun connId => ?_
  have hwrites := h connId
  have hbatch := length_batch_le s connId
  rw [processResponseQueue, List.length_append, ← List.length_pos_iff, ← List.length_pos_iff]
  omega

theorem single_ioStep_iff (h : Single s) : Single (ioStep s) ↔ ¬ Overlapping s .io := by
  cases hio : s.io with
  | free =>
    rw [ioStep, hio]
    dsimp only
    split
    · next hposted => exact iff_of_true h fun hlabel => hlabel.2.2.1 hposted
    · next hposted =>
      refine (single_processResponseQueue_iff h).trans (not_congr ?_)
      exact ⟨fun hconn => ⟨rfl, hio, hposted, hconn⟩, fun hlabel => hlabel.2.2.2⟩
  | processed | reset =>
    rw [ioStep, hio]
    exact iff_of_true h fun hlabel => nomatch hio.symm.trans hlabel.2.1
  | notifying =>
    have hwrites : (notifyResponseQueue s).writes = s.writes := by
      rw [notifyResponseQueue]
      split <;> rfl
    rw [ioStep, hio]
    refine iff_of_true (fun connId => ?_) fun hlabel => nomatch hio.symm.trans hlabel.2.1
    exact (congrArg (fun writes => (writes connId).length) hwrites).trans_le (h connId)

theorem single_step_iff (h : Single s) (label : Label) :
    Single (step s label) ↔ ¬ Overlapping s label := by
  cases label with
  | io => exact single_ioStep_iff h
  | executor =>
    obtain ⟨_, _, _, hs⟩ := exists_executorStep_eq s
    rw [step, hs]
    exact iff_of_true h fun hlabel => nomatch hlabel.1
  | transfer connId i n =>
    refine iff_of_true (fun other => ?_) fun hlabel => nomatch hlabel.1
    rw [step]
    dsimp only
    rw [Function.update_apply]
    split
    · exact (length_transfer_le ..).trans (h connId)
    · exact h other
  | connect | disconnect => exact iff_of_true h fun hlabel => nomatch hlabel.1
  | reply | message | reject =>
    refine iff_of_true ?_ fun hlabel => nomatch hlabel.1
    rw [step]
    split <;> exact h

/-- Every connection has at most one write in progress, in every state of a run, exactly when
`ProcessResponseQueue` never has responses for a connection with a write in progress. -/
theorem along_single_iff (labels : List Label) :
    Along step (fun s label => Single (step s label)) {} labels ↔
      Along step (fun s label => ¬ Overlapping s label) {} labels :=
  along_iff Single (fun _ label h => single_step_iff h label) (fun _ _ _ h => h)
    fun _ => Nat.zero_le 1

/-- The second run of `ProcessResponseQueue` starts a write while the first one goes on. -/
theorem not_single_replies :
    ¬ Single (after step {} [.connect 1, .executor, .reply 1 (ascii "+OK"), .executor, .executor,
      .io, .transfer 1 0 1, .io, .io, .reply 1 (ascii "+OK"), .executor, .executor, .io]) :=
  fun h => absurd (h 1) (by decide)

end ResponseQueue
