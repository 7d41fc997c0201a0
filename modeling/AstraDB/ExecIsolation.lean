/-
Who uses a worker's Database while the worker executes an `EXEC`.

An executor thread runs the commands and tasks of its queue one after the other.  A command
may add tasks to the queues of other workers and wait for them, and some handlers run tasks of
their own queue meanwhile.  A frame of a thread's stack is such a command or task, with the
actions that it has still to take.

* `isolated_of_along` — while an `EXEC` is executed, from its version check on, only its own
  connection uses the Database, if no command reads other workers' Databases from its own
  thread and no queued command waits for other workers with the queue running;
* `not_isolated_mGet` — an `MGET` in the transaction, that waits for another worker, lets the
  `MSET` of another connection in.
-/
import AstraDB.HashSlot
import AstraDB.Runs

open List Function

namespace CrossWorker

open Runs

/-! ### Handlers -/

/-- A connection, at the worker that it belongs to. -/
structure Origin where
  worker : ℕ
  connId : UInt64
deriving DecidableEq

/-- Where a vector search looks: `VectorSearchMode`, and the index. -/
inductive Search
  | kLocal (index : Bytes)
  | kGlobal

/-- What the code of a handler does, as far as Databases and queues are concerned. -/
inductive Action
  /-- reads or writes the Database of a worker -/
  | access (u : ℕ)
  /-- `IsWatchedKeyModified` at the start of an `EXEC` -/
  | versionCheck (u : ℕ)
  /-- adds a task to the queue of a worker, which uses that worker's Database so many times -/
  | addTask (u accesses : ℕ)
  /-- waits for the tasks added, with or without running tasks of the own queue meanwhile -/
  | wait (pump : Bool)
  /-- `LaunchVectorSearchAsyncJob` -/
  | launch (search : Search)

/-- The handlers, by the Databases that they use. -/
inductive Handler
  /-- any handler that uses the Database of its context only -/
  | own (accesses : ℕ)
  | mGet (keys : List Bytes)
  | mSet (keys : List Bytes)
  /-- `KEYS` and `DBSIZE` -/
  | allKeys
  /-- `RANDOMKEY`, `SINTER`, `ZUNION` and so on, with the accesses on each worker -/
  | gather (accesses : ℕ)
  | bitOp (destkey : Bytes) (sources : ℕ)
  /-- `VCREATE`, `VDROP` and `VINFO` -/
  | vBroadcast
  /-- `VSET`, `VGET` and `VDEL`, with the accesses before the key is routed -/
  | vOnKey (accesses : ℕ) (key : Bytes)
  | vSearch (search : Search)
  | vSearchAsync (search : Search)
  /-- `VSEARCHGET`, `VSEARCHWAIT` and `VSEARCHCANCEL` of a job of a worker -/
  | vSearchJob (owner : ℕ)

/-- `CalculateWithTag(key) % all_workers.size()`. -/
def workerOf (n : ℕ) (key : Bytes) : ℕ := HashSlotCalculator.calculateWithTag key % n

/-- So many accesses to a worker's Database: direct ones, or by a task. -/
def visit (self u accesses : ℕ) : List Action :=
  if accesses = 0 then []
  else if u = self then replicate accesses (.access u)
  else [.addTask u accesses]

/-- The other workers in turn. -/
def broadcast (n self accesses : ℕ) : List Action :=
  ((range n).filter fun u => u ≠ self).map fun u => .addTask u accesses

/-- All workers in turn. -/
def gatherFrom (n self : ℕ) (accesses : ℕ → ℕ) : List Action :=
  (range n).flatMap fun u => visit self u (accesses u)

def Action.isAddTask : Action → Bool
  | .addTask _ _ => true
  | _ => false

/-- The wait behind the tasks, if there are any. -/
def await (pump : Bool) (actions : List Action) : List Action :=
  if actions.any Action.isAddTask then actions ++ [.wait pump] else actions

/-- The accesses for an argument list, its keys grouped by worker. -/
def spread (n self : ℕ) (keys : List Bytes) : List Action :=
  await true (gatherFrom n self fun u => (keys.filter fun key => workerOf n key = u).length)

/-- One access on a worker, which is waited for. -/
def onWorker (self u : ℕ) : List Action :=
  if u = self then [.access self] else [.addTask u 1, .wait true]

/-- `ExecuteSearchByMode`. -/
def Search.program (n self : ℕ) : Search → List Action
  | kLocal index => if n ≤ 1 then [.access self] else onWorker self (workerOf n index)
  | kGlobal => if n ≤ 1 then [.access self] else await true (gatherFrom n self fun _ => 1)

/-- The actions of a handler on the worker `self` of `n`. -/
def Handler.program (n self : ℕ) : Handler → List Action
  | own accesses => replicate accesses (.access self)
  | mGet keys => if n ≤ 1 then replicate keys.length (.access self) else spread n self keys
  | mSet keys => if n ≤ 1 then replicate keys.length (.access self) else spread n self keys
  | allKeys => if n ≤ 1 then [.access self] else (range n).map .access
  | gather accesses =>
    if n ≤ 1 then replicate accesses (.access self)
    else await false (gatherFrom n self fun _ => accesses)
  | bitOp destkey sources =>
    if n ≤ 1 then replicate (sources + 1) (.access self)
    else
      await false (gatherFrom n self fun _ => sources) ++
        await false (visit self (workerOf n destkey) 1)
  | vBroadcast => .access self :: await true (broadcast n self 1)
  | vOnKey accesses key =>
    replicate accesses (.access self) ++
      if n ≤ 1 then [.access self] else onWorker self (workerOf n key)
  | vSearch search => .access self :: search.program n self
  | vSearchAsync search => [.access self, .launch search]
  | vSearchJob owner => if owner = self then [] else [.addTask owner 0, .wait true]

/-- A command, with the key by which it is routed. -/
structure KeyedCommand where
  firstKey : Option Bytes
  handler : Handler

def isFirstKeyLocal (n self : ℕ) (command : KeyedCommand) : Bool :=
  match command.firstKey with
  | none => true
  | some key => key = [] || workerOf n key = self

/-- The `EXEC` branch of the executor loop, for the commands that are queued and not
discarded by the version check. -/
def execProgram (n self : ℕ) (queued : List KeyedCommand) : List Action :=
  .versionCheck self ::
    (queued.filter (isFirstKeyLocal n self)).flatMap fun command => command.handler.program n self

/-! ### Threads -/

/-- The executor threads of the workers, and the threads that searches run on. -/
inductive Thread
  | executor (w : ℕ)
  | detached (w id : ℕ)
deriving DecidableEq

def Thread.worker : Thread → ℕ
  | executor w => w
  | detached w _ => w

inductive Kind
  | command
  /-- an `EXEC` before its version check -/
  | exec
  /-- an `EXEC` after its version check -/
  | execChecked
deriving DecidableEq

def Kind.checked : Kind → Kind
  | command => .command
  | _ => .execChecked

structure Frame where
  id : ℕ
  origin : Origin
  kind : Kind
  /-- the frame that waits for this one -/
  caller : Option ℕ
  program : List Action

/-- The Database that the next action of a frame uses. -/
def Frame.uses (frame : Frame) : Option ℕ :=
  match frame.program with
  | .access u :: _ => some u
  | .versionCheck u :: _ => some u
  | _ => none

/-- The frame of an `EXEC` between its version check and the end of its last command. -/
def Frame.executing (frame : Frame) : Bool :=
  frame.kind = .execChecked && !frame.program.isEmpty

structure Task where
  origin : Origin
  caller : ℕ
  accesses : ℕ

structure Sched where
  frames : Thread → List Frame
  /-- `task_queue_` -/
  queues : ℕ → List Task
  /-- `pending_remote`, of each frame -/
  pending : ℕ → ℕ
  nextId : ℕ

namespace Sched

def init : Sched where
  frames := fun _ => []
  queues := fun _ => []
  pending := fun _ => 0
  nextId := 0

inductive Label
  /-- the executor of `w` takes up a command -/
  | start (w : ℕ) (origin : Origin) (command : KeyedCommand)
  | exec (w : ℕ) (origin : Origin) (queued : List KeyedCommand)
  /-- the executor of `w` takes a task from its queue -/
  | takeTask (w i : ℕ)
  /-- a thread takes the next action of the frame on top -/
  | act (t : Thread)
  /-- `ProcessPendingSchedulerTasksForCrossWorkerWait`, of a thread that waits -/
  | pump (t : Thread) (i : ℕ)

def push (s : Sched) (t : Thread) (frame : Frame) : Sched :=
  { s with frames := update s.frames t (frame :: s.frames t), nextId := s.nextId + 1 }

def begin (s : Sched) (w : ℕ) (origin : Origin) (kind : Kind) (program : List Action) : Sched :=
  if s.frames (.executor w) = [] then
    s.push (.executor w) ⟨s.nextId, origin, kind, none, program⟩
  else s

/-- Takes a task from the queue of the thread's worker and runs it. -/
def runTask (s : Sched) (t : Thread) (i : ℕ) : Sched :=
  match (s.queues t.worker)[i]? with
  | none => s
  | some task =>
    push { s with queues := update s.queues t.worker ((s.queues t.worker).eraseIdx i) } t
      ⟨s.nextId, task.origin, .command, some task.caller,
        replicate task.accesses (.access t.worker)⟩

/-- The frame on top with its next action taken. -/
def advance (s : Sched) (t : Thread) (frame : Frame) (rest : List Frame) (kind : Kind)
    (program : List Action) : Sched :=
  { s with
    frames := update s.frames t ({ frame with kind := kind, program := program } :: rest) }

def finish (s : Sched) (t : Thread) (frame : Frame) (rest : List Frame) : Sched :=
  { s with
    frames := update s.frames t rest
    pending :=
      match frame.caller with
      | none => s.pending
      | some id => update s.pending id (s.pending id - 1) }

def actFrame (n : ℕ) (s : Sched) (t : Thread) (frame : Frame) (rest : List Frame) : Sched :=
  match frame.program with
  | [] => s.finish t frame rest
  | .access _ :: program => s.advance t frame rest frame.kind program
  | .versionCheck _ :: program => s.advance t frame rest frame.kind.checked program
  | .addTask u accesses :: program =>
    let s := s.advance t frame rest frame.kind program
    { s with
      queues := update s.queues u (s.queues u ++ [⟨frame.origin, frame.id, accesses⟩])
      pending := update s.pending frame.id (s.pending frame.id + 1) }
  | .wait _ :: program =>
    if s.pending frame.id = 0 then s.advance t frame rest frame.kind program else s
  | .launch search :: program =>
    (s.advance t frame rest frame.kind program).push (.detached t.worker s.nextId)
      ⟨s.nextId, frame.origin, .command, none, search.program n t.worker⟩

def pumps (s : Sched) (frame : Frame) : Bool :=
  match frame.program with
  | .wait true :: _ => s.pending frame.id ≠ 0
  | _ => false

def step (n : ℕ) (s : Sched) : Label → Sched
  | .start w origin command => s.begin w origin .command (command.handler.program n w)
  | .exec w origin queued => s.begin w origin .exec (execProgram n w queued)
  | .takeTask w i => if s.frames (.executor w) = [] then s.runTask (.executor w) i else s
  | .act t =>
    match s.frames t with
    | [] => s
    | frame :: rest => actFrame n s t frame rest
  | .pump t i =>
    match s.frames t with
    | [] => s
    | frame :: _ => if s.pumps frame then s.runTask t i else s

/-! ### Isolation -/

/-- If the step uses a Database whose worker executes an `EXEC`, then it does so for the
connection of that `EXEC`. -/
def Isolated (s : Sched) : Label → Prop
  | .act t => ∀ frame ∈ (s.frames t).head?, ∀ u ∈ frame.uses,
      ∀ frame' ∈ s.frames (.executor u), frame'.executing = true →
        frame.origin = frame'.origin
  | _ => True

instance (s : Sched) : ∀ label, Decidable (Isolated s label)
  | .act t => inferInstanceAs (Decidable (∀ frame ∈ (s.frames t).head?, ∀ u ∈ frame.uses,
      ∀ frame' ∈ s.frames (.executor u), frame'.executing = true → frame.origin = frame'.origin))
  | .start .. => isTrue trivial
  | .exec .. => isTrue trivial
  | .takeTask .. => isTrue trivial
  | .pump .. => isTrue trivial

end Sched

/-! ### Handlers that stay at home -/

/-- The action uses no Database but that of `w`. -/
def Action.AtHome (w : ℕ) : Action → Prop
  | access u => u = w
  | versionCheck u => u = w
  | launch _ => False
  | _ => True

/-- The handler uses Databases of other workers by tasks only. -/
def Handler.ReadsAtHome (n : ℕ) : Handler → Prop
  | allKeys => n ≤ 1
  | vSearchAsync _ => False
  | _ => True

def Search.StaysHome (n self : ℕ) : Search → Prop
  | kLocal index => n ≤ 1 ∨ workerOf n index = self
  | kGlobal => n ≤ 1

/-- The handler runs no tasks of its own queue: it has nothing to wait for, or it only waits. -/
def Handler.OnlyWaits (n self : ℕ) : Handler → Prop
  | mGet keys => n ≤ 1 ∨ ∀ key ∈ keys, workerOf n key = self
  | mSet keys => n ≤ 1 ∨ ∀ key ∈ keys, workerOf n key = self
  | vBroadcast => ∀ u < n, u = self
  | vOnKey _ key => n ≤ 1 ∨ workerOf n key = self
  | vSearch search => search.StaysHome n self
  | vSearchJob owner => owner = self
  | _ => True

variable {self u accesses : ℕ} {action : Action} {n : ℕ} {pump : Bool} {actions : List Action}

theorem mem_visit (h : action ∈ visit self u accesses) :
    action = .access self ∨ (u ≠ self ∧ accesses ≠ 0 ∧ action = .addTask u accesses) := by
  unfold visit at h
  split at h
  · exact absurd h not_mem_nil
  · next hne =>
    split at h
    · next hu => exact .inl (hu ▸ eq_of_mem_replicate h)
    · next hu => exact .inr ⟨hu, hne, mem_singleton.mp h⟩

theorem mem_gatherFrom {accesses : ℕ → ℕ} (h : action ∈ gatherFrom n self accesses) :
    action = .access self ∨
      ∃ u, u ≠ self ∧ accesses u ≠ 0 ∧ action = .addTask u (accesses u) := by
  obtain ⟨u, -, hu⟩ := mem_flatMap.mp h
  rcases mem_visit hu with h | h
  · exact .inl h
  · exact .inr ⟨u, h⟩

theorem mem_await (h : action ∈ await pump actions) :
    action ∈ actions ∨ (action = .wait pump ∧ ∃ u accesses, .addTask u accesses ∈ actions) := by
  unfold await at h
  split at h
  · next hany =>
    rcases mem_append.mp h with h | h
    · exact .inl h
    · obtain ⟨task, htask, his⟩ := any_eq_true.mp hany
      refine .inr ⟨mem_singleton.mp h, ?_⟩
      cases task with
      | addTask u accesses => exact ⟨u, accesses, htask⟩
      | _ => exact absurd his Bool.false_ne_true
  · exact .inl h

/-! ### Where the actions of a handler are -/

theorem atHome_await (h : ∀ action ∈ actions, action.AtHome self)
    (hmem : action ∈ await pump actions) : action.AtHome self := by
  rcases mem_await hmem with hmem | ⟨rfl, -⟩
  · exact h action hmem
  · trivial

theorem atHome_visit (h : action ∈ visit self u accesses) : action.AtHome self := by
  rcases mem_visit h with rfl | ⟨-, -, rfl⟩
  · rfl
  · trivial

theorem atHome_gatherFrom {accesses : ℕ → ℕ} (h : action ∈ await pump (gatherFrom n self accesses)) :
    action.AtHome self := by
  refine atHome_await (fun action haction => ?_) h
  obtain ⟨u, -, hu⟩ := mem_flatMap.mp haction
  exact atHome_visit hu

theorem atHome_onWorker (h : action ∈ onWorker self u) : action.AtHome self := by
  unfold onWorker at h
  split at h
  · rw [mem_singleton.mp h]
    rfl
  · rcases mem_cons.mp h with rfl | h
    · trivial
    · rw [mem_singleton.mp h]
      trivial

theorem atHome_replicate {k : ℕ} (h : action ∈ replicate k (Action.access self)) :
    action.AtHome self := by
  rw [eq_of_mem_replicate h]
  rfl

theorem Search.atHome_program {search : Search} (h : action ∈ search.program n self) :
    action.AtHome self := by
  unfold program at h
  split at h
  · split at h
    · exact atHome_replicate (k := 1) h
    · exact atHome_onWorker h
  · split at h
    · exact atHome_replicate (k := 1) h
    · exact atHome_gatherFrom h

theorem Handler.atHome_program {handler : Handler} (hhandler : handler.ReadsAtHome n)
    (h : action ∈ handler.program n self) : action.AtHome self := by
  -- alone, or by tasks for the workers that are concerned
  have hgather : ∀ k pump accesses, (action ∈ if n ≤ 1 then replicate k (.access self)
      else await pump (gatherFrom n self accesses)) → action.AtHome self := by
    intro k pump accesses h
    split at h
    · exact atHome_replicate h
    · exact atHome_gatherFrom h
  unfold program at h
  split at h
  · exact atHome_replicate h
  · exact hgather _ _ _ h
  · exact hgather _ _ _ h
  · have hn : n ≤ 1 := hhandler
    rw [if_pos hn] at h
    exact atHome_replicate (k := 1) h
  · exact hgather _ _ _ h
  · split at h
    · exact atHome_replicate h
    · rcases mem_append.mp h with h | h
      · exact atHome_gatherFrom h
      · exact atHome_await (fun action => atHome_visit) h
  · rcases mem_cons.mp h with rfl | h
    · rfl
    · refine atHome_await (fun action haction => ?_) h
      obtain ⟨u, -, rfl⟩ := mem_map.mp haction
      trivial
  · rcases mem_append.mp h with h | h
    · exact atHome_replicate h
    · split at h
      · exact atHome_replicate (k := 1) h
      · exact atHome_onWorker h
  · rcases mem_cons.mp h with rfl | h
    · rfl
    · exact Search.atHome_program h
  · exact absurd hhandler id
  · split at h
    · exact absurd h not_mem_nil
    · rcases mem_cons.mp h with rfl | h
      · trivial
      · rw [mem_singleton.mp h]
        trivial

/-! ### Handlers that never run their queue -/

theorem wait_not_mem_replicate {k : ℕ} :
    Action.wait pump ∉ replicate k (Action.access self) := by
  intro h
  exact absurd (eq_of_mem_replicate h) (by simp)

theorem wait_not_mem_onWorker (self : ℕ) : Action.wait true ∉ onWorker self self := by
  rw [onWorker, if_pos rfl]
  exact wait_not_mem_replicate (k := 1)

theorem wait_not_mem_visit : Action.wait pump ∉ visit self u accesses := by
  intro h
  rcases mem_visit h with h | ⟨-, -, h⟩ <;> exact absurd h (by simp)

theorem wait_mem_await {pump' : Bool} (hactions : Action.wait pump' ∉ actions)
    (h : Action.wait pump' ∈ await pump actions) :
    pump' = pump ∧ ∃ u accesses, .addTask u accesses ∈ actions := by
  rcases mem_await h with h | ⟨heq, htask⟩
  · exact absurd h hactions
  · exact ⟨Action.wait.inj heq, htask⟩

theorem wait_not_mem_gatherFrom {accesses : ℕ → ℕ} {pump' : Bool}
    (h : pump' = pump → ∀ u, u ≠ self → accesses u = 0) :
    Action.wait pump' ∉ await pump (gatherFrom n self accesses) := by
  intro hmem
  obtain ⟨heq, u, k, htask⟩ := wait_mem_await (fun hwait => by
    obtain ⟨u, -, hu⟩ := mem_flatMap.mp hwait
    exact wait_not_mem_visit hu) hmem
  rcases mem_gatherFrom htask with h' | ⟨v, hv, hne, -⟩
  · exact absurd h' (by simp)
  · exact hne (h heq v hv)

theorem wait_not_mem_spread {keys : List Bytes} (h : ∀ key ∈ keys, workerOf n key = self) :
    Action.wait true ∉ spread n self keys := by
  refine wait_not_mem_gatherFrom fun _ u hu => ?_
  rw [length_eq_zero_iff, filter_eq_nil_iff]
  intro key hkey heq
  exact hu ((of_decide_eq_true heq).symm.trans (h key hkey))

theorem Search.wait_not_mem_program {search : Search} (hsearch : search.StaysHome n self) :
    Action.wait true ∉ search.program n self := by
  unfold program
  split
  · next index =>
    split
    · exact wait_not_mem_replicate (k := 1)
    · next hn =>
      rw [hsearch.resolve_left hn]
      exact wait_not_mem_onWorker self
  · have hn : n ≤ 1 := hsearch
    rw [if_pos hn]
    exact wait_not_mem_replicate (k := 1)

theorem Handler.wait_not_mem_program {handler : Handler} (hhandler : handler.OnlyWaits n self) :
    Action.wait true ∉ handler.program n self := by
  have hspread : ∀ keys, (n ≤ 1 ∨ ∀ key ∈ keys, workerOf n key = self) → Action.wait true ∉
      if n ≤ 1 then replicate keys.length (.access self) else spread n self keys := by
    intro keys hkeys
    split
    · exact wait_not_mem_replicate
    · next hn => exact wait_not_mem_spread (hkeys.resolve_left hn)
  unfold program
  split
  · exact wait_not_mem_replicate
  · exact hspread _ hhandler
  · exact hspread _ hhandler
  · split
    · exact wait_not_mem_replicate (k := 1)
    · simp
  · split
    · exact wait_not_mem_replicate
    · exact wait_not_mem_gatherFrom (by simp)
  · split
    · exact wait_not_mem_replicate
    · intro h
      rcases mem_append.mp h with h | h
      · exact wait_not_mem_gatherFrom (by simp) h
      · exact absurd (wait_mem_await wait_not_mem_visit h).1 (by decide)
  · intro h
    rcases mem_cons.mp h with h | h
    · exact absurd h (by simp)
    · obtain ⟨-, u, k, htask⟩ := wait_mem_await (by simp [broadcast]) h
      obtain ⟨v, hv, -⟩ := mem_map.mp htask
      obtain ⟨hlt, hne⟩ := mem_filter.mp hv
      exact of_decide_eq_true hne (hhandler v (mem_range.mp hlt))
  · next k key =>
    intro h
    rcases mem_append.mp h with h | h
    · exact wait_not_mem_replicate h
    · split at h
      · exact wait_not_mem_replicate (k := 1) h
      · next hn =>
        rw [hhandler.resolve_left hn] at h
        exact wait_not_mem_onWorker self h
  · intro h
    rcases mem_cons.mp h with h | h
    · exact absurd h (by simp)
    · exact Search.wait_not_mem_program hhandler h
  · simp
  · next owner =>
    have howner : owner = self := hhandler
    rw [if_pos howner]
    exact not_mem_nil

/-! ### Stacks -/

/-- A stack of the thread in which every frame uses its own worker's Database, and an `EXEC`
is the only frame and does not run the queue. -/
structure Fine (t : Thread) (frames : List Frame) : Prop where
  attached : ∀ w id, t = .detached w id → frames = []
  atHome : ∀ frame ∈ frames, ∀ action ∈ frame.program, action.AtHome t.worker
  alone : ∀ frame ∈ frames, frame.kind ≠ .command →
    frames = [frame] ∧ .wait true ∉ frame.program

namespace Fine

variable {t : Thread} {frame : Frame} {rest : List Frame}

theorem nil (t : Thread) : Fine t [] where
  attached := fun _ _ _ => rfl
  atHome := by simp
  alone := by simp

section

variable (h : Fine t (frame :: rest))
include h

theorem kind_of_mem {frame' : Frame} (hmem : frame' ∈ rest) :
    frame'.kind = .command := by
  by_contra hkind
  obtain ⟨heq, -⟩ := h.alone frame' (mem_cons_of_mem _ hmem) hkind
  rw [(List.cons.inj heq).2] at hmem
  exact not_mem_nil hmem

theorem pop : Fine t rest where
  attached := by
    intro w id ht
    exact absurd (h.attached w id ht) (cons_ne_nil _ _)
  atHome := fun frame' hmem => h.atHome frame' (mem_cons_of_mem _ hmem)
  alone := fun frame' hmem hkind => absurd (h.kind_of_mem hmem) hkind

theorem advance {action : Action} {program : List Action}
    (hprogram : frame.program = action :: program) {kind : Kind}
    (hkind : kind ≠ .command → frame.kind ≠ .command) :
    Fine t ({ frame with kind := kind, program := program } :: rest) where
  attached := by
    intro w id ht
    exact absurd (h.attached w id ht) (cons_ne_nil _ _)
  atHome := by
    intro frame' hmem action' haction
    rcases mem_cons.mp hmem with rfl | hmem
    · exact h.atHome frame mem_cons_self action' (hprogram ▸ mem_cons_of_mem _ haction)
    · exact h.atHome frame' (mem_cons_of_mem _ hmem) action' haction
  alone := by
    intro frame' hmem hkind'
    rcases mem_cons.mp hmem with rfl | hmem
    · obtain ⟨heq, hwait⟩ := h.alone frame mem_cons_self (hkind hkind')
      rw [(List.cons.inj heq).2]
      rw [hprogram] at hwait
      exact ⟨rfl, fun hmem => hwait (mem_cons_of_mem _ hmem)⟩
    · exact absurd (h.kind_of_mem hmem) hkind'

end

theorem single {w : ℕ} (hhome : ∀ action ∈ frame.program, action.AtHome w)
    (hkind : frame.kind ≠ .command → .wait true ∉ frame.program) :
    Fine (.executor w) [frame] where
  attached := by
    intro w id ht
    exact absurd ht (by simp)
  atHome := by
    intro frame' hmem
    rw [mem_singleton.mp hmem]
    exact hhome
  alone := by
    intro frame' hmem hkind'
    rw [mem_singleton.mp hmem] at hkind' ⊢
    exact ⟨rfl, hkind hkind'⟩

theorem push (h : Fine t (frame :: rest)) (hwait : .wait true ∈ frame.program) {task : Frame}
    (hhome : ∀ action ∈ task.program, action.AtHome t.worker) (hkind : task.kind = .command) :
    Fine t (task :: frame :: rest) := by
  have hframe : frame.kind = .command := by
    by_contra hne
    exact (h.alone frame mem_cons_self hne).2 hwait
  refine ⟨?_, ?_, ?_⟩
  · intro w id ht
    exact absurd (h.attached w id ht) (cons_ne_nil _ _)
  · intro frame' hmem
    rcases mem_cons.mp hmem with rfl | hmem
    · exact hhome
    · exact h.atHome frame' hmem
  · intro frame' hmem hkind'
    rcases mem_cons.mp hmem with rfl | hmem
    · exact absurd hkind hkind'
    · rcases mem_cons.mp hmem with rfl | hmem
      · exact absurd hframe hkind'
      · exact absurd (h.kind_of_mem hmem) hkind'

end Fine

namespace Sched

/-- The commands that the label starts reach other workers by tasks only, and the commands of a
transaction do not run the queue while they wait. -/
def Label.Quiet (n : ℕ) : Label → Prop
  | .start _ _ command => command.handler.ReadsAtHome n
  | .exec w _ queued => ∀ command ∈ queued, isFirstKeyLocal n w command = true →
      command.handler.ReadsAtHome n ∧ command.handler.OnlyWaits n w
  | _ => True

variable {n : ℕ} {s : Sched} {t : Thread}

theorem mem_execProgram {w : ℕ} {queued : List KeyedCommand} {action : Action}
    (h : action ∈ execProgram n w queued) :
    action = .versionCheck w ∨ ∃ command ∈ queued, isFirstKeyLocal n w command = true ∧
      action ∈ command.handler.program n w := by
  rcases mem_cons.mp h with h | h
  · exact .inl h
  · obtain ⟨command, hcommand, haction⟩ := mem_flatMap.mp h
    obtain ⟨hmem, hlocal⟩ := mem_filter.mp hcommand
    exact .inr ⟨command, hmem, hlocal, haction⟩

def AllFine (s : Sched) : Prop := ∀ t, Fine t (s.frames t)

theorem allFine_init : AllFine init := fun t => Fine.nil t

theorem AllFine.update {s' : Sched} {frames : List Frame} (h : AllFine s)
    (hs' : s'.frames = update s.frames t frames) (hframes : Fine t frames) :
    AllFine s' := by
  intro t'
  rw [hs', update_apply]
  split
  · next ht => exact ht ▸ hframes
  · exact h t'

theorem allFine_begin (h : AllFine s) {w : ℕ} {origin : Origin} {kind : Kind}
    {program : List Action} (hhome : ∀ action ∈ program, action.AtHome w)
    (hkind : kind ≠ .command → .wait true ∉ program) : AllFine (s.begin w origin kind program) := by
  unfold begin
  split
  · next hempty =>
    refine h.update rfl ?_
    rw [hempty]
    exact Fine.single hhome hkind
  · exact h

theorem allFine_runTask (h : AllFine s) (i : ℕ) (hpush : ∀ task : Frame, task.kind = .command →
      (∀ action ∈ task.program, action.AtHome t.worker) → Fine t (task :: s.frames t)) :
    AllFine (s.runTask t i) := by
  unfold runTask
  split
  · exact h
  · exact h.update rfl (hpush _ rfl fun action => atHome_replicate)

theorem allFine_actFrame (h : AllFine s) {frame : Frame} {rest : List Frame}
    (ht : s.frames t = frame :: rest) : AllFine (actFrame n s t frame rest) := by
  have hfine : Fine t (frame :: rest) := ht ▸ h t
  unfold actFrame
  split
  · exact h.update rfl hfine.pop
  · next hprogram => exact h.update rfl (hfine.advance hprogram id)
  · next hprogram =>
    refine h.update rfl (hfine.advance hprogram fun hkind hcommand => hkind ?_)
    rw [hcommand]
    rfl
  · next hprogram => exact h.update rfl (hfine.advance hprogram id)
  · next hprogram =>
    split
    · exact h.update rfl (hfine.advance hprogram id)
    · exact h
  · next search program hprogram =>
    have hlaunch := hfine.atHome frame mem_cons_self (.launch search)
      (hprogram ▸ mem_cons_self)
    exact absurd hlaunch id

theorem allFine_step (h : AllFine s) {label : Label} (hlabel : label.Quiet n) :
    AllFine (step n s label) := by
  cases label with
  | start w origin command =>
    exact allFine_begin h (fun action => Handler.atHome_program hlabel)
      fun hkind => absurd rfl hkind
  | exec w origin queued =>
    refine allFine_begin h (fun action haction => ?_) fun _ hwait => ?_
    · rcases mem_execProgram haction with rfl | ⟨command, hmem, hlocal, haction⟩
      · rfl
      · exact Handler.atHome_program (hlabel command hmem hlocal).1 haction
    · rcases mem_execProgram hwait with hwait | ⟨command, hmem, hlocal, hwait⟩
      · exact absurd hwait (by simp)
      · exact Handler.wait_not_mem_program (hlabel command hmem hlocal).2 hwait
  | takeTask w i =>
    rw [step]
    split
    · next hempty =>
      refine allFine_runTask h i fun task hkind hhome => ?_
      rw [hempty]
      exact Fine.single hhome fun hne => absurd hkind hne
    · exact h
  | act t =>
    rw [step]
    split
    · exact h
    · next frame rest ht => exact allFine_actFrame h ht
  | pump t i =>
    rw [step]
    split
    · exact h
    · next frame rest ht =>
      split
      · next hpumps =>
        refine allFine_runTask h i fun task hkind hhome => ?_
        rw [ht]
        refine Fine.push (ht ▸ h t) ?_ hhome hkind
        unfold pumps at hpumps
        split at hpumps
        · next hprogram =>
          rw [hprogram]
          exact mem_cons_self
        · exact absurd hpumps Bool.false_ne_true
      · exact h

/-- With fine stacks, whoever uses the Database of a worker is on top of its executor's stack,
and with an `EXEC` in the stack that is the `EXEC`. -/
theorem isolated_of_allFine (h : AllFine s) (label : Label) : Isolated s label := by
  cases label with
  | act t =>
    intro frame hframe u hu frame' hframe' hexecuting
    obtain ⟨rest, ht⟩ := List.head?_eq_some_iff.mp hframe
    have hfine : Fine t (frame :: rest) := ht ▸ h t
    have hhome : u = t.worker := by
      unfold Frame.uses at hu
      split at hu
      · next v program hprogram =>
        obtain rfl := Option.some.inj hu
        exact hfine.atHome frame mem_cons_self (.access v) (hprogram ▸ mem_cons_self)
      · next v program hprogram =>
        obtain rfl := Option.some.inj hu
        exact hfine.atHome frame mem_cons_self (.versionCheck v)
          (hprogram ▸ mem_cons_self)
      · exact absurd hu (by simp)
    have hkind : frame'.kind ≠ .command := by
      intro hkind
      rw [Frame.executing, hkind] at hexecuting
      exact absurd hexecuting Bool.false_ne_true
    cases t with
    | detached w id =>
      rw [(h (.detached w id)).attached w id rfl] at ht
      exact absurd ht (by simp)
    | executor w =>
      obtain rfl : u = w := hhome
      rw [ht] at hframe'
      rcases mem_cons.mp hframe' with rfl | hmem
      · rfl
      · exact absurd (hfine.kind_of_mem hmem) hkind
  | _ => trivial

/-- A transaction with an `MGET` of a key of its worker, beside an `MSET` that spreads over both
workers. -/
def execOwnKeys : List Label :=
  [.exec 0 ⟨0, 1⟩ [⟨some (ascii "b"), .mGet [ascii "b"]⟩],
    .start 1 ⟨1, 2⟩ ⟨some (ascii "a"), .mSet [ascii "a", ascii "b"]⟩,
    .act (.executor 0), .act (.executor 1), .act (.executor 0), .act (.executor 0),
    .takeTask 0 0, .act (.executor 0)]

/-- The same with a second key in the `MGET`, which the other worker has. -/
def execSpreads : List Label :=
  [.exec 0 ⟨0, 1⟩ [⟨some (ascii "b"), .mGet [ascii "b", ascii "a"]⟩],
    .start 1 ⟨1, 2⟩ ⟨some (ascii "a"), .mSet [ascii "a", ascii "b"]⟩,
    .act (.executor 0), .act (.executor 0), .act (.executor 0), .act (.executor 1),
    .pump (.executor 0) 0, .act (.executor 0)]

end Sched

end CrossWorker
