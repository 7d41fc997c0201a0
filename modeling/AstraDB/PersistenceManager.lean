/-
The AOF at shutdown: `AofWriter`, and the thread of `PersistenceManager` that feeds it.

Records are collected in a buffer.  `Stop` writes out what is left of it only if there is a
sync thread to stop, which is so under `kEverySec` alone.  The thread that takes commands from
the queue waits on a condition variable that is signalled without its mutex, and does not look
at the queue again before it waits.

* `content_stop_iff` — when all records are in the file after `Stop`;
* `along_not_stranded_iff` — when the thread never sleeps while there is something to do.
-/
import AstraDB.CRLF
import AstraDB.Endian
import AstraDB.Runs

open Runs List

inductive AofSyncPolicy
  | kAlways
  | kEverySec
  | kNever
  deriving DecidableEq

structure AofOptions where
  syncPolicy : AofSyncPolicy := .kEverySec
  compress : Bool := false

/-- `AofWriter`, once it is initialized.  The file takes what is written to it. -/
structure AofWriter where
  options : AofOptions
  file : Bytes
  buffer : Bytes := []
  /-- there is a sync thread -/
  running : Bool
  isOpen : Bool := true

namespace AofWriter

/-- The writer after `Init`, for a file with this content. -/
def init (options : AofOptions) (content : Bytes) : AofWriter where
  options := options
  file := content
  running := options.syncPolicy = .kEverySec

-- `ZSTD_compress`, which may fail
variable (compress : Bytes → Option Bytes) (writer : AofWriter)

/-- What `Flush` writes for the buffer. -/
def block : Bytes :=
  if writer.options.compress then
    match compress writer.buffer with
    | none => writer.buffer
    | some compressed => Endian.littleEndian 4 compressed.length ++ compressed
  else writer.buffer

def flush : AofWriter :=
  if writer.buffer = [] then writer
  else { writer with file := writer.file ++ writer.block compress, buffer := [] }

def append (command : Bytes) : AofWriter :=
  let writer := { writer with buffer := writer.buffer ++ command }
  if writer.options.syncPolicy = .kAlways then writer.flush compress else writer

def stop : AofWriter :=
  if writer.running then { flush compress { writer with running := false } with isOpen := false }
  else writer

inductive Call
  | append (command : Bytes)
  | flush
  /-- `Sync`, by the sync thread -/
  | sync

def step : Call → AofWriter
  | .append command => writer.append compress command
  | .flush => writer.flush compress
  | .sync => if writer.running then writer.flush compress else writer

def Call.record : Call → Bytes
  | .append command => command
  | .flush | .sync => []

variable {compress writer}

theorem flush_eq (hplain : writer.options.compress = false) :
    writer.flush compress = { writer with file := writer.file ++ writer.buffer, buffer := [] } := by
  rw [flush, block, hplain, if_neg Bool.false_ne_true]
  split
  · next hbuffer =>
    obtain ⟨options, file, buffer, running, isOpen⟩ := writer
    obtain rfl : buffer = [] := hbuffer
    rw [append_nil]
  · rfl

/-- The records are in the file or in the buffer. -/
structure Holds (options : AofOptions) (records : Bytes) (writer : AofWriter) : Prop where
  options_eq : writer.options = options
  running_eq : writer.running = decide (options.syncPolicy = .kEverySec)
  content : writer.file ++ writer.buffer = records
  synced : options.syncPolicy = .kAlways → writer.buffer = []

variable {options : AofOptions} {records : Bytes}

section

variable (hplain : options.compress = false) (h : writer.Holds options records)
include hplain h

theorem Holds.flush : (writer.flush compress).Holds options records := by
  rw [flush_eq (h.options_eq ▸ hplain)]
  exact ⟨h.options_eq, h.running_eq, (append_nil _).trans h.content, fun _ => rfl⟩

theorem Holds.step
    (call : Call) : (writer.step compress call).Holds options (records ++ call.record) := by
  cases call with
  | append command =>
    have hcontent : writer.file ++ (writer.buffer ++ command) = records ++ command := by
      rw [← append_assoc, h.content]
    rw [AofWriter.step, append]
    split
    · rw [flush_eq (h.options_eq ▸ hplain)]
      exact ⟨h.options_eq, h.running_eq, (append_nil _).trans hcontent, fun _ => rfl⟩
    · next hpolicy =>
      exact ⟨h.options_eq, h.running_eq, hcontent, fun hp => absurd (h.options_eq ▸ hp) hpolicy⟩
  | flush =>
    rw [Call.record, append_nil]
    exact h.flush hplain
  | sync =>
    rw [Call.record, append_nil, AofWriter.step]
    split
    · exact h.flush hplain
    · exact h

theorem Holds.stop_iff : (writer.stop compress).file = records ↔
      options.syncPolicy ≠ .kNever ∨ writer.buffer = [] := by
  have hfile : writer.file = records ↔ writer.buffer = [] := by
    rw [← h.content, self_eq_append_right]
  rw [stop, h.running_eq]
  cases hpolicy : options.syncPolicy with
  | kEverySec =>
    rw [if_pos (decide_eq_true rfl), flush_eq (h.options_eq ▸ hplain)]
    exact iff_of_true h.content (.inl nofun)
  | kAlways => exact iff_of_true (hfile.mpr (h.synced hpolicy)) (.inl nofun)
  | kNever => exact hfile.trans (or_iff_right fun hne => hne rfl).symm

end

/-- Without compression, `Stop` leaves all records in the file unless the policy is `kNever` and
something was appended after the last `Flush`. -/
theorem content_stop_iff (compress : Bytes → Option Bytes) (options : AofOptions)
    (hplain : options.compress = false) (content : Bytes) (calls : List Call) :
    ((after (step compress) (init options content) calls).stop compress).file =
        content ++ calls.flatMap Call.record ↔
      options.syncPolicy ≠ .kNever ∨
        (after (step compress) (init options content) calls).buffer = [] := by
  refine Holds.stop_iff hplain ?_
  exact after_invariant_history Call.record (fun records writer => Holds options writer records)
    (fun _ _ call _ h => h.step hplain call) (along_true _ calls)
    ⟨rfl, rfl, append_nil content, fun _ => rfl⟩

/-- A writer that syncs by itself. -/
theorem content_stop_iff_always :
    ((after (step fun _ => none) (init ⟨.kAlways, false⟩ (ascii "old")) [.append (ascii "new")]).stop
        fun _ => none).file = ascii "old" ++ ascii "new" :=
  (content_stop_iff _ ⟨.kAlways, false⟩ rfl (ascii "old") [.append (ascii "new")]).mpr
    (.inl (by decide))

/-- Under `kNever`, a record that was accepted is not in the file after `Stop`. -/
theorem content_stop_never :
    ((after (step fun _ => none) (init ⟨.kNever, false⟩ (ascii "old")) [.append (ascii "new")]).stop
        fun _ => none).file = ascii "old" ∧
      [Call.append (ascii "new")].flatMap Call.record ≠ [] := by
  decide

end AofWriter

namespace PersistenceManager

/-- Where `ProcessCommands` is. -/
inductive Phase
  /-- before it loads `running_` -/
  | test
  /-- in the loop over a batch -/
  | batch (processed : ℕ)
  /-- after a batch without commands, before `Wait` -/
  | wait
  /-- in `Wait` -/
  | blocked
  /-- in the loop over the remaining commands -/
  | remaining
  | stopped
  deriving DecidableEq

/-- `PersistenceManager`, with the AOF enabled and initialized. -/
structure State where
  queue : List Bytes := []
  running : Bool := true
  /-- how many calls have not come to their `Signal` yet -/
  pending : ℕ := 0
  phase : Phase := .test
  writer : AofWriter

inductive Label
  /-- `AppendCommand`, up to its `Signal` -/
  | append (command : Bytes)
  /-- `Shutdown`, up to its `Signal` -/
  | shutdown
  | signal
  /-- `Wait` returns without a signal -/
  | wake
  /-- the thread goes on -/
  | thread

variable (compress : Bytes → Option Bytes) (s : State)

def awake : State := { s with phase := if s.phase = .blocked then .test else s.phase }

/-- The next command of the queue goes to the writer. -/
def process (command : Bytes) (queue : List Bytes) (phase : Phase) : State :=
  { s with queue, phase, writer := s.writer.append compress command }

def thread : State :=
  match s.phase with
  | .test => { s with phase := if s.running then .batch 0 else .remaining }
  | .batch processed =>
    match if processed < 100 then s.queue else [] with
    | command :: queue => process compress s command queue (.batch (processed + 1))
    | [] =>
      if processed = 0 then { s with phase := .wait }
      else { s with phase := .test, writer := s.writer.flush compress }
  | .wait => { s with phase := .blocked }
  | .remaining =>
    match s.queue with
    | command :: queue => process compress s command queue .remaining
    | [] => { s with phase := .stopped, writer := s.writer.flush compress }
  | .blocked | .stopped => s

def step : Label → State
  | .append command => { s with queue := s.queue ++ [command], pending := s.pending + 1 }
  | .shutdown => if s.running then { s with running := false, pending := s.pending + 1 } else s
  | .signal => if s.pending = 0 then s else awake { s with pending := s.pending - 1 }
  | .wake => awake s
  | .thread => thread compress s

/-- The thread sleeps and nobody is about to wake it, though there is something to do. -/
def Stranded : Prop := s.phase = .blocked ∧ s.pending = 0 ∧ (s.queue ≠ [] ∨ s.running = false)

/-- The thread goes to sleep after the last signal, though there is something to do. -/
def Late (label : Label) : Prop :=
  label = .thread ∧ s.phase = .wait ∧ s.pending = 0 ∧ (s.queue ≠ [] ∨ s.running = false)

variable {compress s}

theorem not_stranded_awake : ¬ Stranded (awake s) := by
  rintro ⟨hphase, -⟩
  rw [awake] at hphase
  split at hphase
  · exact nomatch hphase
  · next hblocked => exact hblocked hphase

theorem stranded_thread_iff (h : ¬ Stranded s) :
    Stranded (thread compress s) ↔ Late s .thread := by
  cases hphase : s.phase with
  | wait =>
    rw [thread, hphase]
    exact ⟨fun hs => ⟨rfl, hphase, hs.2⟩, fun hlate => ⟨rfl, hlate.2.2⟩⟩
  | blocked | stopped =>
    rw [thread, hphase]
    exact iff_of_false h fun hlate => nomatch hphase.symm.trans hlate.2.1
  | test | batch | remaining =>
    refine iff_of_false (fun hs => ?_) fun hlate => nomatch hphase.symm.trans hlate.2.1
    -- from here no step leads into `Wait`
    have hblocked := hs.1
    rw [thread, hphase] at hblocked
    dsimp only at hblocked
    repeat' split at hblocked
    all_goals exact nomatch hblocked

theorem stranded_step_iff (h : ¬ Stranded s) (label : Label) :
    Stranded (step compress s label) ↔ Late s label := by
  cases label with
  | thread => exact stranded_thread_iff h
  | append => exact iff_of_false (fun hs => Nat.succ_ne_zero _ hs.2.1) fun hlate => nomatch hlate.1
  | wake => exact iff_of_false not_stranded_awake fun hlate => nomatch hlate.1
  | shutdown =>
    refine iff_of_false ?_ fun hlate => nomatch hlate.1
    rw [step]
    split
    · exact fun hs => Nat.succ_ne_zero _ hs.2.1
    · exact h
  | signal =>
    refine iff_of_false ?_ fun hlate => nomatch hlate.1
    rw [step]
    split
    · exact h
    · exact not_stranded_awake

/-- The thread is stranded in no state of a run exactly when it is never late. -/
theorem along_not_stranded_iff (compress : Bytes → Option Bytes) (writer : AofWriter)
    (labels : List Label) :
    Along (step compress) (fun s label => ¬ Stranded (step compress s label)) { writer } labels ↔
      Along (step compress) (fun s label => ¬ Late s label) { writer } labels :=
  along_iff (¬ Stranded ·) (fun _ label h => not_congr (stranded_step_iff h label))
    (fun _ _ _ h => h) fun hs => nomatch hs.1

/-- A command that arrives between the last look at the queue and `Wait`, and an end of the run
that does. -/
theorem stranded_append_shutdown :
    Stranded (after (step fun _ => none) { writer := .init {} [] }
        [.thread, .thread, .append (ascii "c"), .signal, .thread]) ∧
      Stranded (after (step fun _ => none) { writer := .init {} [] }
        [.thread, .thread, .shutdown, .signal, .thread]) :=
  ⟨⟨rfl, rfl, .inl (cons_ne_nil _ _)⟩, ⟨rfl, rfl, .inr rfl⟩⟩

end PersistenceManager
