/-
The receiving end of a client connection: `Worker::Connection`.

`DoRead` appends what has arrived to the receive buffer, and `ProcessCommands` parses
commands off its front.  The consumed prefix is only marked by an offset and cut off
lazily; a `ReceiveBuffer` carries the proof that the offset is inside the buffer.

What a connection does to the outside is a list of effects.  Logging and metrics are
left out.
-/
import AstraDB.RespFastPath

open Parser RespParser List

structure CommandWithConnId where
  connId : UInt64
  command : Command
  isForwarded : Bool
  sourceWorkerId : ℕ
  deriving DecidableEq, Repr

structure ResponseWithConnId where
  connId : UInt64
  response : String
  deriving DecidableEq, Repr

inductive Effect
  /-- `cmd_queue_->enqueue(cmd)` -/
  | enqueue (cmd : CommandWithConnId)
  /-- `resp_queue_->enqueue(resp)` -/
  | respond (resp : ResponseWithConnId)
  /-- `notify_callback_()` -/
  | notify
  /-- `on_close_callback_(conn_id_)` -/
  | close (connId : UInt64)
  deriving DecidableEq, Repr

/-- Commands and replies, and the end of the connection: all but the wake-ups. -/
def Effect.isReport : Effect → Bool
  | .notify => false
  | _ => true

/-- `receive_buffer_` and `receive_buffer_offset_`. -/
structure ReceiveBuffer where
  bytes : Bytes
  offset : ℕ
  offset_le : offset ≤ bytes.length

namespace ReceiveBuffer

def kReceiveBufferCompactThreshold : ℕ := 8 * 1024

def clear : ReceiveBuffer := ⟨[], 0, le_rfl⟩

variable (b : ReceiveBuffer)

/-- The bytes that have not been consumed. -/
def unread : Bytes := b.bytes.drop b.offset

/-- Cut off the consumed prefix, if it is all there is, or long enough. -/
def compact : ReceiveBuffer :=
  if b.offset = b.bytes.length then clear
  else if kReceiveBufferCompactThreshold ≤ b.offset ∧ b.bytes.length ≤ b.offset * 2 then
    ⟨b.bytes.drop b.offset, 0, Nat.zero_le _⟩
  else b

def append (chunk : Bytes) : ReceiveBuffer :=
  ⟨b.bytes ++ chunk, b.offset, by
    rw [length_append]
    exact b.offset_le.trans (Nat.le_add_right _ _)⟩

/-- Mark `n` more bytes as consumed. -/
def advance (n : ℕ) (hn : n ≤ b.unread.length) : ReceiveBuffer :=
  ⟨b.bytes, b.offset + n, by
    have := b.offset_le
    rw [unread, length_drop] at hn
    omega⟩

@[simp] theorem unread_clear : clear.unread = [] := rfl

@[simp] theorem unread_compact : b.compact.unread = b.unread := by
  rw [compact]
  split
  · next h =>
    rw [unread_clear, unread, h, drop_length]
  · split
    · rw [unread, unread, drop_zero]
    · rfl

@[simp] theorem unread_append (chunk : Bytes) : (b.append chunk).unread = b.unread ++ chunk :=
  drop_append_of_le_length b.offset_le

@[simp] theorem unread_advance (n : ℕ) (hn : n ≤ b.unread.length) :
    (b.advance n hn).unread = b.unread.drop n := by
  rw [unread, unread, drop_drop]
  rfl

end ReceiveBuffer

structure Connection where
  workerId : ℕ
  connId : UInt64
  notifyCallback : Bool
  onCloseCallback : Bool
  buffer : ReceiveBuffer

namespace Connection

/-- A connection that has just been accepted. -/
def accept (workerId : ℕ) (connId : UInt64) (notifyCallback onCloseCallback : Bool) : Connection :=
  ⟨workerId, connId, notifyCallback, onCloseCallback, .clear⟩

variable (env : ParserEnv)

/-- How a round of the loop of `ProcessCommands` ends. -/
inductive Round
  | command (cmd : Command) (view : Bytes)
  | invalidCommand (view : Bytes)
  | protocolError
  | incomplete

/-- One round: the fast path, and the slow path if that fails. -/
def round (remaining : Bytes) : Round :=
  match parseCommandFromArray env remaining with
  | (some cmd, view) => .command cmd view
  | (none, _) =>
    match parse env remaining with
    | (none, _) => if hasCompleteValue env remaining then .protocolError else .incomplete
    | (some value, view) =>
      match parseCommand value with
      | none => .invalidCommand view
      | some cmd => .command cmd view

/-- The local variables of `ProcessCommands`, and the effects so far. -/
structure LoopState where
  remaining : Bytes
  totalConsumed : ℕ
  enqueuedCommands : Bool
  protocolError : Bool
  effects : List Effect

def LoopState.goOn (s : LoopState) (view : Bytes) (effect : Effect) : LoopState :=
  { s with
    remaining := view
    totalConsumed := s.totalConsumed + (s.remaining.length - view.length)
    effects := s.effects ++ [effect] }

variable (conn : Connection)

def sendResponseViaQueue (response : String) : Effect := .respond ⟨conn.connId, response⟩

def enqueueCommand (cmd : Command) : Effect := .enqueue ⟨conn.connId, cmd, false, conn.workerId⟩

def processLoop : ℕ → LoopState → LoopState
  | 0, s => s
  | fuel + 1, s =>
    if s.remaining.isEmpty then s
    else
      match round env s.remaining with
      | .command cmd view =>
        processLoop fuel { s.goOn view (conn.enqueueCommand cmd) with enqueuedCommands := true }
      | .invalidCommand view =>
        processLoop fuel (s.goOn view (conn.sendResponseViaQueue "ERR invalid command format"))
      | .protocolError =>
        { s with
          protocolError := true
          effects := s.effects ++ [conn.sendResponseViaQueue "ERR invalid RESP protocol"] }
      | .incomplete => s

/-- The state in which the loop is left; each round takes at least one byte. -/
def processed : LoopState :=
  processLoop env conn conn.buffer.unread.length ⟨conn.buffer.unread, 0, false, false, []⟩

variable {env conn}

theorem round_takes {remaining view : Bytes}
    (h : (∃ cmd, round env remaining = .command cmd view) ∨
      round env remaining = .invalidCommand view) : ∃ c, remaining = c ++ view ∧ 1 ≤ c.length := by
  rcases hfast : parseCommandFromArray env remaining with ⟨_ | cmd, r⟩
  · rcases hslow : parse env remaining with ⟨_ | value, r'⟩
    · simp [round, hfast, hslow, hasCompleteValue] at h
    · -- the view is what `Parse` has left, whether or not the value is a command
      obtain rfl : r' = view := by
        rcases hcmd : parseCommand value with _ | cmd
        · simpa [round, hfast, hslow, hcmd] using h
        · simpa [round, hfast, hslow, hcmd] using h
      exact takes_parse env _ _ _ hslow
  · obtain rfl : r = view := by simpa [round, hfast] using h
    exact takes_parseCommandFromArray env _ _ _ hfast

/-- What is consumed and what remains are the two parts of `unread`. -/
def LoopState.Splits (unread : Bytes) (s : LoopState) : Prop :=
  s.totalConsumed ≤ unread.length ∧ s.remaining = unread.drop s.totalConsumed

theorem LoopState.Splits.goOn {unread c view : Bytes} {s : LoopState} (hs : s.Splits unread)
    (hc : s.remaining = c ++ view) (effect : Effect) : (s.goOn view effect).Splits unread := by
  have hlen := congrArg List.length hs.2
  have hcons : s.remaining.length - view.length = c.length := by
    rw [hc, length_append]
    omega
  rw [length_drop, hc, length_append] at hlen
  have hle := hs.1
  refine ⟨?_, ?_⟩
  · show s.totalConsumed + (s.remaining.length - view.length) ≤ unread.length
    omega
  · show view = unread.drop (s.totalConsumed + (s.remaining.length - view.length))
    rw [hcons, ← drop_drop, ← hs.2, hc, drop_left]

theorem processLoop_splits {unread : Bytes} : ∀ {fuel : ℕ} {s : LoopState}, s.Splits unread →
    (processLoop env conn fuel s).Splits unread := by
  intro fuel
  induction fuel with
  | zero => exact fun hs => hs
  | succ fuel ih =>
    intro s hs
    rw [processLoop]
    split
    · exact hs
    · split
      · next cmd _ hround =>
        obtain ⟨c, hc, -⟩ := round_takes (.inl ⟨cmd, hround⟩)
        exact ih (hs.goOn hc (conn.enqueueCommand cmd))
      · next hround =>
        obtain ⟨c, hc, -⟩ := round_takes (.inr hround)
        exact ih (hs.goOn hc _)
      · exact hs
      · exact hs

theorem processed_splits : (processed env conn).Splits conn.buffer.unread :=
  processLoop_splits ⟨Nat.zero_le _, rfl⟩

variable (env conn)

def processCommands : Connection × List Effect :=
  if conn.buffer.bytes.length ≤ conn.buffer.offset then
    ({ conn with buffer := .clear }, [])
  else
    let s := processed env conn
    let buffer := conn.buffer.advance s.totalConsumed processed_splits.1
    ({ conn with buffer := if s.protocolError then .clear else buffer.compact },
      s.effects ++ if s.enqueuedCommands && conn.notifyCallback then [.notify] else [])

/-- What `DoRead` does when bytes have arrived. -/
def onRead (chunk : Bytes) : Connection × List Effect :=
  processCommands env { conn with buffer := conn.buffer.compact.append chunk }

/-- `DoRead()`, for the pieces that arrive before the connection ends. -/
def doRead : Connection → List Bytes → Connection × List Effect
  | conn, [] => (conn, if conn.onCloseCallback then [.close conn.connId] else [])
  | conn, chunk :: chunks =>
    let r := onRead env conn chunk
    let t := doRead r.1 chunks
    (t.1, r.2 ++ t.2)

end Connection
