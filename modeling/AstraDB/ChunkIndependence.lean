/-
A client's commands do not depend on how its bytes arrive.

By `commandArray_spec` a round of `ProcessCommands` reads one `frame` off the stream, as
the slow path would (`round_cases`).  So the loop drains the buffer of frames
(`processLoop_eq`), and `DoRead` feeds a stream of frames in pieces (`doRead_eq`).

* `doRead_flatten` — the commands enqueued and the errors replied to are those of the
  whole stream;
* `processCommands_malformed` — input that cannot become valid is never reported:
  `HasCompleteValue` runs the parser that has just failed.
-/
import AstraDB.Connection
import AstraDB.Framing

open Parser RespParser List ReceiveBuffer

namespace Connection

variable {env : ParserEnv} {conn : Connection}

/-- What a complete value makes a connection do. -/
def effectOf (conn : Connection) (value : RespValue) : Effect :=
  match parseCommand value with
  | some cmd => conn.enqueueCommand cmd
  | none => conn.sendResponseViaQueue "ERR invalid command format"

/-- A frame of the stream: a RESP value, and what it leads to. -/
def frame (env : ParserEnv) (conn : Connection) : Parser UInt8 Effect := do
  let value ← parse env
  pure (conn.effectOf value)

theorem takes_frame : Takes 1 (frame env conn) := (takes_parse env).bind_left fun _ => takes_pure _

theorem stable_frame (henv : env.FindsCRLF) : Stable (frame env conn) :=
  (stable_parse henv).bind fun _ => stable_pure _

/-- The error branch is dead: `HasCompleteValue` is false whenever `Parse` has failed. -/
theorem round_of_none {remaining r r' : Bytes}
    (hfast : parseCommandFromArray env remaining = (none, r))
    (hslow : parse env remaining = (none, r')) : round env remaining = .incomplete := by
  simp [round, hfast, hslow, hasCompleteValue]

theorem round_cases (henv : env.FindsCRLF) (conn : Connection) (remaining : Bytes) :
    (∃ cmd view, round env remaining = .command cmd view ∧
      frame env conn remaining = (some (conn.enqueueCommand cmd), view)) ∨
    (∃ view, round env remaining = .invalidCommand view ∧ frame env conn remaining
      = (some (conn.sendResponseViaQueue "ERR invalid command format"), view)) ∨
    (∃ r, round env remaining = .incomplete ∧ frame env conn remaining = (none, r)) := by
  rcases hfast : parseCommandFromArray env remaining with ⟨_ | cmd, r⟩
  · rcases hslow : parse env remaining with ⟨_ | value, view⟩
    · exact .inr (.inr ⟨view, round_of_none hfast hslow, bind_of_none hslow⟩)
    · have hframe : frame env conn remaining = (some (conn.effectOf value), view) :=
        bind_of_some hslow
      rcases hcmd : parseCommand value with _ | cmd
      · refine .inr (.inl ⟨view, by simp [round, hfast, hslow, hcmd], ?_⟩)
        rw [hframe, effectOf, hcmd]
      · refine .inl ⟨cmd, view, by simp [round, hfast, hslow, hcmd], ?_⟩
        rw [hframe, effectOf, hcmd]
  · -- what the fast path has read, the slow path reads as well
    obtain ⟨value, hslow, hcmd⟩ := commandArray_spec henv (attempt_eq_some.mp hfast)
    refine .inl ⟨cmd, r, by simp [round, hfast], ?_⟩
    show (parse env >>= fun value => pure (conn.effectOf value)) remaining = _
    rw [bind_of_some hslow, effectOf, hcmd]
    rfl

theorem processLoop_eq (henv : env.FindsCRLF) (conn : Connection) : ∀ {fuel : ℕ} {s : LoopState},
    s.remaining.length ≤ fuel →
    (processLoop env conn fuel s).remaining = (drain (frame env conn) s.remaining).2 ∧
    (processLoop env conn fuel s).effects = s.effects ++ (drain (frame env conn) s.remaining).1 ∧
    (processLoop env conn fuel s).protocolError = s.protocolError := by
  intro fuel
  induction fuel with
  | zero =>
    intro s hlen
    have hnil : s.remaining = [] := length_eq_zero_iff.mp (Nat.le_zero.mp hlen)
    rw [hnil]
    exact ⟨hnil, (append_nil _).symm, rfl⟩
  | succ fuel ih =>
    intro s hlen
    -- a frame has been read and the loop goes on behind it
    have hstep : ∀ {view : Bytes} {effect : Effect} (b : Bool),
        frame env conn s.remaining = (some effect, view) →
        (processLoop env conn fuel { s.goOn view effect with enqueuedCommands := b }).remaining
          = (drain (frame env conn) s.remaining).2 ∧
        (processLoop env conn fuel { s.goOn view effect with enqueuedCommands := b }).effects
          = s.effects ++ (drain (frame env conn) s.remaining).1 ∧
        (processLoop env conn fuel { s.goOn view effect with enqueuedCommands := b }).protocolError
          = s.protocolError := by
      intro view effect b hframe
      have hview := takes_frame.length_le hframe
      obtain ⟨h1, h2, h3⟩ := ih (s := { s.goOn view effect with enqueuedCommands := b })
        (show view.length ≤ fuel by omega)
      rw [drain_of_some takes_frame hframe]
      refine ⟨h1, h2.trans ?_, h3⟩
      simp only [LoopState.goOn, append_assoc, singleton_append]
    rw [processLoop]
    split
    · next hempty =>
      have hnil : s.remaining = [] := isEmpty_iff.mp hempty
      rw [hnil]
      exact ⟨rfl, (append_nil _).symm, rfl⟩
    · rcases round_cases henv conn s.remaining with
        ⟨cmd, view, hround, hframe⟩ | ⟨view, hround, hframe⟩ | ⟨r, hround, hframe⟩
      · rw [hround]
        exact hstep true hframe
      · rw [hround]
        exact hstep s.enqueuedCommands hframe
      · rw [hround, drain_of_none hframe]
        exact ⟨rfl, (append_nil _).symm, rfl⟩

theorem isReport_of_mem_drain {b : Bytes} {e : Effect}
    (he : e ∈ (drain (frame env conn) b).1) : e.isReport = true := by
  obtain ⟨b', r, h⟩ := of_mem_drain takes_frame he
  obtain ⟨value, r', -, heffect⟩ := bind_eq_some.mp h
  cases heffect
  rw [effectOf]
  split
  · rfl
  · rfl

theorem processCommands_eq (henv : env.FindsCRLF) (conn : Connection) :
    ∃ b, (processCommands env conn).1 = { conn with buffer := b } ∧
      b.unread = (drain (frame env conn) conn.buffer.unread).2 ∧
      (processCommands env conn).2.filter Effect.isReport
        = (drain (frame env conn) conn.buffer.unread).1 := by
  rw [processCommands]
  split
  · next hend =>
    have hnil : conn.buffer.unread = [] := drop_eq_nil_of_le hend
    rw [hnil]
    exact ⟨.clear, rfl, rfl, rfl⟩
  · obtain ⟨hrem, heff, herr⟩ := processLoop_eq henv conn
      (s := ⟨conn.buffer.unread, 0, false, false, []⟩) le_rfl
    have hsplit : (processed env conn).remaining
        = conn.buffer.unread.drop (processed env conn).totalConsumed := processed_splits.2
    refine ⟨_, rfl, ?_, ?_⟩
    · rw [if_neg (by rw [processed, herr]; simp), unread_compact,
        unread_advance, ← hsplit]
      exact hrem
    · -- the effects of the loop are all reports, a wake-up is none
      have hall : (processed env conn).effects.filter Effect.isReport
          = (drain (frame env conn) conn.buffer.unread).1 := by
        rw [processed, heff, nil_append]
        exact filter_eq_self.mpr fun e he => isReport_of_mem_drain he
      rw [filter_append, hall]
      split
      · rw [filter_cons_of_neg (by simp [Effect.isReport]), filter_nil, append_nil]
      · rw [filter_nil, append_nil]

theorem doRead_eq (henv : env.FindsCRLF) : ∀ {chunks : List Bytes} {conn : Connection},
    (doRead env conn chunks).2.filter Effect.isReport
      = (feed (frame env conn) conn.buffer.unread chunks).1
        ++ if conn.onCloseCallback then [.close conn.connId] else [] := by
  intro chunks
  induction chunks with
  | nil =>
    intro conn
    rw [doRead, feed]
    cases conn.onCloseCallback with
    | false => rfl
    | true => rfl
  | cons chunk chunks ih =>
    intro conn
    -- whether the buffer is compacted before or after, the unread bytes are the same
    obtain ⟨b, hconn, hleft, heffects⟩ := processCommands_eq henv
      { conn with buffer := conn.buffer.compact.append chunk }
    rw [unread_append, unread_compact] at hleft heffects
    rw [doRead, feed]
    simp only [onRead]
    rw [filter_append, heffects, hconn, ih, hleft, ← append_assoc]
    rfl

/-- The commands enqueued and the errors replied to are those of the whole stream. -/
theorem doRead_flatten (henv : env.FindsCRLF) (workerId : ℕ) (connId : UInt64)
    (notifyCallback onCloseCallback : Bool) (chunks : List Bytes) :
    (doRead env (accept workerId connId notifyCallback onCloseCallback) chunks).2.filter
        Effect.isReport
      = (doRead env (accept workerId connId notifyCallback onCloseCallback)
        [chunks.flatten]).2.filter Effect.isReport := by
  have hidle : ∀ conn : Connection, drain (frame env conn) [] = ([], []) := fun _ => rfl
  rw [doRead_eq henv, doRead_eq henv]
  simp only [accept, unread_clear]
  rw [feed_eq_drain takes_frame (stable_frame henv) (hidle _),
    feed_eq_drain takes_frame (stable_frame henv) (hidle _), flatten_singleton]

theorem doRead_flatten_ping :
    (doRead simpleEnv (accept 0 7 true true)
        [[42, 49, 13], [10, 36, 49, 13, 10, 80], [13, 10]]).2.filter Effect.isReport
      = [.enqueue ⟨7, ⟨[80], []⟩, false, 0⟩, .close 7] := by
  rw [doRead_flatten simpleEnv_findsCRLF]
  rfl

/-- Nothing that could follow `b` would make it parse. -/
def Malformed (env : ParserEnv) (b : Bytes) : Prop :=
  ∀ s, (parse env (b ++ s)).1 = none ∧ (parseCommandFromArray env (b ++ s)).1 = none

/-- An error is replied and the buffer thrown away. -/
def ReportsError (env : ParserEnv) (conn : Connection) : Prop :=
  (∃ response, conn.sendResponseViaQueue response ∈ (processCommands env conn).2) ∧
    (processCommands env conn).1.buffer.unread = []

/-- Malformed input is kept as if it were incomplete. -/
theorem processCommands_malformed (hbad : Malformed env conn.buffer.unread) :
    ¬ ReportsError env conn ∧ (processCommands env conn).2 = [] ∧
      (processCommands env conn).1.buffer.unread = conn.buffer.unread := by
  have hnow := hbad []
  rw [append_nil] at hnow
  have hround : round env conn.buffer.unread = .incomplete :=
    round_of_none (Prod.ext hnow.2 rfl) (Prod.ext hnow.1 rfl)
  -- the loop is left in its first round, with nothing consumed
  have hloop : processed env conn = ⟨conn.buffer.unread, 0, false, false, []⟩ := by
    rw [processed]
    cases hlen : conn.buffer.unread.length with
    | zero => rfl
    | succ n =>
      rw [processLoop]
      split
      · rfl
      · rw [hround]
  have heffects : (processCommands env conn).2 = [] := by
    rw [processCommands]
    split
    · rfl
    · simp [hloop]
  refine ⟨?_, heffects, ?_⟩
  · rintro ⟨⟨response, hmem⟩, -⟩
    rw [heffects] at hmem
    cases hmem
  · rw [processCommands]
    split
    · next hend => exact (drop_eq_nil_of_le hend).symm
    · simp [hloop]

def withBuffer (b : Bytes) : Connection := ⟨0, 7, true, true, ⟨b, 0, Nat.zero_le _⟩⟩

theorem malformed_question : Malformed simpleEnv [63] := by
  intro s
  refine ⟨?_, rfl⟩
  rw [singleton_append, parse_cons]
  rfl

theorem processCommands_malformed_question :
    ¬ ReportsError simpleEnv (withBuffer [63]) ∧
      (processCommands simpleEnv (withBuffer [63])).2 = [] ∧
      (processCommands simpleEnv (withBuffer [63])).1.buffer.unread = [63] :=
  processCommands_malformed malformed_question

/-- The complete line of a bulk string of length `-2`, for which the client gets no reply. -/
theorem malformed_not_reported :
    Malformed simpleEnv [36, 45, 50, 13, 10] ∧
      ¬ ReportsError simpleEnv (withBuffer [36, 45, 50, 13, 10]) ∧
      (processCommands simpleEnv (withBuffer [36, 45, 50, 13, 10])).1.buffer.unread
        = [36, 45, 50, 13, 10] := by
  refine ⟨fun s => ⟨?_, rfl⟩, ?_, rfl⟩
  · have hnone : ∀ i, ¬ CRLF.CRLFAt [45, 50] i := CRLF.not_crlfAt_of_notMem (by decide)
    have happ : [36, 45, 50, 13, 10] ++ s
        = '$'.toUInt8 :: ([45, 50] ++ CRLF.cr :: CRLF.lf :: s) := rfl
    rw [happ, parse_line simpleEnv_findsCRLF rfl hnone]
    rfl
  · rintro ⟨⟨response, hmem⟩, -⟩
    cases hmem

end Connection
