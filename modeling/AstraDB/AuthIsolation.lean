/-
Authentication and the other connections.

Who is logged in is kept by worker, not by connection.  A connection is on its own all the
same as long as nobody else logs in on its worker and on those that its commands are
forwarded to, and nobody else changes the users.

* `decisions_agree` — the decisions are the same in all such runs, and without a login only the
  privileged commands are executed.
-/
import AstraDB.Standing

open Runs CommandRegistry List ServerConfig Function

variable {V : Type}

namespace ServerConfig

variable {cfg : ServerConfig V} {w : ℕ} {command : Command} {s s' s'' : WorkerCommandContext V}

section

variable (hcontrol : cfg.HasControl)
include hcontrol

theorem targetWorker_of_control
    (hname : controlCommands.contains (asciiStrToUpper command.name) = true) :
    cfg.targetWorker w command = w := by
  obtain ⟨query, others, hregistry⟩ := hcontrol
  rw [targetWorker, if_pos]
  rw [getRoutingStrategy, getInfo, hregistry]
  generalize asciiStrToUpper command.name = name at hname ⊢
  cases hentry : (withControl query cfg.keyVersion others).commands name with
  | none => rfl
  | some entry => exact (controlHandler_of_entry hname hentry).2

theorem quiet_of_forwarded (hcommand : cfg.Plain command)
    (hlocal : cfg.targetWorker w command ≠ w) : cfg.Quiet command := by
  rcases hcommand with hname | hquiet
  · exact absurd (targetWorker_of_control hcontrol hname) hlocal
  · exact hquiet

theorem queuedCommands_handler (hcommand : cfg.Plain command)
    {entry : CommandEntry (WorkerCommandContext V)}
    (hentry : cfg.registry.commands (asciiStrToUpper command.name) = some entry) (connId : UInt64)
    {queued : Command}
    (hmem : queued ∈ ((entry.handler command s).2.transactions connId).queuedCommands) :
    queued ∈ (s.transactions connId).queuedCommands := by
  rcases handler_effect hcontrol hcommand hentry s with heffect | ⟨-, -, htransactions⟩
  · generalize (entry.handler command s).2 = s' at heffect hmem
    cases heffect with
    | same | login | changeUsers => exact hmem
    | setTransaction t _ hqueued =>
      rw [s.transactions_setTransaction] at hmem
      split at hmem
      · next hconn =>
        rw [hconn]
        exact hqueued hmem
      · exact hmem
  · rwa [htransactions] at hmem

end

/-- Plain commands, which are quiet if they are forwarded, and users that are there. -/
def plainCommands (hcontrol : cfg.HasControl) : CommandInvariant cfg where
  atClient _ command := cfg.Plain command
  atTarget _ command := cfg.Quiet command
  shared _ aclManager := aclManager.isSome
  forward := quiet_of_forwarded hcontrol
  execute := by
    intro w command entry s hcommand hentry _ hsome
    have hplain : cfg.Plain command := by
      rcases hcommand with ⟨hplain, -⟩ | hquiet
      · exact hplain
      · exact .inr hquiet
    refine ⟨?_, fun connId _ => queuedCommands_handler hcontrol hplain hentry connId⟩
    rcases handler_effect hcontrol hplain hentry s with heffect | ⟨-, husers, -⟩
    · generalize (entry.handler command s).2 = s' at heffect ⊢
      cases heffect with
      | same | login | setTransaction => exact hsome
      | changeUsers => rfl
    · rw [husers]
      exact hsome

/-! ### Commands of other connections -/

/-- On a worker that is shared, the command is no login that succeeds; and it is no change of the
users that anybody is logged in for. -/
def Spares (shared : Prop) (s : WorkerCommandContext V) (command : Command) : Prop :=
  (shared → command.LoginFails s.aclManager) ∧
    (command.changesUsers = true → s.session.authenticated = false)

/-- The same, of all that the executor executes for a command of a client. -/
def SparesLocal (cfg : ServerConfig V) (shared : Prop) (w : ℕ) (command : Command)
    (s : WorkerCommandContext V) : Prop :=
  if s.transaction.inTransaction then
    isCommandName command.name (ascii "EXEC") = true →
      Along (cfg.queuedStep w) (Spares shared) s.discardTransaction s.transaction.queuedCommands
  else Spares shared s command

/-- What the standings of other connections depend on is as it was. -/
structure Undisturbed (shared : Prop) (s s' : WorkerCommandContext V) : Prop where
  session : shared → s'.session = s.session
  users : s'.aclManager = s.aclManager
  transactions : ∀ connId ≠ s.data.connectionId, s'.transactions connId = s.transactions connId
  connectionId : s'.data.connectionId = s.data.connectionId

variable {shared : Prop}

theorem Undisturbed.refl (s : WorkerCommandContext V) : Undisturbed shared s s :=
  ⟨fun _ => rfl, rfl, fun _ _ => rfl, rfl⟩

theorem Undisturbed.trans (h : Undisturbed shared s s') (h' : Undisturbed shared s' s'') :
    Undisturbed shared s s'' where
  session hshared := (h'.session hshared).trans (h.session hshared)
  users := h'.users.trans h.users
  transactions connId hne :=
    (h'.transactions connId (h.connectionId ▸ hne)).trans (h.transactions connId hne)
  connectionId := h'.connectionId.trans h.connectionId

theorem undisturbed_setTransaction (s : WorkerCommandContext V) (t : TransactionState) :
    Undisturbed shared s (s.setTransaction t) where
  session _ := rfl
  users := rfl
  transactions connId hne := by rw [s.transactions_setTransaction, if_neg hne]
  connectionId := rfl

theorem undisturbed_execute (hcontrol : cfg.HasControl) (hcommand : cfg.Plain command)
    (hsome : s.aclManager.isSome) (hspares : Spares shared s command) :
    Undisturbed shared s (cfg.execute command s).2.2 := by
  rcases cfg.execute_cases command s with ⟨-, heq⟩ | ⟨hexecuted, -⟩
  · rw [heq]
    exact .refl s
  · have hconn := cfg.connectionId_execute command s
    rcases execute_effect hcontrol hcommand s with heffect | ⟨hsession, husers, htransactions⟩
    · generalize (cfg.execute command s).2.2 = s' at heffect ⊢
      cases heffect with
      | same => exact .refl s
      | login hname husers hcredentials haccepted =>
        refine ⟨fun hshared => ?_, rfl, fun _ _ => rfl, rfl⟩
        rw [hspares.1 hshared hname _ _ _ husers hcredentials] at haccepted
        exact absurd haccepted Bool.false_ne_true
      | changeUsers m hchanges =>
        -- nobody is logged in, so it was not executed
        obtain ⟨m', husers⟩ := Option.isSome_iff_exists.mp hsome
        have hprivileged := privileged_of_executed husers (hspares.2 hchanges) hexecuted
        rw [Command.name_of_changesUsers hchanges] at hprivileged
        exact absurd hprivileged (by decide)
      | setTransaction t => exact undisturbed_setTransaction s t
    · exact ⟨fun _ => hsession, husers, fun connId _ => congrFun htransactions connId, hconn⟩

theorem spares_of_control (h : isTransactionControl command.name = true) :
    Spares shared s command := by
  rw [isTransactionControl_iff] at h
  constructor
  · intro _ hname
    rw [hname] at h
    exact absurd h (by decide)
  · intro hchanges
    rw [Command.name_of_changesUsers hchanges] at h
    exact absurd h (by decide)

theorem undisturbed_queued (hcontrol : cfg.HasControl) {queued : List Command}
    (hqueued : ∀ command ∈ queued, cfg.Plain command) (hsome : s.aclManager.isSome)
    (hspares : Along (cfg.queuedStep w) (Spares shared) s queued) :
    Undisturbed shared s (after (cfg.queuedStep w) s queued) := by
  refine after_invariant (Undisturbed shared s) (fun s' command hcommand hs' => ?_)
    (hspares.and_forall hqueued) (.refl s)
  rw [queuedStep]
  split
  · exact hs'
  · exact hs'.trans (undisturbed_execute hcontrol hcommand.2 (hs'.users ▸ hsome) hcommand.1)

theorem undisturbed_localStep (hcontrol : cfg.HasControl) (hcommand : cfg.Plain command)
    (hqueued : ∀ command ∈ s.transaction.queuedCommands, cfg.Plain command)
    (hsome : s.aclManager.isSome) (hspares : cfg.SparesLocal shared w command s) {response : Bytes}
    {decisions : List (Command × Decision)}
    (hstep : cfg.LocalStep w command s (.reply response decisions s')) :
    Undisturbed shared s s' := by
  rw [SparesLocal] at hspares
  cases hstep with
  | refused => exact .refl s
  | queued | aborted => exact undisturbed_setTransaction s _
  | exec _ hexec htransaction =>
    rw [if_pos htransaction] at hspares
    rw [executeQueued_context]
    exact (undisturbed_setTransaction s {}).trans
      (undisturbed_queued hcontrol hqueued hsome (hspares hexec))
  | direct htransaction =>
    refine undisturbed_execute hcontrol hcommand hsome ?_
    split at hspares
    · next hin => exact spares_of_control (htransaction hin)
    · exact hspares

end ServerConfig

namespace Server

/-! ### What a connection sees -/

/-- What the decisions about the commands of a connection of `w` depend on, where `W` are the
workers that execute them: its standing, who is logged in on the other workers, its commands in
the queue of `w` and in those of other workers, and the decisions so far. -/
@[ext]
structure View (W : Set ℕ) (w : ℕ) where
  standing : Standing
  elsewhere : {u // u ∈ W ∧ u ≠ w} → Session
  received : ℕ
  inbox : List Request
  away : ℕ → List Request
  log : List LogEntry

variable {W : Set ℕ} {w : ℕ} {connId : UInt64} {cfg : ServerConfig V}

def view (s : Server V) (W : Set ℕ) (w : ℕ) (connId : UInt64) : View W w where
  standing := ⟨(s.workers w).session, s.aclManager,
    ((s.workers w).transactions connId).inTransaction,
    ((s.workers w).transactions connId).queuedCommands⟩
  elsewhere u := (s.workers u).session
  received := (s.workers w).received connId
  inbox := (s.workers w).commands.filter (·.connId = connId)
  away u := ((s.workers u).forwarded w).filter (·.connId = connId)
  log := s.log.filter fun e => e.worker = w ∧ e.connId = connId

/-- What may happen to it, with the commands that are received. -/
inductive View.Move (cfg : ServerConfig V) (connId : UInt64) :
    View W w → List Command → View W w → Prop
  | stay (v : View W w) : Move cfg connId v [] v
  | receive (v : View W w) (command : Command) (hcommand : cfg.Plain command)
      (htarget : cfg.targetWorker w command ∈ W) :
    Move cfg connId v [command] { v with
      received := v.received + 1
      inbox := v.inbox ++ [⟨connId, v.received, command⟩] }
  | reply (v : View W w) (r : Request) (rest : List Request) (hinbox : v.inbox = r :: rest) :
    Move cfg connId v [] { v with
      standing := (cfg.perform w v.standing r.command).2
      inbox := rest
      log := v.log ++ [⟨w, connId, r.seq, (cfg.perform w v.standing r.command).1⟩] }
  | forward (v : View W w) (r : Request) (rest : List Request) (hinbox : v.inbox = r :: rest)
      (hlocal : cfg.targetWorker w r.command ≠ w)
      (hperform : cfg.perform w v.standing r.command =
        ([(r.command, cfg.decision r.command ⟨v.standing.aclManager, false, []⟩)], v.standing)) :
    Move cfg connId v [] { v with
      inbox := rest
      away := update v.away (cfg.targetWorker w r.command)
        (v.away (cfg.targetWorker w r.command) ++ [r]) }
  | answer (v : View W w) (u : ℕ) (r : Request) (rest : List Request) (haway : v.away u = r :: rest)
      (context : CommandContext) (husers : context.aclManager = v.standing.aclManager)
      (hsession : ∀ hu, context.authenticated = (v.elsewhere ⟨u, hu⟩).authenticated) :
    Move cfg connId v [] { v with
      away := update v.away u rest
      log := v.log ++ [⟨w, connId, r.seq, [(r.command, cfg.decision r.command context)]⟩] }

/-- The decisions so far, and those to come, are those of a connection of its own. -/
structure Isolated (cfg : ServerConfig V) (m : AclManager) (v : View W w) (history : List Command) :
    Prop where
  received : v.received = history.length
  commands : ∀ command ∈ history, cfg.Plain command ∧ cfg.targetWorker w command ∈ W
  taken : ∃ done, history = done ++ v.inbox.map (·.command) ∧
    v.inbox.map (·.seq) = List.range' done.length v.inbox.length ∧
    v.standing = cfg.performAll w (.anonymous m) done
  elsewhere : ∀ u, v.elsewhere u = {}
  away : ∀ u, ∀ r ∈ v.away u, (u ∈ W ∧ u ≠ w) ∧ ∃ m',
    cfg.decisionsAt w (.anonymous m) history r.seq =
      some [(r.command, cfg.decision r.command ⟨some m', false, []⟩)]
  log : ∀ e ∈ v.log, cfg.decisionsAt w (.anonymous m) history e.seq = some e.decisions

variable {m : AclManager} {v v' : View W w} {history new : List Command}

variable {r : Request} {rest : List Request} {u : ℕ} {context : WorkerCommandContext V}

theorem Isolated.next (h : Isolated cfg m v history) (hinbox : v.inbox = r :: rest) :
    cfg.targetWorker w r.command ∈ W ∧
      cfg.decisionsAt w (.anonymous m) history r.seq =
        some (cfg.perform w v.standing r.command).1 ∧
      ∃ done, history = done ++ rest.map (·.command) ∧
        rest.map (·.seq) = List.range' done.length rest.length ∧
        (cfg.perform w v.standing r.command).2 = cfg.performAll w (.anonymous m) done := by
  obtain ⟨done, hhistory, hseq, hstanding⟩ := h.taken
  rw [hinbox, map_cons] at hhistory hseq
  rw [length_cons, range'_succ, List.cons.injEq] at hseq
  refine ⟨(h.commands r.command ?_).2, ?_, done ++ [r.command], ?_, ?_, ?_⟩
  · rw [hhistory]
    exact mem_append_right _ mem_cons_self
  · rw [hhistory, hseq.1, decisionsAt, List.getElem?_append_right le_rfl, Nat.sub_self,
      List.getElem?_cons_zero, Option.map_some, take_left, hstanding]
  · rw [hhistory, append_assoc, singleton_append]
  · rw [length_append, length_singleton]
    exact hseq.2
  · rw [hstanding, performAll, performAll, after_append]
    rfl

theorem Isolated.move (h : Isolated cfg m v history) (husers : v.standing.aclManager.isSome)
    (hmove : View.Move cfg connId v new v') : Isolated cfg m v' (history ++ new) := by
  cases hmove with
  | stay =>
    rw [append_nil]
    exact h
  | receive command hcommand htarget =>
    obtain ⟨done, hhistory, hseq, hstanding⟩ := h.taken
    refine ⟨?_, ?_, ⟨done, ?_, ?_, hstanding⟩, h.elsewhere, ?_, ?_⟩
    · rw [length_append, ← h.received]
      rfl
    · intro command' hmem
      rcases mem_append.mp hmem with hmem | hmem
      · exact h.commands command' hmem
      · rw [mem_singleton.mp hmem]
        exact ⟨hcommand, htarget⟩
    · rw [map_append, ← append_assoc, ← hhistory]
      rfl
    · have hlength : v.received = done.length + v.inbox.length := by
        rw [h.received, hhistory, length_append, length_map]
      rw [map_append, hseq, length_append, length_singleton, range'_1_concat,
        ← hlength]
      rfl
    · intro u r hmem
      obtain ⟨hu, m', hdecisions⟩ := h.away u r hmem
      exact ⟨hu, m', decisionsAt_append hdecisions _⟩
    · intro e hmem
      exact decisionsAt_append (h.log e hmem) _
  | reply r rest hinbox =>
    obtain ⟨-, hdecisions, htaken⟩ := h.next hinbox
    rw [append_nil]
    refine ⟨h.received, h.commands, htaken, h.elsewhere, h.away, fun e hmem => ?_⟩
    rcases mem_append.mp hmem with hmem | hmem
    · exact h.log e hmem
    · rw [mem_singleton.mp hmem]
      exact hdecisions
  | forward r rest hinbox hlocal hperform =>
    obtain ⟨htarget, hdecisions, htaken⟩ := h.next hinbox
    obtain ⟨m', hm'⟩ := Option.isSome_iff_exists.mp husers
    rw [hperform] at hdecisions htaken
    rw [append_nil]
    refine ⟨h.received, h.commands, htaken, h.elsewhere, fun u r' hmem => ?_, h.log⟩
    dsimp only at hmem
    rw [update_apply] at hmem
    split at hmem
    · next hu =>
      subst hu
      rcases mem_append.mp hmem with hmem | hmem
      · exact h.away _ r' hmem
      · rw [mem_singleton.mp hmem]
        refine ⟨⟨htarget, hlocal⟩, m', ?_⟩
        rw [hdecisions, hm']
    · exact h.away u r' hmem
  | answer u r rest haway context hcontext hsession =>
    obtain ⟨hu, m', hdecisions⟩ := h.away u r (haway ▸ mem_cons_self)
    obtain ⟨m'', hm''⟩ := Option.isSome_iff_exists.mp husers
    rw [append_nil]
    refine ⟨h.received, h.commands, h.taken, h.elsewhere, fun u' r' hmem => ?_, fun e hmem => ?_⟩
    · dsimp only at hmem
      rw [update_apply] at hmem
      split at hmem
      · next hu' =>
        subst hu'
        exact h.away _ r' (haway ▸ mem_cons_of_mem r hmem)
      · exact h.away u' r' hmem
    · rcases mem_append.mp hmem with hmem | hmem
      · exact h.log e hmem
      · rw [mem_singleton.mp hmem]
        have hanonymous : context.authenticated = false := by
          rw [hsession hu, h.elsewhere]
        rw [hdecisions, decision_anonymous (hcontext.trans hm'') hanonymous m']

/-! ### The steps -/

def sentBy (w : ℕ) (connId : UInt64) : Label → List Command
  | .receive u connId' command => if u = w ∧ connId' = connId then [command] else []
  | _ => []

/-- The step leaves a connection of `w` to itself, where `W` are the workers that execute its
commands: all commands are plain, and its own stay within `W`; its transaction is not aborted; the
commands of others do not change who is logged in on these workers, nor the users. -/
def Apart (cfg : ServerConfig V) (W : Set ℕ) (w : ℕ) (connId : UInt64) (s : Server V) : Label → Prop
  | .receive u connId' command =>
    cfg.Plain command ∧ (u = w ∧ connId' = connId → cfg.targetWorker w command ∈ W)
  | .executeLocal u => ∀ r rest, (s.workers u).commands = r :: rest →
    let context := (s.modify u (·.take r rest)).context u
    if u = w ∧ r.connId = connId then cfg.aborts r.command context = false
    else cfg.SparesLocal (u ∈ W) u r.command context
  | .close u connId' => ¬(u = w ∧ connId' = connId)
  | _ => True

variable {s : Server V}

theorem view_modify (hw : w ∈ W) (f : Worker → Worker)
    (hsession : u ∈ W → (f (s.workers u)).session = (s.workers u).session) (hworker : u = w →
      (f (s.workers u)).transactions connId = (s.workers u).transactions connId ∧
      (f (s.workers u)).received connId = (s.workers u).received connId ∧
      (f (s.workers u)).commands.filter (·.connId = connId) =
        (s.workers u).commands.filter (·.connId = connId))
    (hforwarded : ((f (s.workers u)).forwarded w).filter (·.connId = connId) =
      ((s.workers u).forwarded w).filter (·.connId = connId)) :
    (s.modify u f).view W w connId = s.view W w connId := by
  have hsession' : ∀ u' ∈ W, ((s.modify u f).workers u').session = (s.workers u').session := by
    intro u' hu'
    rw [workers_modify]
    split
    · next h =>
      subst h
      exact hsession hu'
    · rfl
  obtain ⟨htransactions, hreceived, hcommands⟩ :
      ((s.modify u f).workers w).transactions connId = (s.workers w).transactions connId ∧
      ((s.modify u f).workers w).received connId = (s.workers w).received connId ∧
      ((s.modify u f).workers w).commands.filter (·.connId = connId) =
        (s.workers w).commands.filter (·.connId = connId) := by
    rw [workers_modify]
    split
    · next h =>
      subst h
      exact hworker rfl
    · exact ⟨rfl, rfl, rfl⟩
  rw [view, htransactions, hreceived, hcommands, hsession' w hw]
  refine View.ext rfl (funext fun u' => hsession' u' u'.2.1) rfl rfl (funext fun u' => ?_) rfl
  dsimp only
  rw [workers_modify]
  split
  · next h =>
    subst h
    exact hforwarded
  · rfl

theorem view_putContext (hw : w ∈ W) (tag : UInt64 → Option ℕ)
    (husers : context.aclManager = s.aclManager)
    (hsession : u ∈ W → context.session = (s.workers u).session)
    (htransactions : u = w → context.transactions connId = (s.workers u).transactions connId) :
    (s.putContext u tag context).view W w connId = s.view W w connId := by
  have hmodify : (s.modify u (·.putContext tag context)).view W w connId = s.view W w connId :=
    view_modify hw _ hsession (fun hu => ⟨htransactions hu, rfl, rfl⟩) rfl
  rw [← hmodify, putContext, husers]
  rfl

theorem view_record {e : LogEntry} (he : ¬(e.worker = w ∧ e.connId = connId)) :
    (s.record e).view W w connId = s.view W w connId := by
  rw [view, record, filter_append, filter_cons_of_neg (by simpa using he),
    filter_nil, append_nil]
  rfl

theorem move_of_view_eq {s' : Server V} (h : s'.view W w connId = s.view W w connId) :
    View.Move cfg connId (s.view W w connId) [] (s'.view W w connId) := by
  rw [h]
  exact .stay _

theorem view_receive (s : Server V) (command : Command) :
    (s.modify w (·.receive connId command)).view W w connId =
      { s.view W w connId with
        received := (s.view W w connId).received + 1
        inbox := (s.view W w connId).inbox ++
          [⟨connId, (s.view W w connId).received, command⟩] } := by
  refine View.ext ?_ (funext fun u => ?_) ?_ ?_ (funext fun u => ?_) rfl
  · simp [view, Worker.receive]
  · simp [view, u.2.2]
  · simp [view, Worker.receive]
  · simp [view, Worker.receive]
  · by_cases hu : u = w <;> simp [view, Worker.receive, hu]

theorem view_take (s : Server V) (r : Request) (rest : List Request) :
    (s.modify w (·.take r rest)).view W w connId =
      { s.view W w connId with inbox := rest.filter (·.connId = connId) } := by
  refine View.ext ?_ (funext fun u => ?_) ?_ ?_ (funext fun u => ?_) rfl
  · simp [view, Worker.take]
  · simp [view, u.2.2]
  · simp [view, Worker.take]
  · simp [view, Worker.take]
  · by_cases hu : u = w <;> simp [view, Worker.take, hu]

theorem view_setForwarded (s : Server V) (target : ℕ) (requests : List Request) :
    (s.modify target (·.setForwarded w requests)).view W w connId =
      { s.view W w connId with
        away := update (s.view W w connId).away target
          (requests.filter (·.connId = connId)) } := by
  refine View.ext ?_ (funext fun u => ?_) ?_ ?_ (funext fun u => ?_) rfl
  · by_cases hw : w = target <;> simp [view, Worker.setForwarded, hw]
  · by_cases hu : u = target <;> simp [view, Worker.setForwarded, hu]
  · by_cases hw : w = target <;> simp [view, Worker.setForwarded, hw]
  · by_cases hw : w = target <;> simp [view, Worker.setForwarded, hw]
  · by_cases hu : u = target <;> simp [view, Worker.setForwarded, hu]

theorem view_forward (s : Server V) (r : Request) (target : ℕ) :
    (s.finishLocal w r (.forward target)).view W w r.connId =
      { s.view W w r.connId with
        away := update (s.view W w r.connId).away target
          ((s.view W w r.connId).away target ++ [r]) } := by
  refine (view_setForwarded s target ((s.workers target).forwarded w ++ [r])).trans ?_
  have haway : ((s.workers target).forwarded w ++ [r]).filter (·.connId = r.connId) =
      (s.view W w r.connId).away target ++ [r] := by
    simp [view]
  rw [haway]

theorem view_record_own (s : Server V) (seq : ℕ) (decisions : List (Command × Decision)) :
    (s.record ⟨w, connId, seq, decisions⟩).view W w connId =
      { s.view W w connId with
        log := (s.view W w connId).log ++ [⟨w, connId, seq, decisions⟩] } := by
  simp [view, record]

theorem view_putContext_own (s : Server V) (tag : UInt64 → Option ℕ)
    (hconn : context.data.connectionId = connId) : (s.putContext w tag context).view W w connId =
      { s.view W w connId with standing := context.standing } := by
  refine View.ext ?_ (funext fun u => ?_) ?_ ?_ (funext fun u => ?_) rfl
  · simp [view, putContext, Worker.putContext, WorkerCommandContext.standing,
      WorkerCommandContext.transaction, hconn]
  · simp [view, putContext, u.2.2]
  · simp [view, putContext, Worker.putContext]
  · simp [view, putContext, Worker.putContext]
  · by_cases hu : u = w <;> simp [view, putContext, Worker.putContext, hu]

theorem view_respond (hw : w ∈ W) (u : ℕ) (response : Response) :
    (s.modify u (·.respond response)).view W w connId = s.view W w connId :=
  view_modify hw _ (fun _ => rfl) (fun _ => ⟨rfl, rfl, rfl⟩) rfl

theorem view_of_movesResponses (hw : w ∈ W) {label : Label} (hlabel : label.movesResponses = true) :
    (s.step cfg label).view W w connId = s.view W w connId := by
  obtain ⟨u, worker, hsame, hstep⟩ := step_of_movesResponses cfg s hlabel
  rw [hstep]
  refine view_modify hw _ (fun _ => hsame.session) (fun _ => ?_) ?_
  · rw [hsame.transactions, hsame.received, hsame.commands]
    exact ⟨rfl, rfl, rfl⟩
  · rw [hsame.forwarded]

theorem connectionId_localStep {command : Command} {context' : WorkerCommandContext V}
    {response : Bytes} {decisions : List (Command × Decision)}
    (h : cfg.LocalStep u command context (.reply response decisions context')) :
    context'.data.connectionId = context.data.connectionId := by
  cases h with
  | refused | queued | aborted => rfl
  | exec =>
    rw [executeQueued_context]
    refine after_invariant (fun context' : WorkerCommandContext V =>
      context'.data.connectionId = context.data.connectionId)
      (fun context' command _ h => ?_) (along_true _ _) rfl
    rw [ServerConfig.queuedStep]
    split
    · exact h
    · rw [cfg.connectionId_execute]
      exact h
  | direct => exact cfg.connectionId_execute command context

variable {hcontrol : cfg.HasControl}

section

variable (hw : w ∈ W) (hholds : (cfg.plainCommands hcontrol).Holds s)
include hw hholds

theorem view_executeLocal_own (hcommands : (s.workers w).commands = r :: rest)
    (haborts : cfg.aborts r.command ((s.modify w (·.take r rest)).context w) = false) :
    View.Move cfg r.connId (s.view W w r.connId) []
      ((s.executeLocal cfg w).view W w r.connId) := by
  obtain ⟨hplain, htake⟩ := hholds.take hcommands
  have hinbox : (s.view W w r.connId).inbox = r :: rest.filter (·.connId = r.connId) := by
    simp [view, hcommands]
  have hperform := processLocal_perform hcontrol (w := w) hplain
    ((htake.context w).queued _) haborts
  -- the standing that a handler finds is the one that the connection sees
  have hstanding : ((s.modify w (·.take r rest)).context w).standing =
      (s.view W w r.connId).standing := by
    rw [context_take]
    rfl
  rw [hstanding] at hperform
  have hstep := cfg.localStep_processLocal w r.command ((s.modify w (·.take r rest)).context w)
  have hconn : ((s.modify w (·.take r rest)).context w).data.connectionId = r.connId := by
    rw [context_take]
  simp only [executeLocal, hcommands]
  generalize cfg.processLocal w r.command ((s.modify w (·.take r rest)).context w) = outcome
    at hperform hstep ⊢
  cases outcome with
  | forward target =>
    cases hstep with
    | forward hlocal =>
      rw [view_forward, view_take]
      exact .forward _ r _ hinbox hlocal hperform
  | reply response decisions context =>
    have hview : (((s.modify w (·.take r rest)).finishLocal w r
        (.reply response decisions context)).view W w r.connId) =
        { s.view W w r.connId with
          standing := context.standing
          inbox := rest.filter (·.connId = r.connId)
          log := (s.view W w r.connId).log ++ [⟨w, r.connId, r.seq, decisions⟩] } := by
      rw [finishLocal, view_record_own, view_respond hw,
        view_putContext_own _ _ ((connectionId_localStep hstep).trans hconn), view_take]
    have hmove : View.Move cfg r.connId (s.view W w r.connId) [] _ := .reply _ r _ hinbox
    rw [hperform] at hmove
    rw [hview]
    exact hmove

theorem view_executeLocal_other
    (hcommands : (s.workers u).commands = r :: rest) (hother : ¬(u = w ∧ r.connId = connId))
    (hspares : cfg.SparesLocal (u ∈ W) u r.command ((s.modify u (·.take r rest)).context u)) :
    (s.executeLocal cfg u).view W w connId = s.view W w connId := by
  obtain ⟨hplain, htake⟩ := hholds.take hcommands
  have hview : (s.modify u (·.take r rest)).view W w connId = s.view W w connId := by
    refine view_modify hw _ (fun _ => rfl) (fun hu => ⟨rfl, rfl, ?_⟩) rfl
    rw [hcommands, filter_cons_of_neg]
    · rfl
    · simpa using fun hr => hother ⟨hu, hr⟩
  have hstep := cfg.localStep_processLocal u r.command ((s.modify u (·.take r rest)).context u)
  have hconn : ((s.modify u (·.take r rest)).context u).data.connectionId = r.connId := by
    rw [context_take]
  simp only [executeLocal, hcommands]
  generalize cfg.processLocal u r.command ((s.modify u (·.take r rest)).context u) = outcome
    at hstep ⊢
  cases outcome with
  | forward target =>
    rw [← hview]
    refine view_modify hw (fun worker => worker.setForwarded u (worker.forwarded u ++ [r]))
      (fun _ => rfl) (fun _ => ⟨rfl, rfl, rfl⟩) ?_
    by_cases hu : w = u
    · subst hu
      simpa [Worker.setForwarded] using fun hr => hother ⟨rfl, hr⟩
    · simp [Worker.setForwarded, hu]
  | reply response decisions context =>
    have hundisturbed := undisturbed_localStep hcontrol hplain
      ((htake.context u).queued _) (htake.context u).shared hspares hstep
    rw [finishLocal, view_record hother, view_respond hw,
      view_putContext hw _ hundisturbed.users hundisturbed.session, hview]
    rintro rfl
    exact hundisturbed.transactions connId fun h => hother ⟨rfl, (h.trans hconn).symm⟩

end

theorem execute_quiet {command : Command} (hquiet : cfg.Quiet command)
    (context : WorkerCommandContext V) :
    (cfg.execute command context).2.2.session = context.session ∧
      (cfg.execute command context).2.2.aclManager = context.aclManager ∧
      (cfg.execute command context).2.2.transactions = context.transactions := by
  rcases cfg.execute_cases command context with ⟨-, heq⟩ | ⟨-, entry, haccept, heq⟩
  · rw [heq]
    exact ⟨rfl, rfl, rfl⟩
  · rw [heq]
    exact hquiet entry (accept_eq_ok.mp haccept).2.1 context

section

variable (hw : w ∈ W) (hholds : (cfg.plainCommands hcontrol).Holds s)
include hw hholds

theorem view_executeForwarded (u source : ℕ) : View.Move cfg connId (s.view W w connId) []
      ((s.executeForwarded cfg u source).view W w connId) := by
  rw [executeForwarded]
  cases hforwarded : (s.workers u).forwarded source with
  | nil => exact .stay _
  | cons r rest =>
    have hquiet : cfg.Quiet r.command :=
      hholds.forwarded u source r (hforwarded ▸ mem_cons_self)
    obtain ⟨hsession, husers, htransactions⟩ :=
      execute_quiet hquiet ((s.modify u (·.setForwarded source rest)).context u)
    dsimp only
    by_cases hown : source = w ∧ r.connId = connId
    · obtain ⟨rfl, rfl⟩ := hown
      have haway : (s.view W source r.connId).away u = r :: rest.filter (·.connId = r.connId) := by
        simp [view, hforwarded]
      rw [view_record_own, view_modify hw _ (fun _ => rfl) (fun _ => ⟨rfl, rfl, rfl⟩) rfl,
        view_putContext hw _ husers (fun _ => hsession) fun _ => congrFun htransactions _,
        view_setForwarded]
      refine .answer _ u r _ haway
        ((s.modify u (·.setForwarded source rest)).context u).toCommandContext rfl fun hu => ?_
      simp [WorkerCommandContext.toCommandContext, context, view, Worker.setForwarded]
    · refine move_of_view_eq ?_
      rw [view_record hown, view_modify hw _ (fun _ => rfl) (fun _ => ⟨rfl, rfl, rfl⟩) rfl,
        view_putContext hw _ husers (fun _ => hsession) fun _ => congrFun htransactions connId]
      refine view_modify hw _ (fun _ => rfl) (fun _ => ⟨rfl, rfl, rfl⟩) ?_
      by_cases hsource : w = source
      · have hr : r.connId ≠ connId := fun hr => hown ⟨hsource.symm, hr⟩
        simp [Worker.setForwarded, hsource, hforwarded, hr]
      · simp [Worker.setForwarded, hsource]

theorem view_step {label : Label} (hlabel : Apart cfg W w connId s label) :
    View.Move cfg connId (s.view W w connId) (sentBy w connId label)
      ((s.step cfg label).view W w connId) := by
  cases label with
  | receive u connId' command =>
    rw [sentBy]
    split
    · next hown =>
      obtain ⟨rfl, rfl⟩ := hown
      rw [step, view_receive]
      exact .receive _ command hlabel.1 (hlabel.2 ⟨rfl, rfl⟩)
    · next hother =>
      refine move_of_view_eq (view_modify hw (·.receive connId' command) (fun _ => rfl)
        (fun hu => ?_) rfl)
      have hconn : connId' ≠ connId := fun h => hother ⟨hu, h⟩
      simp [Worker.receive, hconn, hconn.symm]
  | executeLocal u =>
    show View.Move cfg connId _ [] ((s.executeLocal cfg u).view W w connId)
    cases hcommands : (s.workers u).commands with
    | nil =>
      rw [executeLocal, hcommands]
      exact .stay _
    | cons r rest =>
      have hcommand := hlabel r rest hcommands
      dsimp only at hcommand
      split at hcommand
      · next hown =>
        obtain ⟨rfl, rfl⟩ := hown
        exact view_executeLocal_own hw hholds hcommands hcommand
      · next hother =>
        exact move_of_view_eq (view_executeLocal_other hw hholds hcommands hother hcommand)
  | executeForwarded u source => exact view_executeForwarded hw hholds u source
  | close u connId' =>
    refine move_of_view_eq (view_modify hw (·.close connId') (fun _ => rfl)
      (fun hu => ⟨?_, rfl, rfl⟩) rfl)
    exact update_of_ne (fun h => hlabel ⟨hu, h.symm⟩) _ _
  | reject | relay | publish | deliver | deliverOwn =>
    exact move_of_view_eq (view_of_movesResponses hw rfl)

end

theorem isolated_after (hcontrol : cfg.HasControl) (hw : w ∈ W) (m : AclManager)
    {labels : List Label}
    (hlabels : Along (step cfg) (Apart cfg W w connId) (init (some m)) labels) :
    Isolated cfg m ((after (step cfg) (init (some m)) labels).view W w connId)
      (labels.flatMap (sentBy w connId)) := by
  have hinit : (cfg.plainCommands hcontrol).Holds (init (some m) : Server V) ∧
      Isolated cfg m ((init (some m) : Server V).view W w connId) [] :=
    ⟨CommandInvariant.holds_init _ rfl,
      ⟨rfl, nofun, ⟨[], rfl, rfl, rfl⟩, fun _ => rfl, fun _ => nofun, nofun⟩⟩
  refine (after_invariant_history (sentBy w connId)
    (fun s history => (cfg.plainCommands hcontrol).Holds s ∧
      Isolated cfg m (s.view W w connId) history)
    (fun s history label hlabel hs => ⟨hs.1.step ?_, ?_⟩) hlabels hinit).2
  · cases label with
    | receive => exact hlabel.1
    | _ => trivial
  · exact hs.2.move (hs.1.context w).shared (view_step hw hs.1 hlabel)

/-- The decisions about the commands of a connection, by the numbers of these. -/
def decisions (s : Server V) (w : ℕ) (connId : UInt64) : List (ℕ × List (Command × Decision)) :=
  (s.log.filter fun e => e.worker = w ∧ e.connId = connId).map fun e => (e.seq, e.decisions)

theorem Isolated.decisionsAt (h : Isolated cfg m (s.view W w connId) history) {seq : ℕ}
    {d : List (Command × Decision)} (hd : (seq, d) ∈ s.decisions w connId) :
    cfg.decisionsAt w (.anonymous m) history seq = some d := by
  obtain ⟨e, hmem, heq⟩ := mem_map.mp hd
  cases heq
  exact h.log e hmem

/-- What is decided about the commands of a connection is the same in any two runs where it is
left to itself and sends the same commands; without a login, only the privileged commands are
executed. -/
theorem decisions_agree (cfg : ServerConfig V) (hcontrol : cfg.HasControl) (m : AclManager)
    (W : Set ℕ) (w : ℕ) (hw : w ∈ W) (connId : UInt64) (labels labels' : List Label)
    (hlabels : Along (step cfg) (Apart cfg W w connId) (init (some m)) labels)
    (hlabels' : Along (step cfg) (Apart cfg W w connId) (init (some m)) labels')
    (hsent : labels.flatMap (sentBy w connId) = labels'.flatMap (sentBy w connId)) :
    (∀ seq d d', (seq, d) ∈ (after (step cfg) (init (some m)) labels).decisions w connId →
      (seq, d') ∈ (after (step cfg) (init (some m)) labels').decisions w connId → d = d') ∧
    ((∀ command ∈ labels.flatMap (sentBy w connId), command.LoginFails (some m)) →
      ∀ seq d, (seq, d) ∈ (after (step cfg) (init (some m)) labels).decisions w connId →
        ∀ decided ∈ d, decided.2 = .executed →
          CommandContext.privilegedCommands.contains (asciiStrToUpper decided.1.name) = true) := by
  have hisolated := isolated_after hcontrol hw m hlabels
  have hisolated' := isolated_after hcontrol hw m hlabels'
  refine ⟨fun seq d d' hd hd' => ?_, fun hlogin seq d hd => ?_⟩
  · have heq := hisolated'.decisionsAt hd'
    rw [← hsent, hisolated.decisionsAt hd] at heq
    exact Option.some.inj heq
  · exact decisionsAt_anonymous hcontrol
      (fun command hmem => ⟨(hisolated.commands command hmem).1, hlogin command hmem⟩)
      (hisolated.decisionsAt hd)

/-- Somebody logs in on another worker. -/
theorem decisions_agree_exists :
    let auth : Command := ⟨ascii "AUTH", [⟨.kBulkString, ascii "default"⟩]⟩
    let command : Command := ⟨ascii "EXISTS", [⟨.kBulkString, ascii "b"⟩]⟩
    let s := after (step (sampleConfig 2)) (init (some .init))
      [.receive 1 8 auth, .executeLocal 1, .receive 0 7 command, .executeLocal 0]
    let s' := after (step (sampleConfig 2)) (init (some .init))
      [.receive 0 7 command, .executeLocal 0]
    (s.workers 1).session = ⟨true, ascii "default"⟩ ∧
      s.decisions 0 7 = [(0, [(command, .refused .noCommandPermission)])] ∧
      (∀ seq d d', (seq, d) ∈ s.decisions 0 7 → (seq, d') ∈ s'.decisions 0 7 → d = d') ∧
      ∀ seq d, (seq, d) ∈ s.decisions 0 7 → ∀ decided ∈ d, decided.2 = .executed →
        CommandContext.privilegedCommands.contains (asciiStrToUpper decided.1.name) = true := by
  intro auth command
  have hplain : (sampleConfig 2).Plain command := by
    refine .inr fun entry hentry s => ?_
    cases hentry
    exact ⟨rfl, rfl, rfl⟩
  have hreceive : ∀ s : Server Bytes, Apart (sampleConfig 2) {0} 0 7 s (.receive 0 7 command) :=
    fun _ => ⟨hplain, fun _ => by decide +kernel⟩
  have hexists : ∀ s : Server Bytes, (s.workers 0).commands = [⟨7, 0, command⟩] →
      Apart (sampleConfig 2) {0} 0 7 s (.executeLocal 0) := by
    intro s hs r rest hcommands
    rw [hs] at hcommands
    cases hcommands
    rfl
  have hauth : ∀ s : Server Bytes, Apart (sampleConfig 2) {0} 0 7 s (.receive 1 8 auth) :=
    fun _ => ⟨.inl (by decide +kernel), fun h => absurd h.1 (by decide)⟩
  have hlogin : ∀ s : Server Bytes, (s.workers 1).commands = [⟨8, 0, auth⟩] →
      ((s.workers 1).transactions 8).inTransaction = false →
      Apart (sampleConfig 2) {0} 0 7 s (.executeLocal 1) := by
    intro s hs htransaction r rest hcommands
    rw [hs] at hcommands
    cases hcommands
    rw [context_take]
    dsimp only
    rw [if_neg (by decide), ServerConfig.SparesLocal, if_neg]
    · exact ⟨fun h => absurd h (by decide), fun h => absurd h (by decide)⟩
    · exact fun h => Bool.false_ne_true (htransaction.symm.trans h)
  refine ⟨by decide +kernel, by decide +kernel, ?_⟩
  have hagree := decisions_agree (sampleConfig 2) ⟨_, _, rfl⟩ .init {0} 0 rfl 7
    [.receive 1 8 auth, .executeLocal 1, .receive 0 7 command, .executeLocal 0]
    [.receive 0 7 command, .executeLocal 0]
    ⟨hauth _, hlogin _ rfl rfl, hreceive _, hexists _ rfl, trivial⟩
    ⟨hreceive _, hexists _ rfl, trivial⟩ rfl
  refine ⟨hagree.1, hagree.2 fun sent hmem hname => ?_⟩
  rw [show sent = command from mem_singleton.mp hmem] at hname
  exact absurd hname (by decide)

/-- Somebody logs in on the same worker: a connection without a login may then do the same. -/
theorem decisions_differ :
    let auth : Command := ⟨ascii "AUTH", [⟨.kBulkString, ascii "default"⟩]⟩
    let command : Command := ⟨ascii "EXISTS", [⟨.kBulkString, ascii "b"⟩]⟩
    let s := after (step (sampleConfig 2)) (init (some .init))
      [.receive 0 8 auth, .executeLocal 0, .receive 0 7 command, .executeLocal 0]
    let s' := after (step (sampleConfig 2)) (init (some .init))
      [.receive 0 7 command, .executeLocal 0]
    s.decisions 0 7 = [(0, [(command, .executed)])] ∧
      s'.decisions 0 7 = [(0, [(command, .refused .noCommandPermission)])] := by
  decide +kernel

end Server
