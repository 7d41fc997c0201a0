/-
What holds of the commands on their way through the workers.

A command is put into the queue of its worker; it may be queued again by a transaction, or
forwarded, before it is executed.  A `CommandInvariant` is a condition on the commands that are
received and one on what the workers share, which executing such commands keeps.

* `CommandInvariant.Holds.step`, `CommandInvariant.holds_after` — then all commands in all
  queues meet their condition, and so does what is shared, in every state.
-/
import AstraDB.Worker

open List

variable {V : Type}

/-- The conditions, and what executing a command has to keep. -/
structure CommandInvariant (cfg : ServerConfig V) where
  /-- of a command at the worker of its connection -/
  atClient : ℕ → Command → Prop
  /-- of a command at the worker that it was forwarded to -/
  atTarget : ℕ → Command → Prop
  /-- of the databases and the users -/
  shared : (ℕ → Bytes → Option V) → Option AclManager → Prop
  forward : ∀ {w command}, atClient w command → cfg.targetWorker w command ≠ w →
    atTarget (cfg.targetWorker w command) command
  /-- handlers queue no commands; only the executor does -/
  execute : ∀ {w command entry} {s : WorkerCommandContext V},
    (atClient w command ∧ cfg.targetWorker w command = w) ∨ atTarget w command →
    cfg.registry.commands (asciiStrToUpper command.name) = some entry → s.data.self = w →
    shared s.data.databases s.aclManager →
    shared (entry.handler command s).2.data.databases (entry.handler command s).2.aclManager ∧
      ∀ connId, ∀ queued ∈ ((entry.handler command s).2.transactions connId).queuedCommands,
        queued ∈ (s.transactions connId).queuedCommands

namespace CommandInvariant

open Runs Server

variable {cfg : ServerConfig V} (inv : CommandInvariant cfg)

/-- What holds of the context of the worker `w` at any time. -/
structure Context (w : ℕ) (s : WorkerCommandContext V) : Prop where
  self_eq : s.data.self = w
  shared : inv.shared s.data.databases s.aclManager
  queued : ∀ connId, ∀ command ∈ (s.transactions connId).queuedCommands, inv.atClient w command

variable {inv} {w : ℕ} {s : WorkerCommandContext V}

section

variable (h : inv.Context w s)
include h

theorem Context.setTransaction {t : TransactionState}
    (ht : ∀ command ∈ t.queuedCommands, inv.atClient w command) :
    inv.Context w (s.setTransaction t) where
  self_eq := h.self_eq
  shared := h.shared
  queued connId command hmem := by
    rw [WorkerCommandContext.transactions_setTransaction] at hmem
    split at hmem
    · exact ht command hmem
    · exact h.queued connId command hmem

theorem Context.discardTransaction : inv.Context w s.discardTransaction :=
  h.setTransaction fun _ hmem => absurd hmem not_mem_nil

theorem Context.execute {command : Command}
    (hcommand : (inv.atClient w command ∧ cfg.targetWorker w command = w) ∨
      inv.atTarget w command) :
    inv.Context w (cfg.execute command s).2.2 := by
  rcases cfg.execute_cases command s with ⟨-, heq⟩ | ⟨-, entry, haccept, heq⟩
  · rw [heq]
    exact h
  · have hentry := (CommandRegistry.accept_eq_ok.mp haccept).2.1
    obtain ⟨hshared, hqueued⟩ := inv.execute hcommand hentry h.self_eq h.shared
    rw [heq]
    exact ⟨h.self_eq, hshared, fun connId queued hmem =>
      h.queued connId queued (hqueued connId queued hmem)⟩

theorem Context.queuedStep {command : Command}
    (hcommand : inv.atClient w command) : inv.Context w (cfg.queuedStep w s command) := by
  rw [ServerConfig.queuedStep]
  split
  · exact h
  · next hlocal =>
    exact h.execute (.inl ⟨hcommand, by simpa [ServerConfig.isFirstKeyLocal] using hlocal⟩)

theorem Context.localStep {command : Command} (hcommand : inv.atClient w command) {response : Bytes}
    {decisions : List (Command × Decision)} {s' : WorkerCommandContext V}
    (hstep : cfg.LocalStep w command s (.reply response decisions s')) : inv.Context w s' := by
  cases hstep with
  | refused => exact h
  | queued =>
    refine h.setTransaction fun queued hmem => ?_
    rcases mem_append.mp hmem with hmem | hmem
    · exact h.queued _ queued hmem
    · rw [mem_singleton.mp hmem]
      exact hcommand
  | aborted => exact h.discardTransaction
  | exec =>
    rw [ServerConfig.executeQueued_context]
    exact after_invariant (inv.Context w) (fun _ _ hqueued hs => hs.queuedStep hqueued)
      (along_of_forall (h.queued _)) h.discardTransaction
  | direct _ hlocal => exact h.execute (.inl ⟨hcommand, hlocal⟩)

end

variable (inv)

/-- What holds of the server at any time. -/
structure Holds (s : Server V) : Prop where
  context : ∀ w, inv.Context w (s.context w)
  commands : ∀ w, ∀ r ∈ (s.workers w).commands, inv.atClient w r.command
  forwarded : ∀ w source, ∀ r ∈ (s.workers w).forwarded source, inv.atTarget w r.command

theorem holds_init {aclManager : Option AclManager}
    (hshared : inv.shared (fun _ _ => none) aclManager) :
    inv.Holds (init aclManager : Server V) where
  context _ := ⟨rfl, hshared, fun _ _ h => absurd h not_mem_nil⟩
  commands _ _ h := absurd h not_mem_nil
  forwarded _ _ _ h := absurd h not_mem_nil

variable {inv} {s : Server V}

section

variable (h : inv.Holds s)
include h

theorem Holds.modify {w : ℕ} {f : Worker → Worker}
    (hqueued : ∀ connId, ∀ command ∈ ((f (s.workers w)).transactions connId).queuedCommands,
      inv.atClient w command)
    (hcommands : ∀ r ∈ (f (s.workers w)).commands, inv.atClient w r.command)
    (hforwarded : ∀ source, ∀ r ∈ (f (s.workers w)).forwarded source, inv.atTarget w r.command) :
    inv.Holds (s.modify w f) where
  context u := by
    refine ⟨rfl, (h.context u).shared, fun connId command hmem => ?_⟩
    change command ∈ (((s.modify w f).workers u).transactions connId).queuedCommands at hmem
    rw [workers_modify] at hmem
    split at hmem
    · next hu =>
      subst hu
      exact hqueued connId command hmem
    · exact (h.context u).queued connId command hmem
  commands u r hmem := by
    rw [workers_modify] at hmem
    split at hmem
    · next hu =>
      subst hu
      exact hcommands r hmem
    · exact h.commands u r hmem
  forwarded u source r hmem := by
    rw [workers_modify] at hmem
    split at hmem
    · next hu =>
      subst hu
      exact hforwarded source r hmem
    · exact h.forwarded u source r hmem

theorem Holds.modify_same {w : ℕ} (f : Worker → Worker)
    (htransactions : (f (s.workers w)).transactions = (s.workers w).transactions)
    (hcommands : (f (s.workers w)).commands = (s.workers w).commands)
    (hforwarded : (f (s.workers w)).forwarded = (s.workers w).forwarded) :
    inv.Holds (s.modify w f) := by
  refine h.modify ?_ ?_ ?_
  · rw [htransactions]
    exact (h.context w).queued
  · rw [hcommands]
    exact h.commands w
  · rw [hforwarded]
    exact h.forwarded w

theorem Holds.putContext {w : ℕ} (tag : UInt64 → Option ℕ)
    {context : WorkerCommandContext V} (hcontext : inv.Context w context) :
    inv.Holds (s.putContext w tag context) := by
  have hmodify : inv.Holds (s.modify w (·.putContext tag context)) :=
    h.modify hcontext.queued (h.commands w) (h.forwarded w)
  exact ⟨fun u => ⟨rfl, hcontext.shared, (hmodify.context u).queued⟩, hmodify.commands,
    hmodify.forwarded⟩

theorem Holds.record (entry : LogEntry) : inv.Holds (s.record entry) :=
  ⟨h.context, h.commands, h.forwarded⟩

theorem Holds.setForwarded {w source : ℕ} {requests : List Request}
    (hrequests : ∀ r ∈ requests, inv.atTarget w r.command) :
    inv.Holds (s.modify w (·.setForwarded source requests)) := by
  refine h.modify (h.context w).queued (h.commands w) fun source' r hmem => ?_
  simp only [Worker.setForwarded, Function.update_apply] at hmem
  split at hmem
  · exact hrequests r hmem
  · exact h.forwarded w source' r hmem

theorem Holds.take {w : ℕ} {r : Request} {rest : List Request}
    (hcommands : (s.workers w).commands = r :: rest) :
    inv.atClient w r.command ∧ inv.Holds (s.modify w (·.take r rest)) := by
  have hmem : ∀ r' ∈ r :: rest, inv.atClient w r'.command := by
    intro r' hr'
    rw [← hcommands] at hr'
    exact h.commands w r' hr'
  exact ⟨hmem r mem_cons_self, h.modify (h.context w).queued
    (fun r' hr' => hmem r' (mem_cons_of_mem r hr')) (h.forwarded w)⟩

theorem Holds.executeLocal (w : ℕ) : inv.Holds (s.executeLocal cfg w) := by
  rw [Server.executeLocal]
  cases hcommands : (s.workers w).commands with
  | nil => exact h
  | cons r rest =>
    dsimp only
    obtain ⟨hr, htake⟩ := h.take hcommands
    generalize s.modify w (·.take r rest) = s at htake ⊢
    have hstep := cfg.localStep_processLocal w r.command (s.context w)
    generalize cfg.processLocal w r.command (s.context w) = outcome at hstep ⊢
    cases outcome with
    | forward target =>
      cases hstep with
      | forward hlocal =>
        refine htake.setForwarded fun r' hr' => ?_
        rcases mem_append.mp hr' with hr' | hr'
        · exact htake.forwarded _ w r' hr'
        · rw [mem_singleton.mp hr']
          exact inv.forward hr hlocal
    | reply response decisions context =>
      have hput := htake.putContext (tagOf r) ((htake.context w).localStep hr hstep)
      exact (hput.modify_same _ rfl rfl rfl).record _

theorem Holds.executeForwarded (w source : ℕ) :
    inv.Holds (s.executeForwarded cfg w source) := by
  rw [Server.executeForwarded]
  cases hforwarded : (s.workers w).forwarded source with
  | nil => exact h
  | cons r rest =>
    dsimp only
    have hmem : ∀ r' ∈ r :: rest, inv.atTarget w r'.command := by
      intro r' hr'
      rw [← hforwarded] at hr'
      exact h.forwarded w source r' hr'
    have hset : inv.Holds (s.modify w (·.setForwarded source rest)) :=
      h.setForwarded fun r' hr' => hmem r' (mem_cons_of_mem r hr')
    have hput := hset.putContext (fun _ => none)
      ((hset.context w).execute (.inr (hmem r mem_cons_self)))
    exact (hput.modify_same _ rfl rfl rfl).record _

theorem Holds.of_movesResponses {label : Label}
    (hlabel : label.movesResponses = true) : inv.Holds (s.step cfg label) := by
  obtain ⟨w, worker, hsame, hstep⟩ := step_of_movesResponses cfg s hlabel
  rw [hstep]
  exact h.modify_same _ hsame.transactions hsame.commands hsame.forwarded

end

variable (inv)

/-- A command that is received meets its condition. -/
def Accepts : Label → Prop
  | .receive w _ command => inv.atClient w command
  | _ => True

variable {inv}

theorem Holds.step (h : inv.Holds s) {label : Label} (hlabel : inv.Accepts label) :
    inv.Holds (s.step cfg label) := by
  cases label with
  | receive w connId command =>
    show inv.Holds (s.modify w (·.receive connId command))
    refine h.modify (h.context w).queued (fun r hr => ?_) (h.forwarded w)
    rcases mem_append.mp hr with hr | hr
    · exact h.commands w r hr
    · rw [mem_singleton.mp hr]
      exact hlabel
  | executeLocal w => exact h.executeLocal w
  | executeForwarded w source => exact h.executeForwarded w source
  | close w connId =>
    show inv.Holds (s.modify w (·.close connId))
    refine h.modify (fun connId' command hmem => ?_) (h.commands w) (h.forwarded w)
    simp only [Worker.close, Function.update_apply] at hmem
    split at hmem
    · exact absurd hmem not_mem_nil
    · exact (h.context w).queued connId' command hmem
  | reject | relay | publish | deliver | deliverOwn => exact h.of_movesResponses rfl

theorem holds_after {aclManager : Option AclManager}
    (hshared : inv.shared (fun _ _ => none) aclManager) {labels : List Label}
    (hlabels : ∀ label ∈ labels, inv.Accepts label) :
    inv.Holds (after (Server.step cfg) (init aclManager) labels) :=
  after_invariant inv.Holds (fun _ _ hlabel hs => hs.step hlabel) (along_of_forall hlabels)
    (inv.holds_init hshared)

end CommandInvariant
