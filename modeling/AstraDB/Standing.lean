/-
What the permissions of a connection depend on, and what commands do to it.

Whether a command is permitted depends on who is logged in and on the users, and what `EXEC`
executes on the commands that are queued: the standing of a connection.  A context holds it
for all connections of a worker; `perform` is the executor for one that has it to itself.

* `execute_effect` — the five things that a command can do to it;
* `processLocal_perform` — in any context, the executor decides as `perform` does;
* `perform_anonymous` — without a login, only the privileged commands are executed.
-/
import AstraDB.WorkerInvariant

open Runs CommandRegistry ServerConfig WorkerCommandContext List CommandContext

variable {V : Type}

@[ext]
structure Standing where
  session : Session
  aclManager : Option AclManager
  inTransaction : Bool
  queuedCommands : List Command

namespace Standing

/-- Nobody is logged in, and there is no transaction. -/
def anonymous (m : AclManager) : Standing := ⟨{}, some m, false, []⟩

/-- A context with this standing, where no key is watched. -/
def toContext (k : Standing) (w : ℕ) : WorkerCommandContext V where
  data := { self := w, connectionId := 0, databases := fun _ _ => none }
  session := k.session
  aclManager := k.aclManager
  transactions _ := { inTransaction := k.inTransaction, queuedCommands := k.queuedCommands }
  subscriptions := {}

end Standing

namespace WorkerCommandContext

/-- The standing of the connection whose command is executed. -/
def standing (s : WorkerCommandContext V) : Standing :=
  ⟨s.session, s.aclManager, s.transaction.inTransaction, s.transaction.queuedCommands⟩

theorem standing_setTransaction (s : WorkerCommandContext V) (t : TransactionState) :
    (s.setTransaction t).standing =
      ⟨s.session, s.aclManager, t.inTransaction, t.queuedCommands⟩ := by
  rw [standing, transaction, transactions_setTransaction, if_pos (by rfl)]
  rfl

theorem standing_inj {s s' : WorkerCommandContext V} : s.standing = s'.standing ↔
    s.session = s'.session ∧ s.aclManager = s'.aclManager ∧
      s.transaction.inTransaction = s'.transaction.inTransaction ∧
      s.transaction.queuedCommands = s'.transaction.queuedCommands :=
  Standing.ext_iff

theorem standing_runningFor {s s' : WorkerCommandContext V} (h : s'.session = s.session ∧
    s'.aclManager = s.aclManager ∧ s'.transactions = s.transactions) :
    (s'.runningFor s).standing = s.standing := by
  obtain ⟨hsession, husers, htransactions⟩ := h
  have htransaction : (s'.runningFor s).transaction = s.transaction :=
    congrFun htransactions s.data.connectionId
  exact standing_inj.mpr ⟨hsession, husers, by rw [htransaction], by rw [htransaction]⟩

theorem toCommandContext_congr {s s' : WorkerCommandContext V} (h : s.standing = s'.standing) :
    s.toCommandContext = s'.toCommandContext := by
  obtain ⟨hsession, husers, -, -⟩ := standing_inj.mp h
  rw [toCommandContext, toCommandContext, hsession, husers]

end WorkerCommandContext

/-! ### The commands that change a standing -/

namespace Command

/-- The name and the password that an `AUTH` gives. -/
def credentials (command : Command) : Option (Bytes × Bytes) :=
  match command.args with
  | [username] => some (username.value, [])
  | [username, password] => some (username.value, password.value)
  | _ => none

/-- `ACL SETUSER`, `ACL DELUSER` and `ACL SETPASS`. -/
def changesUsers (command : Command) : Bool :=
  asciiStrToUpper command.name = ascii "ACL" && command.args.head?.any fun subcommand =>
    [ascii "SETUSER", ascii "DELUSER", ascii "SETPASS"].contains subcommand.value

theorem name_of_changesUsers {command : Command} (h : command.changesUsers = true) :
    asciiStrToUpper command.name = ascii "ACL" :=
  of_decide_eq_true (Bool.and_eq_true_iff.mp h).1

/-- The command is no `AUTH` that these users accept. -/
def LoginFails (command : Command) (aclManager : Option AclManager) : Prop :=
  asciiStrToUpper command.name = ascii "AUTH" → ∀ m username password, aclManager = some m →
    command.credentials = some (username, password) → m.authenticate username password = false

end Command

theorem isTransactionControl_iff {name : Bytes} : isTransactionControl name = true ↔
    asciiStrToUpper name ∈
      [ascii "MULTI", ascii "EXEC", ascii "DISCARD", ascii "WATCH", ascii "UNWATCH"] := by
  have hupper : ∀ expected ∈ [ascii "MULTI", ascii "EXEC", ascii "DISCARD", ascii "WATCH",
      ascii "UNWATCH"], asciiStrToUpper expected = expected := by decide
  simp only [forall_mem_cons] at hupper
  simp only [isTransactionControl, isCommandName, hupper, Bool.or_eq_true, decide_eq_true_eq,
    mem_cons, not_mem_nil, or_false, or_assoc]

/-- The handlers of the commands that change a standing, by their names. -/
inductive ControlHandler (query : Command → WorkerCommandContext V → CommandResult)
    (keyVersion : Option V → UInt64) : Bytes → CommandHandler (WorkerCommandContext V) → Prop
  | auth : ControlHandler query keyVersion (ascii "AUTH") handleAuth
  | acl : ControlHandler query keyVersion (ascii "ACL") (handleAcl query)
  | multi : ControlHandler query keyVersion (ascii "MULTI") handleMulti
  | exec : ControlHandler query keyVersion (ascii "EXEC") handleExec
  | discard : ControlHandler query keyVersion (ascii "DISCARD") handleDiscard
  | watch : ControlHandler query keyVersion (ascii "WATCH") (handleWatch keyVersion)
  | unwatch : ControlHandler query keyVersion (ascii "UNWATCH") handleUnwatch

theorem controlHandler_of_entry {query : Command → WorkerCommandContext V → CommandResult}
    {keyVersion : Option V → UInt64} {others : CommandRegistry (WorkerCommandContext V)}
    {name : Bytes} (hname : controlCommands.contains name = true)
    {entry : CommandEntry (WorkerCommandContext V)}
    (hentry : (others.withControl query keyVersion).commands name = some entry) :
    ControlHandler query keyVersion name entry.handler ∧ entry.info.routing = .kNone := by
  simp only [controlCommands, contains_eq_mem, mem_cons, not_mem_nil, or_false,
    decide_eq_true_eq] at hname
  rcases hname with rfl | rfl | rfl | rfl | rfl | rfl | rfl <;> cases hentry
  · exact ⟨.auth, rfl⟩
  · exact ⟨.acl, rfl⟩
  · exact ⟨.multi, rfl⟩
  · exact ⟨.exec, rfl⟩
  · exact ⟨.discard, rfl⟩
  · exact ⟨.watch, rfl⟩
  · exact ⟨.unwatch, rfl⟩

/-! ### What the handlers of these commands do -/

/-- What the commands that change a standing do to the context: nothing, or a login, a change of
the users, or a change of the transaction that queues no commands. -/
inductive ControlEffect (command : Command) (s : WorkerCommandContext V) :
    WorkerCommandContext V → Prop
  | same : ControlEffect command s s
  | login {m : AclManager} {username password : Bytes}
      (hname : asciiStrToUpper command.name = ascii "AUTH") (husers : s.aclManager = some m)
      (hcredentials : command.credentials = some (username, password))
      (haccepted : m.authenticate username password = true) :
    ControlEffect command s { s with session := ⟨true, username⟩ }
  | changeUsers (m : AclManager) (hchanges : command.changesUsers = true) :
    ControlEffect command s { s with aclManager := some m }
  | setTransaction (t : TransactionState) (hcontrol : isTransactionControl command.name = true)
      (hqueued : t.queuedCommands ⊆ s.transaction.queuedCommands) :
    ControlEffect command s (s.setTransaction t)

/-- What such a command makes of two contexts: the standings that are left are the same. -/
structure ControlStep (command : Command) (s s' t t' : WorkerCommandContext V) : Prop where
  effect : ControlEffect command s t
  standing : t.standing = t'.standing

section Handlers

variable {command : Command} {s s' : WorkerCommandContext V}

theorem ControlEffect.runningFor (h : ControlEffect command s s') : s'.runningFor s = s' := by
  cases h <;> rfl

theorem controlStep_authenticate {username password : Bytes}
    (hname : asciiStrToUpper command.name = ascii "AUTH")
    (hcredentials : command.credentials = some (username, password))
    (h : s.standing = s'.standing) :
    ControlStep command s s' (authenticate username password s).2
      (authenticate username password s').2 := by
  obtain ⟨-, husers, htransaction, hqueued⟩ := standing_inj.mp h
  rw [authenticate, authenticate, ← husers]
  cases hm : s.aclManager with
  | none => exact ⟨.same, h⟩
  | some m =>
    dsimp only
    split
    · next haccepted =>
      rw [← hm]
      exact ⟨.login hname hm hcredentials haccepted, Standing.ext rfl rfl htransaction hqueued⟩
    · exact ⟨.same, h⟩

theorem controlStep_changeUsers (change : AclManager → CommandResult × AclManager)
    (hchanges : command.changesUsers = true) (h : s.standing = s'.standing) :
    ControlStep command s s' (changeUsers change s).2 (changeUsers change s').2 := by
  obtain ⟨hsession, husers, htransaction, hqueued⟩ := standing_inj.mp h
  rw [changeUsers, changeUsers, ← husers]
  cases s.aclManager with
  | none => exact ⟨.same, h⟩
  | some m =>
    exact ⟨.changeUsers (change m).2 hchanges, Standing.ext hsession rfl htransaction hqueued⟩

theorem controlStep_handleAcl (query : Command → WorkerCommandContext V → CommandResult)
    (hname : asciiStrToUpper command.name = ascii "ACL") (h : s.standing = s'.standing) :
    ControlStep command s s' (handleAcl query command s).2 (handleAcl query command s').2 := by
  rw [handleAcl, handleAcl]
  split
  · exact ⟨.same, h⟩
  · next subcommand args hargs =>
    have hchanges : [ascii "SETUSER", ascii "DELUSER", ascii "SETPASS"].contains subcommand.value →
        command.changesUsers = true := by
      intro hmem
      rw [Command.changesUsers, hname, hargs, List.head?_cons, Option.any_some, hmem]
      decide
    split
    · next hsubcommand =>
      rw [hsubcommand] at hchanges
      unfold handleAclSetUser
      split
      · exact ⟨.same, h⟩
      · exact controlStep_changeUsers _ (hchanges rfl) h
    · split
      · next hsubcommand =>
        rw [hsubcommand] at hchanges
        unfold handleAclDelUser
        split
        · exact controlStep_changeUsers _ (hchanges rfl) h
        · exact ⟨.same, h⟩
      · split
        · next hsubcommand =>
          rw [hsubcommand] at hchanges
          unfold handleAclSetpass
          split
          · exact ⟨.same, h⟩
          · exact controlStep_changeUsers _ (hchanges rfl) h
        · split
          · exact ⟨.same, h⟩
          · exact ⟨.same, h⟩

theorem foldl_watchKey (f : Bytes → UInt64) (keys : List Bytes) : ∀ t : TransactionState,
    ∃ watched, keys.foldl (fun t key => t.watchKey key (f key)) t =
      { t with watchedKeys := watched } := by
  induction keys with
  | nil =>
    intro t
    exact ⟨t.watchedKeys, rfl⟩
  | cons key keys ih =>
    intro t
    exact ih (t.watchKey key (f key))

/-- A change of the transaction, to one that depends on the standing. -/
theorem standing_setTransaction_congr {t t' : TransactionState} (h : s.standing = s'.standing)
    (htransaction : t.inTransaction = t'.inTransaction)
    (hqueued : t.queuedCommands = t'.queuedCommands) :
    (s.setTransaction t).standing = (s'.setTransaction t').standing := by
  rw [s.standing_setTransaction, s'.standing_setTransaction]
  obtain ⟨hsession, husers, -, -⟩ := standing_inj.mp h
  exact Standing.ext hsession husers htransaction hqueued

/-- What such a handler does, and that what it does to the standing of the connection depends on
that alone. -/
theorem ControlHandler.controlStep {query : Command → WorkerCommandContext V → CommandResult}
    {keyVersion : Option V → UInt64} {name : Bytes}
    {handler : CommandHandler (WorkerCommandContext V)}
    (hhandler : ControlHandler query keyVersion name handler)
    (hname : asciiStrToUpper command.name = name) (h : s.standing = s'.standing) :
    ControlStep command s s' (handler command s).2 (handler command s').2 := by
  obtain ⟨-, -, htransaction, hqueued⟩ := standing_inj.mp h
  have hcontrol : ∀ name ∈ [ascii "MULTI", ascii "EXEC", ascii "DISCARD", ascii "WATCH",
      ascii "UNWATCH"], asciiStrToUpper command.name = name →
      isTransactionControl command.name = true := by
    rintro name hmem rfl
    exact isTransactionControl_iff.mpr hmem
  -- a change of the transaction
  have hset : ∀ {t t' : TransactionState}, t.inTransaction = t'.inTransaction →
      t.queuedCommands = t'.queuedCommands → t.queuedCommands ⊆ s.transaction.queuedCommands →
      isTransactionControl command.name = true →
      ControlStep command s s' (s.setTransaction t) (s'.setTransaction t') :=
    fun ht hq hsubset hcommand =>
      ⟨.setTransaction _ hcommand hsubset, standing_setTransaction_congr h ht hq⟩
  cases hhandler with
  | auth =>
    rw [handleAuth, handleAuth]
    split
    · next username hargs =>
      exact controlStep_authenticate hname (by rw [Command.credentials, hargs]) h
    · next username password hargs =>
      exact controlStep_authenticate hname (by rw [Command.credentials, hargs]) h
    · exact ⟨.same, h⟩
  | acl => exact controlStep_handleAcl query hname h
  | multi | exec | discard =>
    simp only [handleMulti, handleExec, handleDiscard, htransaction]
    split
    · exact ⟨.same, h⟩
    · exact hset rfl rfl (nil_subset _) (hcontrol _ (by decide) hname)
  | watch =>
    rw [handleWatch, handleWatch, htransaction]
    split
    · exact ⟨.same, h⟩
    · split
      · exact ⟨.same, h⟩
      · dsimp only
        obtain ⟨watched, hfold⟩ := foldl_watchKey (fun key => keyVersion (s.data.database key))
          ((command.args.filter (·.isBulkString)).map (·.value)) s.transaction
        obtain ⟨watched', hfold'⟩ := foldl_watchKey (fun key => keyVersion (s'.data.database key))
          ((command.args.filter (·.isBulkString)).map (·.value)) s'.transaction
        rw [hfold, hfold']
        exact hset htransaction hqueued (List.Subset.refl _) (hcontrol _ (by decide) hname)
  | unwatch => exact hset htransaction hqueued (List.Subset.refl _) (hcontrol _ (by decide) hname)

end Handlers

/-! ### Executing one command -/

namespace ServerConfig

variable {cfg : ServerConfig V} {command : Command} {s s' : WorkerCommandContext V}

/-- The commands that change a standing are registered as the server registers them. -/
def HasControl (cfg : ServerConfig V) : Prop :=
  ∃ query others, cfg.registry = withControl query cfg.keyVersion others

/-- The handler leaves all standings as they are. -/
def Quiet (cfg : ServerConfig V) (command : Command) : Prop :=
  ∀ entry, cfg.registry.commands (asciiStrToUpper command.name) = some entry →
    ∀ s : WorkerCommandContext V, (entry.handler command s).2.session = s.session ∧
      (entry.handler command s).2.aclManager = s.aclManager ∧
      (entry.handler command s).2.transactions = s.transactions

/-- The command changes standings only as `AUTH`, `ACL` and the commands of transactions do; what
is left out are scripts that call these. -/
def Plain (cfg : ServerConfig V) (command : Command) : Prop :=
  controlCommands.contains (asciiStrToUpper command.name) = true ∨ cfg.Quiet command

theorem handler_effect (hcontrol : cfg.HasControl) (hcommand : cfg.Plain command)
    {entry : CommandEntry (WorkerCommandContext V)}
    (hentry : cfg.registry.commands (asciiStrToUpper command.name) = some entry)
    (s : WorkerCommandContext V) :
    ControlEffect command s (entry.handler command s).2 ∨
      (entry.handler command s).2.session = s.session ∧
      (entry.handler command s).2.aclManager = s.aclManager ∧
      (entry.handler command s).2.transactions = s.transactions := by
  obtain ⟨query, others, hregistry⟩ := hcontrol
  rcases hcommand with hname | hquiet
  · rw [hregistry] at hentry
    exact .inl ((controlHandler_of_entry hname hentry).1.controlStep rfl rfl).effect
  · exact .inr (hquiet entry hentry s)

theorem execute_effect (hcontrol : cfg.HasControl) (hcommand : cfg.Plain command)
    (s : WorkerCommandContext V) :
    ControlEffect command s (cfg.execute command s).2.2 ∨
      (cfg.execute command s).2.2.session = s.session ∧
      (cfg.execute command s).2.2.aclManager = s.aclManager ∧
      (cfg.execute command s).2.2.transactions = s.transactions := by
  rcases cfg.execute_cases command s with ⟨-, heq⟩ | ⟨-, entry, haccept, heq⟩
  · rw [heq]
    exact .inl .same
  · have hentry := (accept_eq_ok.mp haccept).2.1
    rw [heq]
    rcases handler_effect hcontrol hcommand hentry s with heffect | hquiet
    · rw [heffect.runningFor]
      exact .inl heffect
    · exact .inr hquiet

theorem connectionId_execute (command : Command) (s : WorkerCommandContext V) :
    (cfg.execute command s).2.2.data.connectionId = s.data.connectionId := by
  rw [execute]
  rfl

/-- What is decided depends on the standing of the connection alone, and so does the standing
that is left. -/
theorem standing_execute (hcontrol : cfg.HasControl) (hcommand : cfg.Plain command)
    (h : s.standing = s'.standing) :
    (cfg.execute command s).2.2.standing = (cfg.execute command s').2.2.standing := by
  have hcontext := toCommandContext_congr h
  rcases cfg.execute_cases command s with ⟨hne, heq⟩ | ⟨hexecuted, entry, haccept, heq⟩ <;>
    rcases cfg.execute_cases command s' with ⟨hne', heq'⟩ | ⟨hexecuted', entry', haccept', heq'⟩
  · rw [heq, heq', h]
  · exact absurd (hcontext ▸ hexecuted') hne
  · exact absurd (hcontext ▸ hexecuted) hne'
  · rw [hcontext, haccept'] at haccept
    cases haccept
    have hentry := (accept_eq_ok.mp haccept').2.1
    rw [heq, heq']
    rcases hcommand with hname | hquiet
    · obtain ⟨query, others, hregistry⟩ := hcontrol
      rw [hregistry] at hentry
      have hhandler := (controlHandler_of_entry hname hentry).1
      rw [(hhandler.controlStep rfl rfl).effect.runningFor,
        (hhandler.controlStep rfl rfl).effect.runningFor]
      exact (hhandler.controlStep rfl h).standing
    · rw [standing_runningFor (hquiet entry hentry s),
        standing_runningFor (hquiet entry hentry s'), h]

/-! ### The executor -/

theorem executeQueued_congr (hcontrol : cfg.HasControl) {w : ℕ} {queued : List Command}
    (hqueued : ∀ command ∈ queued, cfg.Plain command) : ∀ {s s'}, s.standing = s'.standing →
    (cfg.executeQueued w queued s).2.1 = (cfg.executeQueued w queued s').2.1 ∧
      (cfg.executeQueued w queued s).2.2.standing =
        (cfg.executeQueued w queued s').2.2.standing := by
  induction queued with
  | nil =>
    intro s s' h
    exact ⟨rfl, h⟩
  | cons command queued ih =>
    intro s s' h
    have hrest : ∀ command ∈ queued, cfg.Plain command :=
      fun command hmem => hqueued command (mem_cons_of_mem _ hmem)
    rw [executeQueued, executeQueued]
    split
    · exact ih hrest h
    · have hdecision : (cfg.execute command s).2.1 = (cfg.execute command s').2.1 :=
        congrArg (cfg.decision command) (toCommandContext_congr h)
      obtain ⟨hdecisions, hstanding⟩ :=
        ih hrest (standing_execute hcontrol (hqueued command mem_cons_self) h)
      refine ⟨?_, hstanding⟩
      dsimp only
      rw [hdecision, hdecisions]

/-- An `EXEC` that is aborted, because a watched key was changed. -/
def aborts (cfg : ServerConfig V) (command : Command) (s : WorkerCommandContext V) : Bool :=
  isCommandName command.name (ascii "EXEC") && s.transaction.inTransaction &&
    s.transaction.isWatchedKeyModified fun key => cfg.keyVersion (s.data.database key)

/-- The decisions for a command of a client and the standing that is left, unless the command is
forwarded. -/
def LocalOutcome.summary : LocalOutcome V → Option (List (Command × Decision) × Standing)
  | .reply _ decisions s => some (decisions, s.standing)
  | .forward _ => none

theorem processLocal_congr (hcontrol : cfg.HasControl) {w : ℕ} (hcommand : cfg.Plain command)
    (hqueued : ∀ queued ∈ s.transaction.queuedCommands, cfg.Plain queued)
    (h : s.standing = s'.standing) (hs : cfg.aborts command s = false)
    (hs' : cfg.aborts command s' = false) :
    (cfg.processLocal w command s).summary = (cfg.processLocal w command s').summary := by
  obtain ⟨-, -, htransaction, hcommands⟩ := standing_inj.mp h
  have hrefused : some (([] : List (Command × Decision)), s.standing) = some ([], s'.standing) := by
    rw [h]
  rw [processLocal, processLocal, htransaction]
  dsimp only
  split
  · split
    · exact hrefused
    · have hstanding : (s.setTransaction (s.transaction.queueCommand command)).standing =
          (s'.setTransaction (s'.transaction.queueCommand command)).standing :=
        standing_setTransaction_congr h htransaction (congrArg (· ++ [command]) hcommands)
      exact congrArg (fun k => some ([], k)) hstanding
  · split
    · exact hrefused
    · split
      · next hexec =>
        rw [aborts, htransaction, hexec, Bool.true_and] at hs
        rw [aborts, hexec, Bool.true_and] at hs'
        rw [hs, hs', if_neg Bool.false_ne_true, if_neg Bool.false_ne_true, ← hcommands]
        have hdiscard : s.discardTransaction.standing = s'.discardTransaction.standing :=
          standing_setTransaction_congr h rfl rfl
        obtain ⟨hdecisions, hstanding⟩ := executeQueued_congr hcontrol hqueued hdiscard
        exact congrArg some (Prod.ext hdecisions hstanding)
      · split
        · have hdecision : cfg.decision command s.toCommandContext =
              cfg.decision command s'.toCommandContext :=
            congrArg (cfg.decision command) (toCommandContext_congr h)
          have hstanding := standing_execute hcontrol hcommand h
          exact congrArg some (Prod.ext (congrArg (fun d => [(command, d)]) hdecision) hstanding)
        · rfl

/-! ### A connection of its own -/

/-- What is decided about a command of a connection that shares its standing with nobody: the
decisions of the executor, or, if the command is forwarded, of a worker on which nobody is
logged in. -/
def perform (cfg : ServerConfig V) (w : ℕ) (k : Standing) (command : Command) :
    List (Command × Decision) × Standing :=
  (cfg.processLocal w command (k.toContext w)).summary.getD
    ([(command, cfg.decision command ⟨k.aclManager, false, []⟩)], k)

/-- The standing after some commands. -/
def performAll (cfg : ServerConfig V) (w : ℕ) (k : Standing) (commands : List Command) : Standing :=
  after (fun k command => (cfg.perform w k command).2) k commands

/-- What is decided about the command with this number. -/
def decisionsAt (cfg : ServerConfig V) (w : ℕ) (k : Standing) (commands : List Command) (seq : ℕ) :
    Option (List (Command × Decision)) :=
  commands[seq]?.map fun command =>
    (cfg.perform w (cfg.performAll w k (commands.take seq)) command).1

theorem processLocal_perform (hcontrol : cfg.HasControl) {w : ℕ} (hcommand : cfg.Plain command)
    (hqueued : ∀ queued ∈ s.transaction.queuedCommands, cfg.Plain queued)
    (hs : cfg.aborts command s = false) :
    cfg.perform w s.standing command = (cfg.processLocal w command s).summary.getD
      ([(command, cfg.decision command ⟨s.aclManager, false, []⟩)], s.standing) := by
  have hkept : cfg.aborts command (s.standing.toContext w) = false :=
    Bool.and_false _
  have hstanding : s.standing = (s.standing.toContext w : WorkerCommandContext V).standing := rfl
  rw [perform, ← processLocal_congr hcontrol hcommand hqueued hstanding hs hkept]
  rfl

variable {w : ℕ} {k : Standing} {commands : List Command} {seq : ℕ}
  {decisions : List (Command × Decision)}

theorem decisionsAt_append (h : cfg.decisionsAt w k commands seq = some decisions)
    (later : List Command) : cfg.decisionsAt w k (commands ++ later) seq = some decisions := by
  obtain ⟨command, hcommand, rfl⟩ := Option.map_eq_some_iff.mp h
  have hlt : seq < commands.length := (List.getElem?_eq_some_iff.mp hcommand).1
  rw [decisionsAt, List.getElem?_append_left hlt, hcommand, take_append_of_le_length hlt.le,
    Option.map_some]

/-! ### Without a login -/

variable {context : CommandContext} {m : AclManager}

section

variable (husers : context.aclManager = some m) (hanonymous : context.authenticated = false)
include husers hanonymous

theorem permissionError_anonymous (command : Command) :
    permissionError context command =
      if privilegedCommands.contains (asciiStrToUpper command.name) then none
      else some .noCommandPermission := by
  rw [permissionError, checkCommandPermission, husers, hanonymous]
  by_cases hname : privilegedCommands.contains (asciiStrToUpper command.name) = true
  · -- none of these has a key
    have hkey : nonKeyCommands.contains (asciiStrToUpper command.name) = true := by
      rw [contains_iff_mem] at hname ⊢
      revert hname
      generalize asciiStrToUpper command.name = name
      revert name
      decide
    simp only [hname, checkedKey, hkey, if_true]
    rfl
  · rw [Bool.not_eq_true] at hname
    simp only [hname, Option.isNone_some, Bool.false_eq_true, and_false, Bool.not_false, or_true,
      if_true, if_false]

theorem privileged_of_executed (h : cfg.decision command context = .executed) :
    privilegedCommands.contains (asciiStrToUpper command.name) = true := by
  rw [decision] at h
  split at h
  · cases h
  · split at h
    · cases h
    · next entry haccept =>
      have hpermission := (accept_eq_ok.mp haccept).2.2.2
      rw [permissionError_anonymous husers hanonymous] at hpermission
      by_contra hname
      rw [if_neg hname] at hpermission
      cases hpermission

theorem decision_anonymous (m' : AclManager) :
    cfg.decision command context = cfg.decision command ⟨some m', false, []⟩ := by
  rw [decision, decision, accept, accept, permissionError_anonymous husers hanonymous,
    permissionError_anonymous rfl rfl]

end

section

variable (hcontrol : cfg.HasControl)
include hcontrol

theorem standing_of_privileged (hcommand : cfg.Plain command)
    (hprivileged : privilegedCommands.contains (asciiStrToUpper command.name) = true)
    (hlogin : command.LoginFails s.aclManager) :
    (cfg.execute command s).2.2.standing = s.standing := by
  rcases execute_effect hcontrol hcommand s with heffect | hquiet
  · generalize (cfg.execute command s).2.2 = s' at heffect ⊢
    cases heffect with
    | same => rfl
    | login hname husers hcredentials haccepted =>
      rw [hlogin hname _ _ _ husers hcredentials] at haccepted
      exact absurd haccepted Bool.false_ne_true
    | changeUsers m hchanges =>
      rw [Command.name_of_changesUsers hchanges] at hprivileged
      exact absurd hprivileged (by decide)
    | setTransaction t hcontrol =>
      rw [isTransactionControl_iff] at hcontrol
      rw [contains_iff_mem] at hprivileged
      generalize asciiStrToUpper command.name = name at hprivileged hcontrol
      exfalso
      revert name
      decide
  · obtain ⟨hsession, husers, htransactions⟩ := hquiet
    have htransaction : (cfg.execute command s).2.2.transaction = s.transaction := by
      rw [WorkerCommandContext.transaction, htransactions, connectionId_execute]
      rfl
    exact standing_inj.mpr
      ⟨hsession, husers, by rw [htransaction], by rw [htransaction]⟩

theorem perform_anonymous (hcommand : cfg.Plain command) (hlogin : command.LoginFails (some m)) :
    (cfg.perform w (.anonymous m) command).2 = .anonymous m ∧
      ∀ d ∈ (cfg.perform w (.anonymous m) command).1, d.2 = .executed →
        privilegedCommands.contains (asciiStrToUpper d.1.name) = true := by
  have hdecision : ∀ d ∈ [(command, cfg.decision command ⟨some m, false, []⟩)], d.2 = .executed →
      privilegedCommands.contains (asciiStrToUpper d.1.name) = true := by
    intro d hmem hexecuted
    rw [mem_singleton.mp hmem] at hexecuted ⊢
    exact privileged_of_executed rfl rfl hexecuted
  have hstep := cfg.localStep_processLocal w command ((Standing.anonymous m).toContext w)
  rw [perform]
  generalize cfg.processLocal w command ((Standing.anonymous m).toContext w) = outcome at hstep ⊢
  cases hstep with
  | refused => exact ⟨rfl, fun d hmem => absurd hmem not_mem_nil⟩
  | queued _ htransaction | aborted _ htransaction | exec _ _ htransaction =>
    exact absurd htransaction Bool.false_ne_true
  | direct =>
    refine ⟨?_, hdecision⟩
    rcases cfg.execute_cases command ((Standing.anonymous m).toContext w) with
      ⟨-, heq⟩ | ⟨hexecuted, -⟩
    · show (cfg.execute command _).2.2.standing = _
      rw [heq]
      rfl
    · exact standing_of_privileged hcontrol hcommand
        (privileged_of_executed rfl rfl hexecuted) hlogin
  | forward => exact ⟨rfl, hdecision⟩

theorem decisionsAt_anonymous
    (hcommands : ∀ command ∈ commands, cfg.Plain command ∧ command.LoginFails (some m))
    (h : cfg.decisionsAt w (.anonymous m) commands seq = some decisions) :
    ∀ d ∈ decisions, d.2 = .executed →
      privilegedCommands.contains (asciiStrToUpper d.1.name) = true := by
  obtain ⟨command, hcommand, rfl⟩ := Option.map_eq_some_iff.mp h
  have htaken : cfg.performAll w (.anonymous m) (commands.take seq) = .anonymous m := by
    refine after_invariant (· = Standing.anonymous m) (fun k command hcommand hk => ?_)
      (along_of_forall fun command hmem => hcommands command (mem_of_mem_take hmem)) rfl
    rw [hk]
    exact (perform_anonymous hcontrol hcommand.1 hcommand.2).1
  rw [htaken]
  obtain ⟨hplain, hlogin⟩ := hcommands command (mem_of_getElem? hcommand)
  exact (perform_anonymous hcontrol hplain hlogin).2

end

end ServerConfig
