/-
`WATCH` and `EXEC`.

`EXEC` compares the version of each watched key with the one that `WATCH` has noted.  The
versions do not count every change, and they start again when a key is removed; a second
`WATCH` of a key notes its version again.

* `exec_aborts_of_changed` — if all changes of the key count, an `EXEC` after one of them
  executes nothing.
-/
import AstraDB.Aof
import AstraDB.AuthIsolation
import AstraDB.KeyVersion

open Runs CommandRegistry List ServerConfig WorkerCommandContext

namespace TransactionState

variable {f : Bytes → UInt64} {key : Bytes} {v : UInt64} {keys : List Bytes}

theorem mem_watchKey {t : TransactionState} {other : Bytes} {version : UInt64} :
    (key, v) ∈ (t.watchKey other version).watchedKeys ↔
      key = other ∧ v = version ∨ key ≠ other ∧ (key, v) ∈ t.watchedKeys := by
  rw [watchKey, mem_cons, mem_filter, Prod.mk.injEq, decide_eq_true_iff,
    and_comm (a := (key, v) ∈ t.watchedKeys)]

theorem mem_foldl_watchKey : ∀ {t : TransactionState}, (key, v) ∈ t.watchedKeys →
    (key ∈ keys → f key = v) →
    (key, v) ∈ (keys.foldl (fun t key => t.watchKey key (f key)) t).watchedKeys := by
  induction keys with
  | nil =>
    intro t h _
    exact h
  | cons other keys ih =>
    intro t h hkeys
    refine ih (mem_watchKey.mpr ?_) fun hmem => hkeys (mem_cons_of_mem other hmem)
    by_cases hother : key = other
    · subst hother
      exact .inl ⟨rfl, (hkeys mem_cons_self).symm⟩
    · exact .inr ⟨hother, h⟩

end TransactionState

variable {V : Type}

namespace ServerConfig

variable {cfg : ServerConfig V} {w : ℕ} {command : Command} {s s' : WorkerCommandContext V}
  {key : Bytes} {v : UInt64}

/-- Plain commands, which are quiet if they are forwarded. -/
def plainQueues (hcontrol : cfg.HasControl) : CommandInvariant cfg where
  atClient _ command := cfg.Plain command
  atTarget _ command := cfg.Quiet command
  shared _ _ := True
  forward := quiet_of_forwarded hcontrol
  execute := by
    intro w command entry s hcommand hentry _ _
    have hplain : cfg.Plain command := by
      rcases hcommand with ⟨hplain, -⟩ | hquiet
      · exact hplain
      · exact .inr hquiet
    exact ⟨trivial, fun connId _ => queuedCommands_handler hcontrol hplain hentry connId⟩

/-- The command ends the watch of the connection: it is an `UNWATCH`, or an `EXEC` or a
`DISCARD` of a transaction. -/
def endsWatch (command : Command) (s : WorkerCommandContext V) : Bool :=
  isCommandName command.name (ascii "UNWATCH") || s.transaction.inTransaction &&
    (isCommandName command.name (ascii "EXEC") || isCommandName command.name (ascii "DISCARD"))

def watchKeys (command : Command) : List Bytes :=
  if isCommandName command.name (ascii "WATCH") then
    (command.args.filter (·.isBulkString)).map (·.value)
  else []

/-! ### Commands of other connections -/

theorem transactions_execute (hcontrol : cfg.HasControl) (hcommand : cfg.Plain command)
    {connId : UInt64} (hne : connId ≠ s.data.connectionId) :
    (cfg.execute command s).2.2.transactions connId = s.transactions connId := by
  rcases execute_effect hcontrol hcommand s with heffect | ⟨-, -, htransactions⟩
  · generalize (cfg.execute command s).2.2 = s' at heffect ⊢
    cases heffect with
    | same | login | changeUsers => rfl
    | setTransaction t => rw [s.transactions_setTransaction, if_neg hne]
  · rw [htransactions]

theorem transactions_localStep (hcontrol : cfg.HasControl) (hcommand : cfg.Plain command)
    (hqueued : ∀ command ∈ s.transaction.queuedCommands, cfg.Plain command) {response : Bytes}
    {decisions : List (Command × Decision)}
    (hstep : cfg.LocalStep w command s (.reply response decisions s')) {connId : UInt64}
    (hne : connId ≠ s.data.connectionId) : s'.transactions connId = s.transactions connId := by
  have hdiscard : s.discardTransaction.data.connectionId = s.data.connectionId ∧
      s.discardTransaction.transactions connId = s.transactions connId := by
    rw [discardTransaction, s.transactions_setTransaction, if_neg hne]
    exact ⟨rfl, rfl⟩
  cases hstep with
  | refused => rfl
  | queued => rw [s.transactions_setTransaction, if_neg hne]
  | aborted => exact hdiscard.2
  | exec =>
    rw [executeQueued_context]
    refine (after_invariant (fun s' : WorkerCommandContext V =>
      s'.data.connectionId = s.data.connectionId ∧ s'.transactions connId = s.transactions connId)
      (fun s' command hcommand hs' => ?_) (along_of_forall hqueued) hdiscard).2
    rw [queuedStep]
    split
    · exact hs'
    · exact ⟨(connectionId_execute command s').trans hs'.1,
        (transactions_execute hcontrol hcommand (hs'.1 ▸ hne)).trans hs'.2⟩
  | direct => exact transactions_execute hcontrol hcommand hne

/-! ### Commands of the connection -/

theorem isCommandName_of_eq {name expected : Bytes} (h : asciiStrToUpper name = expected)
    (hupper : asciiStrToUpper expected = expected) : isCommandName name expected = true := by
  rw [isCommandName, h, hupper, decide_eq_true rfl]

theorem transactions_of_not_control (h : ControlEffect command s s')
    (hcontrol : isTransactionControl command.name = false) : s'.transactions = s.transactions := by
  cases h with
  | same | login | changeUsers => rfl
  | setTransaction t hname => exact absurd (hcontrol.symm.trans hname) Bool.false_ne_true

/-- What was noted stays with these commands, if they do not end the watch and the key is not
watched again with another version. -/
theorem mem_watched_control {query : Command → WorkerCommandContext V → CommandResult}
    {keyVersion : Option V → UInt64} {handler : CommandHandler (WorkerCommandContext V)}
    (hhandler : ControlHandler query keyVersion (asciiStrToUpper command.name) handler)
    (h : (key, v) ∈ s.transaction.watchedKeys) (hends : endsWatch command s = false)
    (hagain : key ∈ watchKeys command → keyVersion (s.data.database key) = v) :
    (key, v) ∈ ((handler command s).2.transactions s.data.connectionId).watchedKeys := by
  have heffect := (hhandler.controlStep (s := s) rfl rfl).effect
  generalize hname : asciiStrToUpper command.name = name at hhandler
  have hsame : name ∉ [ascii "MULTI", ascii "EXEC", ascii "DISCARD", ascii "WATCH",
      ascii "UNWATCH"] →
      (key, v) ∈ ((handler command s).2.transactions s.data.connectionId).watchedKeys := by
    intro hnot
    rw [transactions_of_not_control heffect (Bool.eq_false_iff.mpr fun hcontrol =>
      hnot (hname ▸ isTransactionControl_iff.mp hcontrol))]
    exact h
  cases hhandler with
  | auth | acl => exact hsame (by decide)
  | multi =>
    rw [handleMulti]
    split
    · exact h
    · rw [s.transactions_setTransaction, if_pos rfl]
      exact h
  | exec | discard =>
    rw [endsWatch, isCommandName_of_eq hname (by decide)] at hends
    simp only [handleExec, handleDiscard]
    split
    · exact h
    · next hin => simp_all
  | watch =>
    rw [watchKeys, if_pos (isCommandName_of_eq hname (by decide))] at hagain
    rw [handleWatch]
    split
    · exact h
    · split
      · exact h
      · dsimp only
        rw [s.transactions_setTransaction, if_pos rfl]
        exact TransactionState.mem_foldl_watchKey h hagain
  | unwatch =>
    rw [endsWatch, isCommandName_of_eq hname (by decide)] at hends
    exact absurd hends (by simp)

section

variable (hcontrol : cfg.HasControl) (hcommand : cfg.Plain command)
  (h : (key, v) ∈ s.transaction.watchedKeys) (hends : endsWatch command s = false)
  (hagain : key ∈ watchKeys command → cfg.keyVersion (s.data.database key) = v)
include hcontrol hcommand h hends hagain

theorem mem_watched_execute : (key, v) ∈
      ((cfg.execute command s).2.2.transactions s.data.connectionId).watchedKeys := by
  rcases cfg.execute_cases command s with ⟨-, heq⟩ | ⟨-, entry, haccept, heq⟩
  · rw [heq]
    exact h
  · have hentry := (accept_eq_ok.mp haccept).2.1
    rw [heq]
    rcases hcommand with hname | hquiet
    · obtain ⟨query, others, hregistry⟩ := hcontrol
      rw [hregistry] at hentry
      exact mem_watched_control (controlHandler_of_entry hname hentry).1 h hends hagain
    · have htransactions := (hquiet entry hentry s).2.2
      show (key, v) ∈ ((entry.handler command s).2.transactions _).watchedKeys
      rw [htransactions]
      exact h

theorem mem_watched_processLocal {response : Bytes} {decisions : List (Command × Decision)}
    (hreply : cfg.processLocal w command s = .reply response decisions s') : (key, v) ∈
    (s'.transactions s.data.connectionId).watchedKeys := by
  rw [processLocal] at hreply
  dsimp only at hreply
  split at hreply
  · split at hreply
    · cases hreply
      exact h
    · cases hreply
      rw [s.transactions_setTransaction, if_pos rfl]
      exact h
  · split at hreply
    · cases hreply
      exact h
    · split at hreply
      · next hexec =>
        rw [Bool.and_eq_true] at hexec
        rw [endsWatch, hexec.1, hexec.2] at hends
        simp at hends
      · split at hreply
        · cases hreply
          exact mem_watched_execute hcontrol hcommand h hends hagain
        · cases hreply

end

end ServerConfig

namespace Server

variable {cfg : ServerConfig V} {s : Server V} {w : ℕ} {connId : UInt64} {key : Bytes}
  {v : UInt64}

/-- The watched keys of a connection, with the versions that were noted. -/
def watchedBy (s : Server V) (w : ℕ) (connId : UInt64) : List (Bytes × UInt64) :=
  ((s.workers w).transactions connId).watchedKeys

/-- The executor of the worker will take this command of the connection next. -/
def Next (s : Server V) (w : ℕ) (connId : UInt64) (r : Request) : Prop :=
  (s.workers w).commands.head? = some r ∧ r.connId = connId

/-- What the handlers will see then. -/
def nextContext (s : Server V) (w : ℕ) (r : Request) : WorkerCommandContext V :=
  { s.context w with data := { (s.context w).data with connectionId := r.connId } }

/-- The connection is closed, or its next command ends its watch. -/
def endsWatch (w : ℕ) (connId : UInt64) (s : Server V) : Label → Bool
  | .close u closed => u = w && closed = connId
  | .executeLocal u => u = w && (s.workers w).commands.head?.any fun r =>
      r.connId = connId && ServerConfig.endsWatch r.command (s.nextContext w r)
  | _ => false

/-- The connection watches the key again, only if it still has the version that was noted. -/
def WatchesSame (cfg : ServerConfig V) (w : ℕ) (connId : UInt64) (key : Bytes) (s : Server V)
    (label : Label) : Prop :=
  label = .executeLocal w → ∀ r, s.Next w connId r → key ∈ ServerConfig.watchKeys r.command →
    ∀ v, (key, v) ∈ s.watchedBy w connId → cfg.keyVersion (s.databases w key) = v

theorem watchedBy_modify {u : ℕ} {f : Worker → Worker}
    (h : (f (s.workers u)).transactions connId = (s.workers u).transactions connId) :
    (s.modify u f).watchedBy w connId = s.watchedBy w connId := by
  rw [watchedBy, watchedBy, workers_modify]
  split
  · next hw => rw [h, hw]
  · rfl

theorem watchedBy_record (s : Server V) (entry : LogEntry) :
    (s.record entry).watchedBy w connId = s.watchedBy w connId := rfl

theorem watchedBy_putContext {u : ℕ} (tag : UInt64 → Option ℕ) {context : WorkerCommandContext V}
    (h : u = w → context.transactions connId = (s.workers w).transactions connId) :
    (s.putContext u tag context).watchedBy w connId = s.watchedBy w connId := by
  show (((s.modify u (·.putContext tag context)).workers w).transactions connId).watchedKeys = _
  rw [workers_modify]
  split
  · next hw => exact congrArg TransactionState.watchedKeys (h hw.symm)
  · rfl

variable {hcontrol : cfg.HasControl}

section

variable (hholds : (cfg.plainQueues hcontrol).Holds s) (h : (key, v) ∈ s.watchedBy w connId)
include hholds h

theorem watched_executeLocal (u : ℕ) (hends : endsWatch w connId s (.executeLocal u) = false)
    (hagain : WatchesSame cfg w connId key s (.executeLocal u)) : (key, v) ∈
    (s.executeLocal cfg u).watchedBy w connId := by
  rw [executeLocal]
  cases hcommands : (s.workers u).commands with
  | nil => exact h
  | cons r rest =>
    obtain ⟨hplain, htake⟩ := hholds.take hcommands
    have htaken : (s.modify u (·.take r rest)).watchedBy w connId = s.watchedBy w connId :=
      watchedBy_modify rfl
    have hcontext : (s.modify u (·.take r rest)).context u = s.nextContext u r := context_take ..
    have hstep := cfg.localStep_processLocal u r.command (s.nextContext u r)
    dsimp only
    rw [hcontext]
    cases hprocess : cfg.processLocal u r.command (s.nextContext u r) with
    | forward target =>
      rw [finishLocal, watchedBy_modify rfl, htaken]
      exact h
    | reply response decisions context =>
      rw [hprocess] at hstep
      rw [finishLocal, watchedBy_record, watchedBy_modify rfl]
      by_cases hown : u = w ∧ r.connId = connId
      · obtain ⟨rfl, rfl⟩ := hown
        have hnext : s.Next u r.connId r := ⟨by rw [hcommands, List.head?_cons], rfl⟩
        have hkept : ServerConfig.endsWatch r.command (s.nextContext u r) = false := by
          simpa [endsWatch, hcommands] using hends
        rw [watchedBy, putContext, workers_modify, if_pos rfl]
        exact ServerConfig.mem_watched_processLocal hcontrol hplain h hkept
          (fun hkey => hagain rfl r hnext hkey v h) hprocess
      · rw [watchedBy_putContext, htaken]
        · exact h
        · rintro rfl
          have hqueued : ∀ command ∈ (s.nextContext u r).transaction.queuedCommands,
              cfg.Plain command := (hholds.context u).queued r.connId
          have hne : connId ≠ (s.nextContext u r).data.connectionId :=
            fun hconn => hown ⟨rfl, hconn.symm⟩
          have htransactions :=
            ServerConfig.transactions_localStep hcontrol hplain hqueued hstep hne
          rw [htransactions, workers_modify, if_pos rfl]
          rfl

theorem watched_step {label : Label} (hends : endsWatch w connId s label = false)
    (hagain : WatchesSame cfg w connId key s label) :
    (key, v) ∈ (s.step cfg label).watchedBy w connId := by
  by_cases hlabel : label.movesResponses = true
  · obtain ⟨u, worker, hsame, hstep⟩ := step_of_movesResponses cfg s hlabel
    rw [hstep, watchedBy_modify (congrFun hsame.transactions connId)]
    exact h
  cases label with
  | executeLocal u => exact watched_executeLocal hholds h u hends hagain
  | executeForwarded u source =>
    rw [step, executeForwarded]
    cases hforwarded : (s.workers u).forwarded source with
    | nil => exact h
    | cons r rest =>
      have hquiet : cfg.Quiet r.command :=
        hholds.forwarded u source r (hforwarded ▸ mem_cons_self)
      have htransactions :=
        (execute_quiet hquiet ((s.modify u (·.setForwarded source rest)).context u)).2.2
      dsimp only
      rw [watchedBy_record, watchedBy_modify rfl, watchedBy_putContext, watchedBy_modify rfl]
      · exact h
      · rintro rfl
        exact congrFun htransactions connId
  | close u closed =>
    show (key, v) ∈ (s.modify u (·.close closed)).watchedBy w connId
    rw [watchedBy, workers_modify]
    split
    · next hw =>
      subst hw
      have hclosed : connId ≠ closed := by
        rintro rfl
        simp [endsWatch] at hends
      rw [Worker.close]
      dsimp only
      rw [Function.update_of_ne hclosed]
      exact h
    · exact h
  | receive u other command =>
    show (key, v) ∈ (s.modify u (·.receive other command)).watchedBy w connId
    rw [watchedBy_modify rfl]
    exact h
  | reject | relay | publish | deliver | deliverOwn => exact absurd rfl hlabel

end

/-! ### `EXEC` -/

/-- What an `EXEC` does that executes nothing: it replies with the null array. -/
structure Aborted (s : Server V) (w : ℕ) (r : Request) (s' : Server V) : Prop where
  databases : s'.databases = s.databases
  responses : (s'.workers w).responses =
    (s.workers w).responses ++ [⟨r.connId, some r.seq, RespBuilder.buildNullArray⟩]
  log : s'.log = s.log ++ [⟨w, r.connId, r.seq, []⟩]

theorem aborted_executeLocal {r : Request} (hnext : s.Next w connId r)
    (hexec : isCommandName r.command.name (ascii "EXEC") = true)
    (hin : ((s.workers w).transactions connId).inTransaction = true)
    (h : (key, v) ∈ s.watchedBy w connId) (hversion : cfg.keyVersion (s.databases w key) ≠ v) :
    Aborted s w r (s.executeLocal cfg w) := by
  obtain ⟨hhead, rfl⟩ := hnext
  obtain ⟨rest, hcommands⟩ := List.head?_eq_some_iff.mp hhead
  have hmodified : (s.nextContext w r).transaction.isWatchedKeyModified
      (fun key => cfg.keyVersion ((s.nextContext w r).data.database key)) = true :=
    any_eq_true.mpr ⟨(key, v), h, bne_iff_ne.mpr hversion⟩
  have hprocess : cfg.processLocal w r.command (s.nextContext w r) =
      .reply RespBuilder.buildNullArray [] (s.nextContext w r).discardTransaction := by
    have hcontrol : isTransactionControl r.command.name = true := by
      simp [isTransactionControl, hexec]
    have hwatch : isCommandName r.command.name (ascii "WATCH") = false := by
      rw [isCommandName, of_decide_eq_true hexec]
      decide
    have hin : (s.nextContext w r).transaction.inTransaction = true := hin
    rw [processLocal]
    dsimp only
    rw [hin, hcontrol, hwatch, hexec, hmodified]
    rfl
  have hstep : s.executeLocal cfg w =
      (((s.modify w (·.take r rest)).putContext w (tagOf r)
        (s.nextContext w r).discardTransaction).modify w
          (·.respond ⟨r.connId, some r.seq, RespBuilder.buildNullArray⟩)).record
            ⟨w, r.connId, r.seq, []⟩ := by
    rw [executeLocal, hcommands]
    dsimp only
    rw [context_take, ← nextContext, hprocess, finishLocal]
  rw [hstep]
  refine ⟨rfl, ?_, rfl⟩
  simp [record, putContext, Worker.respond, Worker.putContext, Worker.take, nextContext, context,
    discardTransaction, setTransaction]

end Server

namespace Server

variable {env : DatabaseEnv}

def stored (s : Server (Stored env)) (w : ℕ) (key : Bytes) : Stored env :=
  (s.databases w key).getD .empty

/-- The changes of the key all count, for those who have noted its version, and the connection
watches it again only if nothing has changed. -/
structure Counted (cfg : ServerConfig (Stored env)) (w : ℕ) (connId : UInt64) (key : Bytes)
    (s : Server (Stored env)) (label : Label) : Prop where
  again : WatchesSame cfg w connId key s label
  stamped : ∀ v, (key, v) ∈ s.watchedBy w connId →
    (s.stored w key).StampedAll v ((s.step cfg label).stored w key)

/-- In a run where a connection watches a key, and some step before its `EXEC` changes what is
stored there, the `EXEC` executes nothing. -/
def WatchSound (cfg : ServerConfig (Stored env)) (aclManager : Option AclManager)
    (earlier between : List Label) (w : ℕ) (connId : UInt64) (key : Bytes) : Prop :=
  let watching := after (step cfg) (init aclManager) earlier
  let final := after (step cfg) watching between
  (∃ v, (key, v) ∈ watching.watchedBy w connId) →
  Along (step cfg) (fun s label => endsWatch w connId s label = false) watching between →
  ¬ Along (step cfg) (fun s label => (s.stored w key).Same ((s.step cfg label).stored w key))
    watching between →
  ∀ exec, final.Next w connId exec →
    ServerConfig.isCommandName exec.command.name (ascii "EXEC") = true →
    ((final.workers w).transactions connId).inTransaction = true →
    Aborted final w exec (final.step cfg (.executeLocal w))

theorem exec_aborts_of_changed (cfg : ServerConfig (Stored env)) (hcontrol : cfg.HasControl)
    (hkeyVersion : ∀ entry, cfg.keyVersion entry = (entry.getD .empty).getKeyVersion)
    (aclManager : Option AclManager) (earlier between : List Label)
    (hplain : ∀ label ∈ earlier ++ between, (cfg.plainQueues hcontrol).Accepts label)
    (w : ℕ) (connId : UInt64) (key : Bytes)
    (hcounted : Along (step cfg) (Counted cfg w connId key)
      (after (step cfg) (init aclManager) earlier) between) :
    WatchSound cfg aclManager earlier between w connId key := by
  unfold WatchSound
  rintro watching final ⟨v, hv⟩ hopen hchanged exec hnext hexec hin
  have hholds : (cfg.plainQueues hcontrol).Holds watching :=
    CommandInvariant.holds_after trivial fun label hlabel =>
      hplain label (mem_append_left between hlabel)
  have hsteady := (hopen.and hcounted).and_forall fun label hlabel =>
    hplain label (mem_append_right earlier hlabel)
  -- the watch goes on, and so does what is known of the queues
  have hstep (s label) (hlabel : (endsWatch w connId s label = false ∧
      Counted cfg w connId key s label) ∧ (cfg.plainQueues hcontrol).Accepts label)
      (hs : (cfg.plainQueues hcontrol).Holds s ∧ (key, v) ∈ s.watchedBy w connId) :
      (cfg.plainQueues hcontrol).Holds (s.step cfg label) ∧
        (key, v) ∈ (s.step cfg label).watchedBy w connId :=
    ⟨hs.1.step hlabel.2, watched_step hs.1 hs.2 hlabel.1.1 hlabel.1.2.again⟩
  -- the first step that changes the key leaves another version
  obtain ⟨before, label, later, rfl, hlabel⟩ := exists_of_not_along hchanged
  have hbefore := after_invariant _ hstep hsteady.left ⟨hholds, hv⟩
  have hat := hsteady.at
  have hversion : ((step cfg (after (step cfg) watching before) label).stored w key).getKeyVersion
      ≠ v :=
    (hat.1.2.stamped v hbefore.2).version.resolve_right fun hsame => hlabel hsame.1
  -- and it stays another one
  have hfinal : ((cfg.plainQueues hcontrol).Holds final ∧ (key, v) ∈ final.watchedBy w connId) ∧
      (final.stored w key).getKeyVersion ≠ v := by
    rw [show final = _ from after_append before label later]
    refine after_invariant (fun s : Server (Stored env) =>
      ((cfg.plainQueues hcontrol).Holds s ∧ (key, v) ∈ s.watchedBy w connId) ∧
        (s.stored w key).getKeyVersion ≠ v) (fun s label hlabel hs => ?_) hsteady.right.2
      ⟨hstep _ _ hat hbefore, hversion⟩
    refine ⟨hstep s label hlabel hs.1, ?_⟩
    obtain hne | ⟨-, heq⟩ := (hlabel.1.2.stamped v hs.1.2).version
    · exact hne
    · rw [heq]
      exact hs.2
  refine aborted_executeLocal hnext hexec hin hfinal.1.2 ?_
  rw [hkeyVersion]
  exact hfinal.2

def onesAof : AofEnv where
  toDatabaseEnv := simpleDatabase
  simpleAtod _ := some 1
  addDouble := (· + ·)
  formatDouble _ := []

/-- A handler of the append-only file's, on the database of the worker. -/
def storeHandler (handler : Aof.Handler onesAof) :
    CommandHandler (DataView (Stored simpleDatabase)) := fun command s =>
  let (result, db, _) := Aof.run onesAof (handler command.args) fun key =>
    (s.database key).getD .empty
  (.returns result, { s with databases := Function.update s.databases s.self (some ∘ db) })

/-- One worker, with `SET`, `DEL` and `ZINCRBY`. -/
def storeConfig : ServerConfig (Stored simpleDatabase) where
  workerCount := 1
  builder := RespBuilder.simpleBuilder
  cluster := {}
  registry :=
    (CommandRegistry.empty
      |>.register ⟨ascii "SET", -3, .kByFirstKey⟩
        (.ofData (storeHandler (Aof.handleSet onesAof (.calm 0 0))))
      |>.register ⟨ascii "DEL", -2, .kByFirstKey⟩ (.ofData (storeHandler (Aof.handleDel onesAof)))
      |>.register ⟨ascii "ZINCRBY", 4, .kByFirstKey⟩
        (.ofData (storeHandler (Aof.handleZIncrBy onesAof)))).withControl (fun _ _ => .ok)
          fun entry => (entry.getD .empty).getKeyVersion
  keyVersion entry := (entry.getD .empty).getKeyVersion

/-- A connection sends a command, and it is executed. -/
def sends (connId : UInt64) (name : String) (args : List String) : List Label :=
  [.receive 0 connId ⟨ascii name, Aof.bulkArgs args⟩, .executeLocal 0]

/-- Somebody else sets the key. -/
theorem exec_aborts_of_changed_set :
    let earlier := sends 8 "WATCH" ["k"] ++ sends 8 "MULTI" []
    let between := sends 7 "SET" ["k", "1"] ++ [.receive 0 8 ⟨ascii "EXEC", []⟩]
    let s := after (step storeConfig) (after (step storeConfig) (init none) earlier) between
    Aborted s 0 ⟨8, 2, ⟨ascii "EXEC", []⟩⟩ (s.step storeConfig (.executeLocal 0)) := by
  intro earlier between
  have hcontrol : storeConfig.HasControl := ⟨_, _, rfl⟩
  have hset : storeConfig.Plain ⟨ascii "SET", Aof.bulkArgs ["k", "1"]⟩ := by
    refine .inr fun entry hentry s => ?_
    cases hentry
    exact ⟨rfl, rfl, rfl⟩
  have hplain : ∀ label ∈ earlier ++ between,
      (storeConfig.plainQueues hcontrol).Accepts label := by
    simp only [earlier, between, sends, cons_append, nil_append, forall_mem_cons]
    exact ⟨.inl (by decide), trivial, .inl (by decide), trivial, hset, trivial,
      .inl (by decide), fun _ h => absurd h not_mem_nil⟩
  have hcounted : Along (step storeConfig) (Counted storeConfig 0 8 (ascii "k"))
      (after (step storeConfig) (init none) earlier) between := by
    -- receiving a command changes no key
    have hreceive {s other command} :
        Counted storeConfig 0 8 (ascii "k") s (.receive 0 other command) :=
      ⟨nofun, fun _ _ => .refl⟩
    refine ⟨hreceive, ⟨fun _ r hnext => ?_, fun v hv => ?_⟩, hreceive, trivial⟩
    · -- it is not a command of the connection
      have hother := congrArg (Option.map Request.connId) hnext.1
      rw [Option.map_some, hnext.2] at hother
      exact absurd hother (by decide +kernel)
    · have hzero : ∀ noted ∈ (step storeConfig (after (step storeConfig) (init none) earlier)
          (.receive 0 7 ⟨ascii "SET", Aof.bulkArgs ["k", "1"]⟩)).watchedBy 0 8, noted.2 = 0 := by
        decide +kernel
      obtain rfl : v = 0 := hzero _ hv
      exact .single (.registers .kString (by decide +kernel) (by decide +kernel))
  refine exec_aborts_of_changed storeConfig hcontrol (fun _ => rfl) none earlier between hplain 0 8
    (ascii "k") hcounted ⟨0, by decide +kernel⟩ (by decide +kernel) (fun hsame => ?_) _
    ⟨by decide +kernel, rfl⟩ (by decide) (by decide +kernel)
  have hcreated := congrArg (fun data => (data .strings).isSome) hsame.2.1.1
  revert hcreated
  decide +kernel

/-- `ZINCRBY` changes a score in place; a key that is deleted and set again has the version one
again. -/
theorem not_watchSound :
    ¬ WatchSound storeConfig none
      (sends 7 "ZINCRBY" ["z", "1", "m"] ++ sends 8 "WATCH" ["z"])
      (sends 7 "ZINCRBY" ["z", "1", "m"] ++ sends 8 "MULTI" [] ++
        [.receive 0 8 ⟨ascii "EXEC", []⟩]) 0 8 (ascii "z") ∧
    ¬ WatchSound storeConfig none
      (sends 7 "SET" ["k", "1"] ++ sends 8 "WATCH" ["k"])
      (sends 7 "DEL" ["k"] ++ sends 7 "SET" ["k", "2"] ++ sends 8 "MULTI" [] ++
        [.receive 0 8 ⟨ascii "EXEC", []⟩]) 0 8 (ascii "k") := by
  constructor
  · intro h
    refine absurd (h ⟨1, by decide +kernel⟩ (by decide +kernel) (fun hsame => ?_)
      ⟨8, 2, ⟨ascii "EXEC", []⟩⟩ ⟨by decide +kernel, rfl⟩ (by decide) (by decide +kernel)).responses
      (by decide +kernel)
    have hscores := congrArg (fun data => (data .zsets).map fun zset : DashMap Double =>
      zset.lookup (ascii "m")) hsame.2.1.1
    revert hscores
    decide +kernel
  · intro h
    refine absurd (h ⟨1, by decide +kernel⟩ (by decide +kernel) (fun hsame => ?_)
      ⟨8, 2, ⟨ascii "EXEC", []⟩⟩ ⟨by decide +kernel, rfl⟩ (by decide) (by decide +kernel)).responses
      (by decide +kernel)
    have hdeleted := congrArg (fun data => (data .strings).isSome) hsame.2.1.1
    revert hdeleted
    decide +kernel

end Server
