/-
The workers of a server: `ExecutorLoop`, the queues between its threads, and
`ProcessResponseQueue`.

The IO thread of a worker puts the commands of its connections into the command queue, and
hands the responses in the response queue to the connections.  The executor executes the
commands in the queue, or forwards them to the worker that the first key belongs to, whose
executor executes them and sends the response back.

The queues keep the order of what one thread puts in, and only that: a queue with several
producers is one list for each of them.  A step takes one element, so that runs of these
steps cover all batches that the threads may take.

Commands are numbered by connection as they are received; a response carries the number of
its command.  Numbers and the log of decisions are only there to be spoken of.
-/
import AstraDB.DataShard
import AstraDB.Runs
import AstraDB.WorkerContext

open Function

/-- `CommandWithConnId`, with the number of the command. -/
structure Request where
  connId : UInt64
  seq : ℕ
  command : Command
  deriving DecidableEq

/-- `CrossWorkerResponse`, likewise. -/
structure CrossWorkerResponse where
  connId : UInt64
  seq : ℕ
  response : Bytes

/-- An element of the response queue; messages and protocol errors have no number. -/
structure Response where
  connId : UInt64
  seq : Option ℕ
  response : Bytes
  deriving DecidableEq

/-- What `Execute` has decided about a command: it is redirected to another node, or it is
refused, or its handler is called. -/
inductive Decision
  | redirected
  | refused (refusal : CommandRegistry.Refusal)
  | executed
  deriving DecidableEq

/-- The decisions that were made for a command of a connection of a worker; more than one for
`EXEC`, and none for a command that is queued. -/
structure LogEntry where
  worker : ℕ
  connId : UInt64
  seq : ℕ
  decisions : List (Command × Decision)

structure Worker where
  session : Session := {}
  /-- the connection whose command was taken last -/
  connectionId : UInt64 := 0
  transactions : UInt64 → TransactionState := fun _ => {}
  subscriptions : Subscriptions := {}
  /-- `cmd_queue_`, by the IO thread -/
  commands : List Request := []
  /-- `cmd_queue_`, by the executors of other workers -/
  forwarded : ℕ → List Request := fun _ => []
  /-- `cross_worker_resp_queue_`, by the worker that executed the command -/
  crossResponses : ℕ → List CrossWorkerResponse := fun _ => []
  /-- `resp_queue_`, by the executor -/
  responses : List Response := []
  /-- `resp_queue_`, by the IO thread -/
  ioResponses : List (UInt64 × Bytes) := []
  /-- what has been handed to `SendBatch`, by connection -/
  outbox : UInt64 → List Response := fun _ => []
  /-- how many commands each connection has sent -/
  received : UInt64 → ℕ := fun _ => 0

structure Server (V : Type) where
  workers : ℕ → Worker
  databases : ℕ → Bytes → Option V
  aclManager : Option AclManager
  log : List LogEntry

/-- What does not change while the server runs. -/
structure ServerConfig (V : Type) where
  workerCount : ℕ
  builder : BuilderEnv
  cluster : ClusterView
  registry : CommandRegistry (WorkerCommandContext V)
  /-- `GetKeyVersion`, of what is stored under a key -/
  keyVersion : Option V → UInt64

namespace ServerConfig

open RespBuilder Runs

variable {V : Type} (cfg : ServerConfig V)

/-! ### Routing -/

variable (self : ℕ)

/-- `RouteToWorker`, on the worker `self`. -/
def routeToWorker (key : Bytes) : ℕ :=
  if key = [] then self % cfg.workerCount
  else
    let slot := HashSlotCalculator.calculateWithTag key
    if cfg.workerCount &&& (cfg.workerCount - 1) = 0 then slot &&& (cfg.workerCount - 1)
    else slot % cfg.workerCount

variable (command : Command)

def targetWorker : ℕ :=
  if cfg.registry.getRoutingStrategy command.name = .kNone then self
  else
    match command.args with
    | [] => self
    | arg :: _ => if arg.isString then cfg.routeToWorker self arg.value else self

def isFirstKeyLocal : Bool := cfg.targetWorker self command = self

def isCommandName (actual expected : Bytes) : Bool :=
  asciiStrToUpper actual = asciiStrToUpper expected

def isTransactionControl (name : Bytes) : Bool :=
  isCommandName name (ascii "MULTI") || isCommandName name (ascii "EXEC") ||
    isCommandName name (ascii "DISCARD") || isCommandName name (ascii "WATCH") ||
      isCommandName name (ascii "UNWATCH")

/-- `are_watch_keys_local`, of a `WATCH`. -/
def areWatchKeysLocal : Bool :=
  command.args.all fun arg => !arg.isString || cfg.routeToWorker self arg.value = self

/-! ### One command -/

/-- What `data_shard_.Execute` decides. -/
def decision (context : CommandContext) : Decision :=
  if cfg.cluster.enabled && (DataShard.redirection cfg.cluster command).isSome then .redirected
  else
    match cfg.registry.accept context command with
    | .error refusal => .refused refusal
    | .ok _ => .executed

/-- `data_shard_.Execute`, with what it has decided. -/
def execute (s : WorkerCommandContext V) : Bytes × Decision × WorkerCommandContext V :=
  let (response, s') := DataShard.execute cfg.builder (fun _ => cfg.cluster)
    WorkerCommandContext.toCommandContext cfg.registry command s
  (response, cfg.decision command s.toCommandContext, s'.runningFor s)

def crossSlotError : Bytes :=
  buildError (ascii "CROSSSLOT transaction commands must stay on one worker")

/-- The loop over the queued commands: their responses and decisions. -/
def executeQueued (self : ℕ) : List Command → WorkerCommandContext V →
    List Bytes × List (Command × Decision) × WorkerCommandContext V
  | [], s => ([], [], s)
  | command :: queued, s =>
    if !cfg.isFirstKeyLocal self command then
      let (items, decisions, s) := executeQueued self queued s
      (crossSlotError :: items, decisions, s)
    else
      let (item, decision, s) := cfg.execute command s
      let (items, decisions, s) := executeQueued self queued s
      (item :: items, (command, decision) :: decisions, s)

def buildExecArrayResponse (items : List Bytes) : Bytes :=
  ascii "*" ++ Decimal.text items.length ++ crlf ++ items.flatten

/-- What the executor does with a command of a client. -/
inductive LocalOutcome (V : Type)
  | reply (response : Bytes) (decisions : List (Command × Decision)) (s : WorkerCommandContext V)
  | forward (target : ℕ)

/-- The body of the executor's loop, for a command of a client. -/
def processLocal (s : WorkerCommandContext V) : LocalOutcome V :=
  let isExec := isCommandName command.name (ascii "EXEC")
  let inTransaction := s.transaction.inTransaction
  if inTransaction && !isTransactionControl command.name then
    if !cfg.isFirstKeyLocal self command then .reply crossSlotError [] s
    else
      .reply (buildSimpleString (ascii "QUEUED")) []
        (s.setTransaction (s.transaction.queueCommand command))
  else if isCommandName command.name (ascii "WATCH") && !cfg.areWatchKeysLocal self command then
    .reply (buildError (ascii "CROSSSLOT WATCH keys must stay on one worker")) [] s
  else if isExec && inTransaction then
    if s.transaction.isWatchedKeyModified (fun key => cfg.keyVersion (s.data.database key)) then
      .reply buildNullArray [] s.discardTransaction
    else
      let (items, decisions, s) :=
        cfg.executeQueued self s.transaction.queuedCommands s.discardTransaction
      .reply (buildExecArrayResponse items) decisions s
  else if cfg.targetWorker self command = self then
    let (response, decision, s) := cfg.execute command s
    .reply response [(command, decision)] s
  else .forward (cfg.targetWorker self command)

theorem isSome_checkClusterSlot (cfg : ServerConfig V) (command : Command) :
    (if cfg.cluster.enabled then DataShard.checkClusterSlot cfg.builder cfg.cluster command
      else none).isSome =
      (cfg.cluster.enabled && (DataShard.redirection cfg.cluster command).isSome) := by
  cases cfg.cluster.enabled <;> simp [DataShard.checkClusterSlot]

theorem execute_of_accept {cfg : ServerConfig V} {command : Command} {s : WorkerCommandContext V}
    {entry : CommandEntry (WorkerCommandContext V)}
    (hcluster : (cfg.cluster.enabled && (DataShard.redirection cfg.cluster command).isSome) = false)
    (haccept : cfg.registry.accept s.toCommandContext command = .ok entry) :
    cfg.execute command s =
      let (result, s') := CommandRegistry.callHandler entry.handler command s
      (DataShard.buildResult cfg.builder result, .executed, s'.runningFor s) := by
  have hslot := cfg.isSome_checkClusterSlot command
  rw [hcluster, Option.isSome_eq_false_iff, Option.isNone_iff_eq_none] at hslot
  rw [execute, DataShard.execute, hslot, decision, hcluster, CommandRegistry.execute, haccept]
  rfl

theorem execute_cases (cfg : ServerConfig V) (command : Command) (s : WorkerCommandContext V) :
    (cfg.decision command s.toCommandContext ≠ .executed ∧ (cfg.execute command s).2.2 = s) ∨
      cfg.decision command s.toCommandContext = .executed ∧
      ∃ entry, cfg.registry.accept s.toCommandContext command = .ok entry ∧
        (cfg.execute command s).2.2 = (entry.handler command s).2.runningFor s := by
  have hslot := cfg.isSome_checkClusterSlot command
  cases hcluster : cfg.cluster.enabled && (DataShard.redirection cfg.cluster command).isSome with
  | true =>
    rw [hcluster, Option.isSome_iff_exists] at hslot
    obtain ⟨movedError, hslot⟩ := hslot
    refine .inl ⟨?_, ?_⟩
    · rw [decision, hcluster, if_pos rfl]
      exact nofun
    · rw [execute, DataShard.execute, hslot]
      rfl
  | false =>
    cases haccept : cfg.registry.accept s.toCommandContext command with
    | error refusal =>
      rw [hcluster, Option.isSome_eq_false_iff, Option.isNone_iff_eq_none] at hslot
      refine .inl ⟨?_, ?_⟩
      · rw [decision, hcluster, haccept]
        exact nofun
      · rw [execute, DataShard.execute, hslot, CommandRegistry.execute, haccept]
        rfl
    | ok entry =>
      refine .inr ⟨?_, entry, rfl, ?_⟩
      · rw [decision, hcluster, haccept]
        rfl
      · rw [execute_of_accept hcluster haccept, ← CommandRegistry.callHandler_snd]

/-- What becomes of a command of a client: it is refused or queued, its transaction is
aborted or executed, it is executed itself, or it is forwarded. -/
inductive LocalStep (cfg : ServerConfig V) (self : ℕ) (command : Command)
    (s : WorkerCommandContext V) : LocalOutcome V → Prop
  | refused (response : Bytes) : LocalStep cfg self command s (.reply response [] s)
  | queued (response : Bytes) (htransaction : s.transaction.inTransaction = true)
      (hlocal : cfg.targetWorker self command = self) :
    LocalStep cfg self command s
      (.reply response [] (s.setTransaction (s.transaction.queueCommand command)))
  | aborted (response : Bytes) (htransaction : s.transaction.inTransaction = true) :
    LocalStep cfg self command s (.reply response [] s.discardTransaction)
  | exec (response : Bytes) (hexec : isCommandName command.name (ascii "EXEC") = true)
      (htransaction : s.transaction.inTransaction = true) :
    LocalStep cfg self command s
      (.reply response
        (cfg.executeQueued self s.transaction.queuedCommands s.discardTransaction).2.1
        (cfg.executeQueued self s.transaction.queuedCommands s.discardTransaction).2.2)
  | direct
      (hcontrol : s.transaction.inTransaction = true → isTransactionControl command.name = true)
      (hlocal : cfg.targetWorker self command = self) : LocalStep cfg self command s
      (.reply (cfg.execute command s).1 [(command, (cfg.execute command s).2.1)]
        (cfg.execute command s).2.2)
  | forward (hlocal : cfg.targetWorker self command ≠ self) :
    LocalStep cfg self command s (.forward (cfg.targetWorker self command))

theorem localStep_processLocal (cfg : ServerConfig V) (self : ℕ) (command : Command)
    (s : WorkerCommandContext V) :
    cfg.LocalStep self command s (cfg.processLocal self command s) := by
  rw [processLocal]
  dsimp only
  split
  · next hin =>
    split
    · exact .refused _
    · next hlocal =>
      exact .queued _ (Bool.and_eq_true_iff.mp hin).1 (by simpa [isFirstKeyLocal] using hlocal)
  · next hcontrol =>
    split
    · exact .refused _
    · split
      · next hexec =>
        obtain ⟨hexec, htransaction⟩ := Bool.and_eq_true_iff.mp hexec
        split
        · exact .aborted _ htransaction
        · exact .exec _ hexec htransaction
      · split
        · next hlocal => exact .direct (by simpa using hcontrol) hlocal
        · next hlocal => exact .forward hlocal

/-- What one queued command does to the context. -/
def queuedStep (cfg : ServerConfig V) (self : ℕ) (s : WorkerCommandContext V) (command : Command) :
    WorkerCommandContext V :=
  if !cfg.isFirstKeyLocal self command then s else (cfg.execute command s).2.2

theorem executeQueued_context {cfg : ServerConfig V} {self : ℕ} {queued : List Command} :
    ∀ s, (cfg.executeQueued self queued s).2.2 = after (cfg.queuedStep self) s queued := by
  induction queued with
  | nil =>
    intro s
    rfl
  | cons command queued ih =>
    intro s
    rw [executeQueued, after, List.foldl_cons, queuedStep]
    split
    · exact ih s
    · exact ih _

end ServerConfig

namespace Worker

variable {V : Type} (worker : Worker)

/-! ### What the steps do to one worker -/

def receive (connId : UInt64) (command : Command) : Worker :=
  { worker with
    commands := worker.commands ++ [⟨connId, worker.received connId, command⟩]
    received := update worker.received connId (worker.received connId + 1) }

def reject (connId : UInt64) (response : Bytes) : Worker :=
  { worker with ioResponses := worker.ioResponses ++ [(connId, response)] }

/-- A command has been taken; its connection is set. -/
def take (r : Request) (rest : List Request) : Worker :=
  { worker with commands := rest, connectionId := r.connId }

/-- What a handler has changed; what it has sent is in the response queue, where `tag`
numbers the replies. -/
def putContext (tag : UInt64 → Option ℕ) (context : WorkerCommandContext V) : Worker :=
  { worker with
    session := context.session
    transactions := context.transactions
    subscriptions := context.subscriptions
    responses := worker.responses ++ context.data.sent.map (fun m => ⟨m.1, tag m.1, m.2⟩) ++
      context.messages.map (fun m => ⟨m.1, none, m.2⟩) }

def respond (response : Response) : Worker :=
  { worker with responses := worker.responses ++ [response] }

def setForwarded (source : ℕ) (requests : List Request) : Worker :=
  { worker with forwarded := update worker.forwarded source requests }

def setCrossResponses (target : ℕ) (responses : List CrossWorkerResponse) : Worker :=
  { worker with crossResponses := update worker.crossResponses target responses }

/-- `ClearConnectionState`. -/
def close (connId : UInt64) : Worker :=
  { worker with transactions := update worker.transactions connId {} }

def toOutbox (response : Response) : Worker :=
  { worker with
    outbox := update worker.outbox response.connId
      (worker.outbox response.connId ++ [response]) }

/-- The IO thread takes what the executor has put into the response queue. -/
def deliver : Worker :=
  match worker.responses with
  | [] => worker
  | response :: rest => { worker with responses := rest }.toOutbox response

/-- The IO thread takes what it has put into the response queue itself. -/
def deliverOwn : Worker :=
  match worker.ioResponses with
  | [] => worker
  | (connId, response) :: rest =>
    { worker with ioResponses := rest }.toOutbox ⟨connId, none, response⟩

/-- What the commands of a worker depend on is the same. -/
structure SameCommands (worker' : Worker) : Prop where
  session : worker'.session = worker.session
  transactions : worker'.transactions = worker.transactions
  commands : worker'.commands = worker.commands
  forwarded : worker'.forwarded = worker.forwarded
  received : worker'.received = worker.received

end Worker

namespace Server

variable {V : Type}

def init (aclManager : Option AclManager) : Server V where
  workers _ := {}
  databases _ _ := none
  aclManager := aclManager
  log := []

variable (s : Server V) (w : ℕ)
def modify (f : Worker → Worker) : Server V :=
  { s with workers := update s.workers w (f (s.workers w)) }

/-- What the handlers of a worker see. -/
def context : WorkerCommandContext V where
  data := { self := w, connectionId := (s.workers w).connectionId, databases := s.databases }
  session := (s.workers w).session
  aclManager := s.aclManager
  transactions := (s.workers w).transactions
  subscriptions := (s.workers w).subscriptions

def putContext (tag : UInt64 → Option ℕ) (context : WorkerCommandContext V) : Server V :=
  { s.modify w (·.putContext tag context) with
    databases := context.data.databases
    aclManager := context.aclManager }

def record (entry : LogEntry) : Server V := { s with log := s.log ++ [entry] }

/-- The replies of a handler to the connection of the command carry the command's number. -/
def tagOf (r : Request) (connId : UInt64) : Option ℕ :=
  if connId = r.connId then some r.seq else none

/-! ### The steps -/

inductive Label
  /-- the IO thread of `w` puts a command into the command queue -/
  | receive (w : ℕ) (connId : UInt64) (command : Command)
  /-- the IO thread of `w` answers bytes that are no command -/
  | reject (w : ℕ) (connId : UInt64) (response : Bytes)
  /-- the executor of `w` takes a command of a client -/
  | executeLocal (w : ℕ)
  /-- the executor of `w` takes a command that `source` has forwarded -/
  | executeForwarded (w source : ℕ)
  /-- the executor of `w` takes a response that `target` has sent back -/
  | relay (w target : ℕ)
  /-- the executor of `w` passes on a message of a channel -/
  | publish (w : ℕ) (connId : UInt64) (message : Bytes)
  /-- the executor of `w` forgets a connection that was closed -/
  | close (w : ℕ) (connId : UInt64)
  /-- the IO thread of `w` hands a response of the executor to its connection -/
  | deliver (w : ℕ)
  /-- the IO thread of `w` hands a response of its own to its connection -/
  | deliverOwn (w : ℕ)

/-- What becomes of a command that the executor of `w` has taken. -/
def finishLocal (r : Request) : ServerConfig.LocalOutcome V → Server V
  | .forward target =>
    s.modify target fun worker => worker.setForwarded w (worker.forwarded w ++ [r])
  | .reply response decisions context =>
    ((s.putContext w (tagOf r) context).modify w (·.respond ⟨r.connId, some r.seq, response⟩)).record
      ⟨w, r.connId, r.seq, decisions⟩

def executeLocal (cfg : ServerConfig V) (s : Server V) (w : ℕ) : Server V :=
  match (s.workers w).commands with
  | [] => s
  | r :: rest =>
    let s := s.modify w (·.take r rest)
    s.finishLocal w r (cfg.processLocal w r.command (s.context w))

def executeForwarded (cfg : ServerConfig V) (s : Server V) (w source : ℕ) : Server V :=
  match (s.workers w).forwarded source with
  | [] => s
  | r :: rest =>
    let s := s.modify w (·.setForwarded source rest)
    let (response, decision, context) := cfg.execute r.command (s.context w)
    ((s.putContext w (fun _ => none) context).modify source fun worker =>
      worker.setCrossResponses w (worker.crossResponses w ++ [⟨r.connId, r.seq, response⟩])).record
      ⟨source, r.connId, r.seq, [(r.command, decision)]⟩

def relay (w target : ℕ) : Server V :=
  match (s.workers w).crossResponses target with
  | [] => s
  | r :: rest =>
    s.modify w fun worker =>
      (worker.setCrossResponses target rest).respond ⟨r.connId, some r.seq, r.response⟩

def step (cfg : ServerConfig V) (s : Server V) : Label → Server V
  | .receive w connId command => s.modify w (·.receive connId command)
  | .reject w connId response => s.modify w (·.reject connId response)
  | .executeLocal w => s.executeLocal cfg w
  | .executeForwarded w source => s.executeForwarded cfg w source
  | .relay w target => s.relay w target
  | .publish w connId message => s.modify w (·.respond ⟨connId, none, message⟩)
  | .close w connId => s.modify w (·.close connId)
  | .deliver w => s.modify w (·.deliver)
  | .deliverOwn w => s.modify w (·.deliverOwn)

/-- The step only moves responses. -/
def Label.movesResponses : Label → Bool
  | .reject .. | .relay .. | .publish .. | .deliver .. | .deliverOwn .. => true
  | _ => false

@[simp]
theorem workers_modify (w u : ℕ) (f : Worker → Worker) :
    (s.modify w f).workers u = if u = w then f (s.workers w) else s.workers u :=
  update_apply s.workers w (f (s.workers w)) u

@[simp]
theorem aclManager_modify (f : Worker → Worker) : (s.modify w f).aclManager = s.aclManager :=
  rfl

@[simp]
theorem log_modify (f : Worker → Worker) : (s.modify w f).log = s.log :=
  rfl

/-- Such a step changes one worker, and nothing there that its commands depend on. -/
theorem step_of_movesResponses (cfg : ServerConfig V) (s : Server V) {label : Label}
    (hlabel : label.movesResponses = true) : ∃ w worker,
      Worker.SameCommands (s.workers w) worker ∧ s.step cfg label = s.modify w fun _ => worker := by
  have hsame : ∀ w, s = s.modify w fun _ => s.workers w := by
    intro w
    rw [modify, update_eq_self]
  cases label with
  | reject w connId response =>
    exact ⟨w, (s.workers w).reject connId response, ⟨rfl, rfl, rfl, rfl, rfl⟩, rfl⟩
  | publish w connId message =>
    exact ⟨w, (s.workers w).respond ⟨connId, none, message⟩, ⟨rfl, rfl, rfl, rfl, rfl⟩, rfl⟩
  | relay w target =>
    rw [step, relay]
    cases (s.workers w).crossResponses target with
    | nil => exact ⟨w, _, ⟨rfl, rfl, rfl, rfl, rfl⟩, hsame w⟩
    | cons r rest =>
      exact ⟨w, ((s.workers w).setCrossResponses target rest).respond
        ⟨r.connId, some r.seq, r.response⟩, ⟨rfl, rfl, rfl, rfl, rfl⟩, rfl⟩
  | deliver w =>
    refine ⟨w, (s.workers w).deliver, ?_, rfl⟩
    rw [Worker.deliver]
    cases (s.workers w).responses <;> exact ⟨rfl, rfl, rfl, rfl, rfl⟩
  | deliverOwn w =>
    refine ⟨w, (s.workers w).deliverOwn, ?_, rfl⟩
    rw [Worker.deliverOwn]
    cases (s.workers w).ioResponses <;> exact ⟨rfl, rfl, rfl, rfl, rfl⟩
  | receive | executeLocal | executeForwarded | close => exact absurd hlabel Bool.false_ne_true

theorem context_take (r : Request) (rest : List Request) : (s.modify w (·.take r rest)).context w =
      { s.context w with data := { (s.context w).data with connectionId := r.connId } } := by
  simp only [context, workers_modify, if_true]
  rfl

end Server

/-- A server with the commands that are given in full, whose values are strings. -/
def sampleConfig (workerCount : ℕ) : ServerConfig Bytes where
  workerCount := workerCount
  builder := RespBuilder.simpleBuilder
  cluster := {}
  registry :=
    (CommandRegistry.empty
      |>.register ⟨ascii "PING", 1, .kNone⟩ handlePing
      |>.register ⟨ascii "DEL", -2, .kByFirstKey⟩ (.ofData handleDel)
      |>.register ⟨ascii "EXISTS", -2, .kByFirstKey⟩ (.ofData handleExists)
      |>.register ⟨ascii "MSETNX", -3, .kNone⟩ (.ofData (handleMSetNx some id))
      |>.register ⟨ascii "SUBSCRIBE", -2, .kNone⟩ handleSubscribe).withControl (fun _ _ => .ok)
        fun _ => 0
  keyVersion _ := 0
