/-
What the handlers of a worker share: `WorkerCommandContext`.

Each worker has one context.  It holds who is logged in, the transactions by connection, the
subscriptions, and the connection whose command is being executed; the users are those of the
server, and commands that span several workers reach all databases.

The commands that use the context itself are given in full: `AUTH`, the subcommands of
`ACL` that change users, the commands of transactions, and `SUBSCRIBE`.  The subcommands
of `ACL` that only read are a parameter.
-/
import AstraDB.Keyspace
import AstraDB.RespBuilder

/-- The state of a connection in `TransactionStateStore`; one without a state has the default. -/
structure TransactionState where
  inTransaction : Bool := false
  queuedCommands : List Command := []
  /-- the watched keys with their versions -/
  watchedKeys : List (Bytes × UInt64) := []

namespace TransactionState

variable (t : TransactionState)

def beginTransaction : TransactionState :=
  { t with inTransaction := true, queuedCommands := [] }

def queueCommand (command : Command) : TransactionState :=
  { t with queuedCommands := t.queuedCommands ++ [command] }

def watchKey (key : Bytes) (version : UInt64) : TransactionState :=
  { t with watchedKeys := (key, version) :: t.watchedKeys.filter (·.1 ≠ key) }

def clearWatchedKeys : TransactionState := { t with watchedKeys := [] }

def isWatchedKeyModified (getVersion : Bytes → UInt64) : Bool :=
  t.watchedKeys.any fun watched => getVersion watched.1 != watched.2

end TransactionState

/-- Who is logged in: `authenticated_` and `authenticated_user_`. -/
structure Session where
  authenticated : Bool := false
  authenticatedUser : Bytes := []
  deriving DecidableEq, Repr

/-- `conn_channels_` and `conn_patterns_`. -/
structure Subscriptions where
  channels : UInt64 → List Bytes := fun _ => []
  patterns : UInt64 → List Bytes := fun _ => []

structure WorkerCommandContext (V : Type) where
  data : DataView V
  session : Session
  aclManager : Option AclManager
  transactions : UInt64 → TransactionState
  subscriptions : Subscriptions
  /-- the messages of channels, which are no replies, put into the response queue -/
  messages : List (UInt64 × Bytes) := []

namespace WorkerCommandContext

variable {V : Type} (s : WorkerCommandContext V)

/-- What the permission checks see. -/
def toCommandContext : CommandContext :=
  ⟨s.aclManager, s.session.authenticated, s.session.authenticatedUser⟩

def transaction : TransactionState :=
  s.transactions s.data.connectionId

def setTransaction (t : TransactionState) : WorkerCommandContext V :=
  { s with transactions := Function.update s.transactions s.data.connectionId t }

theorem transactions_setTransaction (t : TransactionState)
    (connId : UInt64) : (s.setTransaction t).transactions connId =
      if connId = s.data.connectionId then t else s.transactions connId :=
  Function.update_apply s.transactions s.data.connectionId t connId

/-- The worker and the connection that a handler runs for are not its own to change. -/
def runningFor (s' s : WorkerCommandContext V) : WorkerCommandContext V :=
  { s' with data := { s'.data with self := s.data.self, connectionId := s.data.connectionId } }

def discardTransaction : WorkerCommandContext V := s.setTransaction {}

end WorkerCommandContext

namespace CommandHandler

variable {V : Type}

/-- A handler of a data command, which uses nothing else of the context. -/
def ofData (handler : CommandHandler (DataView V)) : CommandHandler (WorkerCommandContext V) :=
  fun command s =>
    let (outcome, data) := handler command s.data
    (outcome, { s with data := data })

end CommandHandler

section Handlers

variable {V : Type}

def CommandResult.ok : CommandResult := .ofResponse (.ofString (ascii "OK") .kSimpleString)

/-- `HandleAuth`, after the arguments have been read. -/
def authenticate (username password : Bytes) (s : WorkerCommandContext V) :
    HandlerOutcome × WorkerCommandContext V :=
  match s.aclManager with
  | none => (.returns .ok, s)
  | some aclManager =>
    if aclManager.authenticate username password then
      (.returns .ok, { s with session := ⟨true, username⟩ })
    else (.returns (.ofError (ascii "WRONGPASS invalid username-password pair")), s)

def handleAuth : CommandHandler (WorkerCommandContext V) := fun command s =>
  match command.args with
  | [username] => authenticate username.value [] s
  | [username, password] => authenticate username.value password.value s
  | _ => (.returns (.ofError (ascii "ERR wrong number of arguments for 'auth' command")), s)

/-- A change of the users, if there are any. -/
def changeUsers (change : AclManager → CommandResult × AclManager) (s : WorkerCommandContext V) :
    HandlerOutcome × WorkerCommandContext V :=
  match s.aclManager with
  | none => (.returns (.ofError (ascii "ERR ACL not configured")), s)
  | some aclManager =>
    let (result, aclManager) := change aclManager
    (.returns result, { s with aclManager := some aclManager })

def handleAclSetUser (args : List CommandArg) (s : WorkerCommandContext V) :
    HandlerOutcome × WorkerCommandContext V :=
  match args with
  | [] => (.returns (.ofError (ascii "ERR wrong number of arguments for 'acl setuser' command")), s)
  | username :: rules =>
    changeUsers (fun aclManager => (.ok, aclManager.setUser username.value <|
      if rules = [] then [ascii "off", ascii "nopass", ascii "-@all"] else rules.map (·.value))) s

def handleAclDelUser (args : List CommandArg) (s : WorkerCommandContext V) :
    HandlerOutcome × WorkerCommandContext V :=
  match args with
  | [username] =>
    changeUsers (fun aclManager =>
      let (deleted, aclManager) := aclManager.deleteUser username.value
      (.ofResponse (.ofInteger (if deleted then 1 else 0)), aclManager)) s
  | _ => (.returns (.ofError (ascii "ERR wrong number of arguments for 'acl deluser' command")), s)

/-- The error names another subcommand. -/
def handleAclSetpass (args : List CommandArg) (s : WorkerCommandContext V) :
    HandlerOutcome × WorkerCommandContext V :=
  match args with
  | [] => (.returns (.ofError (ascii "ERR wrong number of arguments for 'acl setuser' command")), s)
  | username :: rest =>
    changeUsers (fun aclManager => (.ok, aclManager.setPassword username.value
      ((rest.head?.map (·.value)).getD []))) s

def aclQueries : List Bytes :=
  [ascii "SAVE", ascii "LOAD", ascii "LIST", ascii "USERS", ascii "GETUSER", ascii "CAT",
   ascii "GENPASS", ascii "WHOAMI", ascii "GETPASS"]

/-- `HandleAcl`; `query` is what the subcommands that only read answer. -/
def handleAcl (query : Command → WorkerCommandContext V → CommandResult) :
    CommandHandler (WorkerCommandContext V) := fun command s =>
  match command.args with
  | [] => (.returns (.ofError (ascii "ERR wrong number of arguments for 'acl' command")), s)
  | subcommand :: args =>
    if subcommand.value = ascii "SETUSER" then handleAclSetUser args s
    else if subcommand.value = ascii "DELUSER" then handleAclDelUser args s
    else if subcommand.value = ascii "SETPASS" then handleAclSetpass args s
    else if aclQueries.contains subcommand.value then (.returns (query command s), s)
    else
      (.returns (.ofError (ascii "ERR Unknown ACL subcommand '" ++ subcommand.value ++ ascii "'")), s)

def handleMulti : CommandHandler (WorkerCommandContext V) := fun _ s =>
  if s.transaction.inTransaction then
    (.returns (.ofError (ascii "ERR MULTI calls can not be nested")), s)
  else (.returns .ok, s.setTransaction s.transaction.beginTransaction)

/-- The worker executes an `EXEC` in a transaction itself. -/
def handleExec : CommandHandler (WorkerCommandContext V) := fun _ s =>
  if !s.transaction.inTransaction then (.returns (.ofError (ascii "ERR EXEC without MULTI")), s)
  else (.returns (.ofResponse (.ofArray [])), s.discardTransaction)

def handleDiscard : CommandHandler (WorkerCommandContext V) := fun _ s =>
  if !s.transaction.inTransaction then (.returns (.ofError (ascii "ERR DISCARD without MULTI")), s)
  else (.returns .ok, s.discardTransaction)

/-- `keyVersion` is `GetKeyVersion`, of what is stored under a key. -/
def handleWatch (keyVersion : Option V → UInt64) : CommandHandler (WorkerCommandContext V) :=
  fun command s =>
    if command.args = [] then
      (.returns (.ofError (ascii "ERR wrong number of arguments for 'watch' command")), s)
    else if s.transaction.inTransaction then
      (.returns (.ofError (ascii "ERR WATCH inside MULTI is not allowed")), s)
    else
      let keys := (command.args.filter (·.isBulkString)).map (·.value)
      (.returns .ok, s.setTransaction <|
        keys.foldl (fun t key => t.watchKey key (keyVersion (s.data.database key))) s.transaction)

def handleUnwatch : CommandHandler (WorkerCommandContext V) := fun _ s =>
  (.returns .ok, s.setTransaction s.transaction.clearWatchedKeys)

/-- `SendSubscribeReply`, as far as the text goes. -/
def subscribeReply (channel : Bytes) (count : ℕ) : Bytes :=
  ascii "*3\r\n$9\r\nsubscribe\r\n$" ++ Decimal.text channel.length ++ RespBuilder.crlf ++
    channel ++ RespBuilder.crlf ++ ascii ":" ++ Decimal.text count ++ RespBuilder.crlf

/-- One round of the loop of `PubSubManager::Subscribe`. -/
def subscribeOne (s : WorkerCommandContext V) (channel : Bytes) : WorkerCommandContext V :=
  let connId := s.data.connectionId
  let channels := (s.subscriptions.channels connId).insert channel
  { s with
    subscriptions := { s.subscriptions with
      channels := Function.update s.subscriptions.channels connId channels }
    data := { s.data with sent := s.data.sent ++ [(connId, subscribeReply channel
      (channels.length + (s.subscriptions.patterns connId).length))] } }

/-- The replies are sent by the loop; the result that is returned is the default one. -/
def handleSubscribe : CommandHandler (WorkerCommandContext V) := fun command s =>
  if command.args = [] then
    (.returns (.ofError (ascii "ERR wrong number of arguments for 'subscribe' command")), s)
  else
    (.returns {}, ((command.args.filter (·.isBulkString)).map (·.value)).foldl subscribeOne s)

end Handlers

namespace CommandRegistry

variable {V : Type}

/-- The commands that change who is logged in, the users or the transactions. -/
def controlCommands : List Bytes :=
  [ascii "AUTH", ascii "ACL", ascii "MULTI", ascii "EXEC", ascii "DISCARD", ascii "WATCH",
   ascii "UNWATCH"]

/-- All other commands, and these. -/
def withControl (query : Command → WorkerCommandContext V → CommandResult)
    (keyVersion : Option V → UInt64) (others : CommandRegistry (WorkerCommandContext V)) :
    CommandRegistry (WorkerCommandContext V) :=
  others
    |>.register ⟨ascii "AUTH", -2, .kNone⟩ handleAuth
    |>.register ⟨ascii "ACL", -2, .kNone⟩ (handleAcl query)
    |>.register ⟨ascii "MULTI", 1, .kNone⟩ handleMulti
    |>.register ⟨ascii "EXEC", 1, .kNone⟩ handleExec
    |>.register ⟨ascii "DISCARD", 1, .kNone⟩ handleDiscard
    |>.register ⟨ascii "WATCH", -2, .kNone⟩ (handleWatch keyVersion)
    |>.register ⟨ascii "UNWATCH", 1, .kNone⟩ handleUnwatch

end CommandRegistry
