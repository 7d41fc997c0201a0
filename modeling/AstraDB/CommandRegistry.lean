/-
The command registry: `CommandRegistry::Execute`.

`Execute` looks a command up by its name in capital letters, checks the number of its
arguments and the permissions of the user, and calls the handler.  `accept` is the part
before the call.

A handler is any function of the command and of what it sees of the server, a state `S`;
it returns a result or throws.  The caching of parameters only counts, and is left out.
-/
import AstraDB.AclManager
import AstraDB.RespTypes

structure CommandResult where
  response : RespValue := .ofType .kNullBulkString
  success : Bool := true
  error : Bytes := []
  isBlocking : Bool := false

namespace CommandResult

def ofResponse (resp : RespValue) : CommandResult := { response := resp }

def ofError (err : Bytes) : CommandResult := { success := false, error := err }

def blocking : CommandResult := { isBlocking := true }

end CommandResult

inductive HandlerOutcome
  | returns (result : CommandResult)
  /-- a `std::exception` with this `what()` -/
  | throws (what : Bytes)
  | throwsOther

abbrev CommandHandler (S : Type) := Command → S → HandlerOutcome × S

def handlePing {S : Type} : CommandHandler S := fun _ s =>
  (.returns (.ofResponse (.ofString (ascii "PONG") .kSimpleString)), s)

inductive RoutingStrategy
  | kNone
  | kByFirstKey
  | kByArgument
  | kAllShards
  deriving DecidableEq, Repr

structure CommandInfo where
  name : Bytes
  arity : Int32
  routing : RoutingStrategy := .kNone

namespace CommandArg

def isBulkString (arg : CommandArg) : Bool := arg.type = .kBulkString

def isSimpleString (arg : CommandArg) : Bool := arg.type = .kSimpleString

def isString (arg : CommandArg) : Bool := arg.isBulkString || arg.isSimpleString

end CommandArg

/-- What the permission checks see of the context of a command. -/
structure CommandContext where
  aclManager : Option AclManager
  authenticated : Bool
  authenticatedUser : Bytes

namespace CommandContext

def privilegedCommands : List Bytes :=
  [ascii "AUTH", ascii "PING", ascii "QUIT", ascii "HELLO", ascii "CLIENT", ascii "INFO"]

def checkCommandPermission (context : CommandContext) (command : Bytes) : Bool :=
  match context.aclManager with
  | none => true
  | some aclManager =>
    let upperCmd := asciiStrToUpper command
    if privilegedCommands.contains upperCmd then true
    else if upperCmd = ascii "ACL" ∧ context.authenticated then true
    else if context.authenticatedUser = [] ∨ !context.authenticated then false
    else aclManager.checkCommandPermission context.authenticatedUser command

def checkKeyPermission (context : CommandContext) (key : Bytes) : Bool :=
  match context.aclManager with
  | none => true
  | some aclManager =>
    if context.authenticatedUser = [] ∨ !context.authenticated then false
    else aclManager.checkKeyPermission context.authenticatedUser key

end CommandContext

structure CommandEntry (S : Type) where
  info : CommandInfo
  handler : CommandHandler S

/-- `commands_`, by the names in capital letters. -/
structure CommandRegistry (S : Type) where
  commands : Bytes → Option (CommandEntry S)

namespace CommandRegistry

variable {S : Type}

def empty : CommandRegistry S := ⟨fun _ => none⟩

variable (reg : CommandRegistry S)

def register (info : CommandInfo) (handler : CommandHandler S) : CommandRegistry S :=
  ⟨Function.update reg.commands (asciiStrToUpper info.name) (some ⟨info, handler⟩)⟩

def getInfo (name : Bytes) : Option CommandInfo :=
  (reg.commands (asciiStrToUpper name)).map (·.info)

def getRoutingStrategy (name : Bytes) : RoutingStrategy :=
  ((reg.getInfo name).map (·.routing)).getD .kNone

/-- The check of the arity; an `int` counts the arguments. -/
def arityOk (arity : Int32) (command : Command) : Bool :=
  let totalArgs := Int32.ofNat command.args.length + 1
  if 0 < arity then totalArgs = arity
  else if arity < 0 then decide (-arity ≤ totalArgs)
  else true

def nonKeyCommands : List Bytes :=
  [ascii "AUTH", ascii "PING", ascii "ECHO", ascii "QUIT", ascii "SELECT", ascii "HELLO",
   ascii "CLIENT", ascii "INFO", ascii "TIME", ascii "MONITOR", ascii "DEBUG", ascii "SHUTDOWN",
   ascii "SAVE", ascii "BGSAVE", ascii "LASTSAVE", ascii "DBSIZE", ascii "KEYS", ascii "RANDOMKEY",
   ascii "SCAN", ascii "TYPE", ascii "EXISTS", ascii "TTL", ascii "PTTL", ascii "EXPIRE",
   ascii "PEXPIRE", ascii "EXPIREAT", ascii "PEXPIREAT", ascii "PERSIST", ascii "SORT", ascii "ACL",
   ascii "SUBSCRIBE", ascii "UNSUBSCRIBE", ascii "PSUBSCRIBE", ascii "PUNSUBSCRIBE",
   ascii "PUBLISH", ascii "PUBSUB", ascii "MULTI", ascii "EXEC", ascii "DISCARD", ascii "WATCH",
   ascii "UNWATCH"]

/-- The argument that is checked as a key, if any. -/
def checkedKey (command : Command) : Option Bytes :=
  if nonKeyCommands.contains (asciiStrToUpper command.name) then none
  else
    match command.args with
    | [] => none
    | arg :: _ => if arg.isString then some arg.value else none

/-- Why a command is not executed. -/
inductive Refusal
  | emptyName
  | unknownCommand
  | wrongArity
  | noCommandPermission
  | noKeyPermission (key : Bytes)
  deriving DecidableEq, Repr

def Refusal.text (command : Command) : Refusal → Bytes
  | emptyName => ascii "ERR empty command name"
  | unknownCommand => ascii "ERR unknown command '" ++ command.name ++ ascii "'"
  | wrongArity =>
    ascii "ERR wrong number of arguments for '" ++ asciiStrToUpper command.name ++ ascii "' command"
  | noCommandPermission =>
    ascii "NOPERM No permissions to execute command '" ++ command.name ++ ascii "'"
  | noKeyPermission key => ascii "NOPERM No permissions to access key '" ++ key ++ ascii "'"

def permissionError (context : CommandContext) (command : Command) : Option Refusal :=
  if context.aclManager.isNone then none
  else if !context.checkCommandPermission command.name then some .noCommandPermission
  else
    match checkedKey command with
    | none => none
    | some key => if !context.checkKeyPermission key then some (.noKeyPermission key) else none

/-- `Execute`, up to the call of the handler. -/
def accept (context : CommandContext) (command : Command) : Except Refusal (CommandEntry S) :=
  if command.name = [] then .error .emptyName
  else
    match reg.commands (asciiStrToUpper command.name) with
    | none => .error .unknownCommand
    | some entry =>
      if !arityOk entry.info.arity command then .error .wrongArity
      else
        match permissionError context command with
        | some refusal => .error refusal
        | none => .ok entry

/-- The call of the handler, with what is made of an exception. -/
def callHandler (handler : CommandHandler S) (command : Command) (s : S) : CommandResult × S :=
  match handler command s with
  | (.returns result, s') => (result, s')
  | (.throws what, s') => (.ofError (ascii "ERR " ++ what), s')
  | (.throwsOther, s') => (.ofError (ascii "ERR unknown error"), s')

theorem callHandler_snd (handler : CommandHandler S) (command : Command) (s : S) :
    (callHandler handler command s).2 = (handler command s).2 := by
  rw [callHandler]
  split <;> simp [*]

/-- `Execute`; `context` is what the checks see of the state. -/
def execute (context : S → CommandContext) (command : Command) (s : S) : CommandResult × S :=
  match reg.accept (context s) command with
  | .error refusal => (.ofError (refusal.text command), s)
  | .ok entry => callHandler entry.handler command s

theorem accept_eq_ok {reg : CommandRegistry S} {context : CommandContext} {command : Command}
    {entry : CommandEntry S} : reg.accept context command = .ok entry ↔
      command.name ≠ [] ∧ reg.commands (asciiStrToUpper command.name) = some entry ∧
        arityOk entry.info.arity command = true ∧ permissionError context command = none := by
  by_cases hname : command.name = []
  · simp [accept, hname]
  · cases hentry : reg.commands (asciiStrToUpper command.name) with
    | none => simp [accept, hname, hentry]
    | some e =>
      cases harity : arityOk e.info.arity command with
      | false =>
        simp only [accept, hname, if_false, hentry, harity, Bool.not_false, if_true, reduceCtorEq,
          false_iff, Option.some.injEq]
        rintro ⟨-, rfl, h, -⟩
        exact Bool.false_ne_true (harity.symm.trans h)
      | true =>
        cases hperm : permissionError context command with
        | some err => simp [accept, hname, hentry, harity, hperm]
        | none =>
          simp only [accept, hname, if_false, hentry, harity, hperm, Bool.not_true,
            Bool.false_eq_true, Except.ok.injEq, Option.some.injEq, and_true]
          constructor
          · rintro rfl
            exact ⟨hname, rfl, harity⟩
          · exact fun h => h.2.1

end CommandRegistry
