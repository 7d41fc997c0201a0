/-
The keys that a command reads and writes.

A handler of a data command sees the databases of the workers, by key, and nothing of
users and permissions; that of another worker it uses through a task.  What is stored under
a key, of whatever type and with its metadata, is a value of type `V`.

A handler writes a key if it changes what is stored there, and reads it if what it does
otherwise depends on what is stored there.

`DEL`, `EXISTS` and `MSETNX` are given in full.
-/
import AstraDB.CommandRegistry

open Function

/-- What a handler of a data command sees and changes. -/
structure DataView (V : Type) where
  /-- the worker it runs on -/
  self : ℕ
  connectionId : UInt64
  databases : ℕ → Bytes → Option V
  /-- the replies that it puts into the response queue of its worker itself -/
  sent : List (UInt64 × Bytes) := []

namespace DataView

variable {V : Type}

def setKey (s : DataView V) (w : ℕ) (key : Bytes) (v : Option V) : DataView V :=
  { s with databases := update s.databases w (update (s.databases w) key v) }

def database (s : DataView V) : Bytes → Option V := s.databases s.self

end DataView

namespace CommandHandler

variable {V : Type} (handler : CommandHandler (DataView V)) (command : Command) (s : DataView V)

/-- The handler changes what is stored under the key, on some worker. -/
def Writes (key : Bytes) : Prop :=
  ∃ w, (handler command s).2.databases w key ≠ s.databases w key

/-- Something else stored under the key, on some worker, changes the outcome or the state
elsewhere. -/
def Reads (key : Bytes) : Prop :=
  ∃ w v, (handler command (s.setKey w key v)).1 ≠ (handler command s).1 ∨
    (handler command (s.setKey w key v)).2.setKey w key v ≠ (handler command s).2.setKey w key v

def Touches (key : Bytes) : Prop := Reads handler command s key ∨ Writes handler command s key

end CommandHandler

section Handlers

variable {V : Type}

def Database.del (db : Bytes → Option V) (key : Bytes) : Bool × (Bytes → Option V) :=
  ((db key).isSome, update db key none)

/-- The loop of `Database::Del(keys)`. -/
def Database.delKeys : List Bytes → ℕ × (Bytes → Option V) → ℕ × (Bytes → Option V)
  | [], s => s
  | key :: keys, (count, db) =>
    let (removed, db) := Database.del db key
    delKeys keys (if removed then count + 1 else count, db)

def handleDel : CommandHandler (DataView V) := fun command s =>
  if command.args = [] then
    (.returns (.ofError (ascii "ERR wrong number of arguments for 'DEL' command")), s)
  else if command.args.any (!·.isBulkString) then
    (.returns (.ofError (ascii "ERR wrong type of key argument")), s)
  else
    let (count, db) := Database.delKeys (command.args.map (·.value)) (0, s.database)
    (.returns (.ofResponse (.ofInteger (Int64.ofNat count))),
      { s with databases := update s.databases s.self db })

def handleExists : CommandHandler (DataView V) := fun command s =>
  if command.args = [] then
    (.returns (.ofError (ascii "ERR wrong number of arguments for 'EXISTS' command")), s)
  else if command.args.any (!·.isBulkString) then
    (.returns (.ofError (ascii "ERR wrong type of key argument")), s)
  else
    let count := (command.args.map (·.value)).countP fun key => (s.database key).isSome
    (.returns (.ofResponse (.ofInteger (Int64.ofNat count))), s)

def keyValuePairs : List CommandArg → List (CommandArg × CommandArg)
  | key :: value :: args => (key, value) :: keyValuePairs args
  | _ => []

/-- The first loop of `MSETNX`; `getString` is what `Get` finds. -/
def mSetNxCheck (getString : V → Option Bytes) (db : Bytes → Option V) :
    List (CommandArg × CommandArg) → Option CommandResult
  | [] => none
  | (key, _) :: pairs =>
    if !key.isBulkString then some (.ofError (ascii "ERR wrong type of key argument"))
    else if ((db key.value).bind getString).isSome then some (.ofResponse (.ofInteger 0))
    else mSetNxCheck getString db pairs

/-- The second loop; an error leaves the keys that have been set. -/
def mSetNxSet (stringValue : Bytes → V) :
    List (CommandArg × CommandArg) → (Bytes → Option V) → CommandResult × (Bytes → Option V)
  | [], db => (.ofResponse (.ofInteger 1), db)
  | (key, value) :: pairs, db =>
    if !value.isBulkString then (.ofError (ascii "ERR wrong type of value argument"), db)
    else mSetNxSet stringValue pairs (update db key.value (some (stringValue value.value)))

def handleMSetNx (getString : V → Option Bytes) (stringValue : Bytes → V) :
    CommandHandler (DataView V) := fun command s =>
  if command.args.length = 0 ∨ command.args.length % 2 ≠ 0 then
    (.returns (.ofError (ascii "ERR wrong number of arguments for 'MSETNX' command")), s)
  else
    match mSetNxCheck getString s.database (keyValuePairs command.args) with
    | some result => (.returns result, s)
    | none =>
      let (result, db) := mSetNxSet stringValue (keyValuePairs command.args) s.database
      (.returns result, { s with databases := update s.databases s.self db })

end Handlers
