/-
The append-only file: what the handlers pass to `LogToAof`.

Sixteen handlers log; they are given in full, with the records.  A handler checks its
arguments, and then works on the database (`Plan`).  Of the commands that never log only the
calls to the database are given, in order.

The clock, the random numbers and the keys that memory pressure evicts during a write come
from outside.  Signed overflow wraps.
-/
import AstraDB.Database
import AstraDB.HashSlot
import AstraDB.Keyspace

structure AofEnv extends DatabaseEnv where
  /-- `absl::SimpleAtod` -/
  simpleAtod : Bytes → Option Double
  addDouble : Double → Double → Double
  /-- 17 digits after the point, without the zeros at the end -/
  formatDouble : Double → Bytes

/-- A worker: how many there are, and its number. -/
structure AofWorker where
  workers : ℕ
  self : ℕ

/-- The keys that the writes of a command evict, with their types. -/
abbrev Evictions := ℕ → List (Bytes × KeyType)

/-- What a command reads from outside: the clock, what `absl::Uniform` gives, and what is
evicted by its writes. -/
structure Outside where
  now : Int64
  choice : ℕ
  evictions : Evictions

def Outside.calm (now : Int64) (choice : ℕ) : Outside := ⟨now, choice, fun _ => []⟩

namespace Store

variable {env : DatabaseEnv}

def get (key : Bytes) : Store env → Option Bytes × Store env := onKey key Stored.get

def setExpireMs (key : Bytes) (ms : Int64) : Store env → Bool × Store env :=
  onKey key (Stored.setExpireMs ms)

structure SetOptions where
  nx : Bool := false
  xx : Bool := false
  expireTimeMs : Option Int64 := none

/-- What `SET` and `SETNX` do; the answer is whether the key was set. -/
def setIf (key value : Bytes) (options : SetOptions) (evictions : Evictions) (db : Store env) :
    Bool × Store env :=
  let (existing, db) := db.get key
  if options.nx && existing.isSome || options.xx && existing.isNone then (false, db)
  else
    let db := db.set key value (evictions 0)
    (true, options.expireTimeMs.elim db fun ms => (db.setExpireMs key ms).2)

def delKeys : List Bytes → Store env → ℕ × Store env
  | [], db => (0, db)
  | key :: keys, db =>
    let (removed, db) := db.del key
    let (count, db) := delKeys keys db
    (if removed then count + 1 else count, db)

/-- The loop of `MSET`, up to an argument of the wrong type. -/
def mSet : List (CommandArg × CommandArg) → Evictions → Store env → Bool × Store env
  | [], _, db => (true, db)
  | (key, value) :: pairs, evictions, db =>
    if !key.isBulkString || !value.isBulkString then (false, db)
    else
      mSet pairs (fun n => evictions (n + 1)) (db.set key.value value.value (evictions 0))

/-- The first loop of `MSETNX`: why nothing is set. -/
def mSetNxRefusal : List (CommandArg × CommandArg) → Store env → Option CommandResult × Store env
  | [], db => (none, db)
  | (key, _) :: pairs, db =>
    if !key.isBulkString then (some (.ofError (ascii "ERR wrong type of key argument")), db)
    else
      let (existing, db) := db.get key.value
      if existing.isSome then (some (.ofResponse (.ofInteger 0)), db)
      else mSetNxRefusal pairs db

/-- The second loop of `MSETNX`. -/
def mSetNxSet :
    List (CommandArg × CommandArg) → Evictions → Store env → Option CommandResult × Store env
  | [], _, db => (none, db)
  | (key, value) :: pairs, evictions, db =>
    if !value.isBulkString then (some (.ofError (ascii "ERR wrong type of value argument")), db)
    else
      mSetNxSet pairs (fun n => evictions (n + 1)) (db.set key.value value.value (evictions 0))

def mSetNx (pairs : List (CommandArg × CommandArg)) (evictions : Evictions) (db : Store env) :
    Option CommandResult × Store env :=
  let (refusal, db) := mSetNxRefusal pairs db
  if refusal.isSome then (refusal, db) else mSetNxSet pairs evictions db

def getSet (key value : Bytes) (evictions : Evictions) (db : Store env) :
    Option Bytes × Store env :=
  let (old, db) := db.get key
  (old, db.set key value (evictions 0))

def setEx (key value : Bytes) (ms : Int64) (evictions : Evictions) (db : Store env) :
    Bool × Store env :=
  (db.set key value (evictions 0)).setExpireMs key ms

/-- A string with a part overwritten, and zeros for what is missing. -/
def overwrite (offset : ℕ) (value str : Bytes) : Bytes :=
  let str := str ++ List.replicate (offset + value.length - str.length) 0
  str.take offset ++ value ++ str.drop (offset + value.length)

/-- `SetRange`; the answer is the new length. -/
def setRange (key : Bytes) (offset : ℕ) (value : Bytes) (evictions : Evictions)
    (db : Store env) : ℕ × Store env :=
  let (existing, db) := db.get key
  let str := overwrite offset value (existing.getD [])
  (str.length, db.set key str (evictions 0))

/-- `SPop` of the member with the number `choice`. -/
def sPop (key : Bytes) (now : Int64) (choice : ℕ) (db : Store env) : Option Bytes × Store env :=
  let (set, db) := db.validRead .sets key now
  match set with
  | none => (none, db)
  | some set =>
    match (DashSet.members set)[choice % (DashSet.members set).length]? with
    | none => (none, db)
    | some member => (some member, db.modify key fun s => s.put .sets (DashSet.erase set member))

end Store

namespace Aof

variable (env : AofEnv)

/-- `HIncrByFloat`; a field that is not a number is left as it is. -/
def hIncrByFloat (key field : Bytes) (increment : Double) :
    Store env.toDatabaseEnv → Double × Store env.toDatabaseEnv :=
  Store.extend .hashes (∅ : DashMap Bytes)
    (fun hash : DashMap Bytes =>
      match (hash.lookup field).elim (some 0) env.simpleAtod with
      | none => (0, hash)
      | some old =>
        let sum := env.addDouble old increment
        (sum, hash.insert field (env.formatDouble sum)))
    (fun _ => false) key []

def zIncrBy (key : Bytes) (increment : Double) (member : Bytes) :
    Store env.toDatabaseEnv → Double × Store env.toDatabaseEnv :=
  Store.extend .zsets (∅ : DashMap Double)
    (fun zset : DashMap Double =>
      let score := env.addDouble ((zset.lookup member).getD 0) increment
      (score, (Store.zsetAdd env.toDatabaseEnv member score zset).2))
    (fun _ => false) key []

/-! ### The handlers -/

/-- The arguments of a call of `LogToAof`. -/
structure Record where
  command : Bytes
  args : List Bytes
  deriving DecidableEq

/-- What a handler does once the arguments are checked: its work on the database, and the
reply and the records for the answer of that. -/
structure Plan where
  α : Type
  op : Store env.toDatabaseEnv → α × Store env.toDatabaseEnv
  reply : α → CommandResult × List Record

/-- The text of the error, or the plan. -/
abbrev Handler := List CommandArg → Except Bytes (Plan env)

def wrongNumber (name : Bytes) : Bytes :=
  ascii "ERR wrong number of arguments for '" ++ name ++ ascii "' command"

def wrongType : Bytes := ascii "ERR wrong type of argument"

def notInteger : Bytes := ascii "ERR value is not an integer or out of range"

def invalidExpire : Bytes := ascii "ERR invalid expire time"

def replyOk : CommandResult := .ofResponse (.ofString (ascii "OK") .kSimpleString)

def replyInteger (num : Int64) : CommandResult := .ofResponse (.ofInteger num)

def replyNull : CommandResult := .ofResponse (.ofType .kNullBulkString)

def replyString (str : Option Bytes) : CommandResult :=
  str.elim replyNull fun str => .ofResponse (.ofString str .kBulkString)

/-- The time behind `EX` and `PX`, in units of `unit` milliseconds. -/
def expireArg (now unit : Int64) (typeError : Bytes) (arg : CommandArg) : Except Bytes Int64 :=
  if !arg.isBulkString then .error typeError
  else
    match env.simpleAtoi arg.value with
    | none => .error notInteger
    | some time => if time < 0 then .error invalidExpire else .ok (now + time * unit)

/-- The loop over the options of `SET`. -/
def setOptions (now : Int64) :
    List CommandArg → Store.SetOptions → Except Bytes Store.SetOptions
  | [], options => .ok options
  | arg :: args, options =>
    if !arg.isBulkString then .error (ascii "ERR wrong type of option argument")
    else if arg.value = ascii "NX" then setOptions now args { options with nx := true }
    else if arg.value = ascii "XX" then setOptions now args { options with xx := true }
    else if arg.value = ascii "EX" then
      match args with
      | [] => .error (ascii "ERR syntax error")
      | next :: args =>
        match expireArg env now 1000 (ascii "ERR wrong type of seconds argument") next with
        | .error err => .error err
        | .ok ms => setOptions now args { options with expireTimeMs := some ms }
    else if arg.value = ascii "PX" then
      match args with
      | [] => .error (ascii "ERR syntax error")
      | next :: args =>
        match expireArg env now 1 (ascii "ERR wrong type of milliseconds argument") next with
        | .error err => .error err
        | .ok ms => setOptions now args { options with expireTimeMs := some ms }
    else .error (ascii "ERR syntax error")

/-- The record has the absolute time behind `PX`, and no `NX` or `XX`. -/
def setRecord (key value : Bytes) (options : Store.SetOptions) : Record :=
  ⟨ascii "SET", key :: value ::
    options.expireTimeMs.elim [] fun ms => [ascii "PX", env.strCat ms]⟩

def handleSet (outside : Outside) : Handler env
  | key :: value :: args =>
    if !key.isBulkString || !value.isBulkString then
      .error (ascii "ERR wrong type of key or value argument")
    else
      match setOptions env outside.now args {} with
      | .error err => .error err
      | .ok options =>
        if options.nx && options.xx then
          .error (ascii "ERR NX and XX options at the same time are not compatible")
        else .ok ⟨Bool, Store.setIf key.value value.value options outside.evictions, fun done =>
          if done then (replyOk, [setRecord env key.value value.value options])
          else (replyNull, [])⟩
  | _ => .error (wrongNumber (ascii "SET"))

def handleDel : Handler env := fun args =>
  if args = [] then .error (wrongNumber (ascii "DEL"))
  else if args.any (!·.isBulkString) then .error (ascii "ERR wrong type of key argument")
  else .ok ⟨ℕ, Store.delKeys (args.map (·.value)), fun count =>
    (replyInteger (Int64.ofNat count), [⟨ascii "DEL", args.map (·.value)⟩])⟩

/-- With several workers, the keys of the others are set by them. -/
def handleMSet (worker : AofWorker) (outside : Outside) : Handler env := fun args =>
  let typeError := ascii "ERR wrong type of key or value argument"
  let pairs := keyValuePairs args
  if args.length = 0 ∨ args.length % 2 ≠ 0 then .error (wrongNumber (ascii "MSET"))
  else if 1 < worker.workers ∧ args.any (!·.isBulkString) then .error typeError
  else
    let own := if 1 < worker.workers then
        pairs.filter fun pair =>
          HashSlotCalculator.calculateWithTag pair.1.value % worker.workers = worker.self
      else pairs
    .ok ⟨Bool, Store.mSet own outside.evictions, fun done =>
      if done then (replyOk, [⟨ascii "MSET", args.map (·.value)⟩]) else (.ofError typeError, [])⟩

def handleMSetNx (outside : Outside) : Handler env := fun args =>
  if args.length = 0 ∨ args.length % 2 ≠ 0 then .error (wrongNumber (ascii "MSETNX"))
  else .ok ⟨Option CommandResult, Store.mSetNx (keyValuePairs args) outside.evictions,
    fun refusal =>
      refusal.elim (replyInteger 1, [⟨ascii "MSETNX", args.map (·.value)⟩]) fun result =>
        (result, [])⟩

/-- The plan of the handlers that change a number. -/
def incrPlan (name key : Bytes) (increment : Int64) (args : List CommandArg)
    (outside : Outside) : Plan env :=
  ⟨Option Int64, Store.incrBy increment key (outside.evictions 0), fun sum =>
    sum.elim (.ofError notInteger, []) fun sum =>
      (replyInteger sum, [⟨name, args.map (·.value)⟩])⟩

/-- `INCR` and `DECR`. -/
def handleStep (name : Bytes) (increment : Int64) (outside : Outside) : Handler env
  | [key] =>
    if !key.isBulkString then .error (ascii "ERR wrong type of key argument")
    else .ok (incrPlan env name key.value increment [key] outside)
  | _ => .error (wrongNumber name)

def handleIncr : Outside → Handler env := handleStep env (ascii "INCR") 1

def handleDecr : Outside → Handler env := handleStep env (ascii "DECR") (-1)

/-- `INCRBY` and `DECRBY`. -/
def handleStepBy (name : Bytes) (increment : Int64 → Int64) (outside : Outside) : Handler env
  | [key, arg] =>
    if !key.isBulkString || !arg.isBulkString then .error wrongType
    else
      match env.simpleAtoi arg.value with
      | none => .error notInteger
      | some num => .ok (incrPlan env name key.value (increment num) [key, arg] outside)
  | _ => .error (wrongNumber name)

def handleIncrBy : Outside → Handler env := handleStepBy env (ascii "INCRBY") id

def handleDecrBy : Outside → Handler env := handleStepBy env (ascii "DECRBY") Neg.neg

/-- The handlers that take a key and a string. -/
def handleKeyValue (name : Bytes) (plan : Bytes → Bytes → Plan env) : Handler env
  | [key, value] =>
    if !key.isBulkString || !value.isBulkString then .error wrongType
    else .ok (plan key.value value.value)
  | _ => .error (wrongNumber name)

def handleAppend (outside : Outside) : Handler env :=
  handleKeyValue env (ascii "APPEND") fun key value =>
    ⟨ℕ, Store.append key value (outside.evictions 0), fun length =>
      (replyInteger (Int64.ofNat length), [⟨ascii "APPEND", [key, value]⟩])⟩

def handleGetSet (outside : Outside) : Handler env :=
  handleKeyValue env (ascii "GETSET") fun key value =>
    ⟨Option Bytes, Store.getSet key value outside.evictions, fun old =>
      (replyString old, [⟨ascii "GETSET", [key, value]⟩])⟩

def handleSetNx (outside : Outside) : Handler env :=
  handleKeyValue env (ascii "SETNX") fun key value =>
    ⟨Bool, Store.setIf key value { nx := true } outside.evictions, fun done =>
      if done then (replyInteger 1, [⟨ascii "SETNX", [key, value]⟩]) else (replyInteger 0, [])⟩

/-- The handlers that take a key and two more strings. -/
def handleThree (name : Bytes) (plan : Bytes → Bytes → Bytes → Except Bytes (Plan env)) :
    Handler env
  | [key, arg, value] =>
    if !key.isBulkString || !arg.isBulkString || !value.isBulkString then .error wrongType
    else plan key.value arg.value value.value
  | _ => .error (wrongNumber name)

def handleSetEx (outside : Outside) : Handler env :=
  handleThree env (ascii "SETEX") fun key arg value =>
    match env.simpleAtoi arg with
    | none => .error notInteger
    | some seconds =>
      if seconds < 0 then .error invalidExpire
      else
        .ok ⟨Bool, Store.setEx key value (outside.now + seconds * 1000) outside.evictions,
          fun _ => (replyOk, [⟨ascii "SETEX", [key, arg, value]⟩])⟩

def handleSetRange (outside : Outside) : Handler env :=
  handleThree env (ascii "SETRANGE") fun key arg value =>
    match env.simpleAtoi arg with
    | none => .error notInteger
    | some offset =>
      if offset < 0 then .error (ascii "ERR offset is out of range")
      else .ok ⟨ℕ, Store.setRange key offset.toInt.toNat value outside.evictions, fun length =>
        (replyInteger (Int64.ofNat length), [⟨ascii "SETRANGE", [key, arg, value]⟩])⟩

def notFloat : Bytes := ascii "ERR value is not a valid float"

def replyDouble (num : Double) : CommandResult := .ofResponse (.ofDouble num)

def handleHIncrByFloat : Handler env :=
  handleThree env (ascii "HINCRBYFLOAT") fun key field arg =>
    match env.simpleAtod arg with
    | none => .error notFloat
    | some increment => .ok ⟨Double, hIncrByFloat env key field increment, fun sum =>
      (replyDouble sum, [⟨ascii "HINCRBYFLOAT", [key, field, arg]⟩])⟩

def handleZIncrBy : Handler env :=
  handleThree env (ascii "ZINCRBY") fun key arg member =>
    match env.simpleAtod arg with
    | none => .error notFloat
    | some increment => .ok ⟨Double, zIncrBy env key increment member, fun score =>
      (replyDouble score, [⟨ascii "ZINCRBY", [key, arg, member]⟩])⟩

/-- The count behind the key is not used, and the member that was taken not recorded. -/
def handleSPop (outside : Outside) : Handler env
  | key :: _ =>
    if !key.isBulkString then .error (ascii "ERR wrong type of key argument")
    else .ok ⟨Option Bytes, Store.sPop key.value outside.now outside.choice, fun member =>
      member.elim (replyNull, []) fun member =>
        (replyString (some member), [⟨ascii "SPOP", [key.value]⟩])⟩
  | [] => .error (wrongNumber (ascii "SPOP"))

/-! ### Execution -/

/-- The commands that log. -/
inductive Logged
  | set
  | del
  | mSet
  | mSetNx
  | incr
  | decr
  | incrBy
  | decrBy
  | append
  | getSet
  | setNx
  | setEx
  | setRange
  | hIncrByFloat
  | zIncrBy
  | sPop
  deriving DecidableEq

namespace Logged

def all : List Logged :=
  [set, del, mSet, mSetNx, incr, decr, incrBy, decrBy, append, getSet, setNx, setEx, setRange,
    hIncrByFloat, zIncrBy, sPop]

def name : Logged → Bytes
  | set => ascii "SET"
  | del => ascii "DEL"
  | mSet => ascii "MSET"
  | mSetNx => ascii "MSETNX"
  | incr => ascii "INCR"
  | decr => ascii "DECR"
  | incrBy => ascii "INCRBY"
  | decrBy => ascii "DECRBY"
  | append => ascii "APPEND"
  | getSet => ascii "GETSET"
  | setNx => ascii "SETNX"
  | setEx => ascii "SETEX"
  | setRange => ascii "SETRANGE"
  | hIncrByFloat => ascii "HINCRBYFLOAT"
  | zIncrBy => ascii "ZINCRBY"
  | sPop => ascii "SPOP"

def handler (worker : AofWorker) (outside : Outside) : Logged → Handler env
  | set => handleSet env outside
  | del => handleDel env
  | mSet => handleMSet env worker outside
  | mSetNx => handleMSetNx env outside
  | incr => handleIncr env outside
  | decr => handleDecr env outside
  | incrBy => handleIncrBy env outside
  | decrBy => handleDecrBy env outside
  | append => handleAppend env outside
  | getSet => handleGetSet env outside
  | setNx => handleSetNx env outside
  | setEx => handleSetEx env outside
  | setRange => handleSetRange env outside
  | hIncrByFloat => handleHIncrByFloat env
  | zIncrBy => handleZIncrBy env
  | sPop => handleSPop env outside

end Logged

/-- The reply of a handler, the database then and the records. -/
def run (plan : Except Bytes (Plan env)) (db : Store env.toDatabaseEnv) :
    CommandResult × Store env.toDatabaseEnv × List Record :=
  match plan with
  | .error err => (.ofError err, db, [])
  | .ok plan =>
    let (answer, db) := plan.op db
    ((plan.reply answer).1, db, (plan.reply answer).2)

/-- The calls to the database of a command that does not log. -/
inductive DbCall
  | get (key : Bytes)
  | vecGet (key : Bytes)
  /-- `IsValid` and `GetKeyType`, with any read of the maps behind them -/
  | isValid (key : Bytes)
  /-- `HGetAll` and `SMembers` -/
  | load (c : Container) (key : Bytes)
  /-- the methods that only look: `GetStream`, `JsonGet`, `GetTtlMs`, `GetAllKeys` and others -/
  | look
  /-- any method that writes -/
  | write (effect : Store env.toDatabaseEnv → Store env.toDatabaseEnv)

def DbCall.run (now : Int64) (db : Store env.toDatabaseEnv) :
    DbCall env → Store env.toDatabaseEnv
  | .get key => (db.get key).2
  | .vecGet key => (db.onKey key Stored.vecGet).2
  | .isValid key => (db.onKey key (Stored.isValid now)).2
  | .load c key => (db.onKey key fun s => (s.loadInMode c).isValid now).2
  | .look => db
  | .write effect => effect db

inductive Step
  | logged (command : Logged) (args : List CommandArg) (outside : Outside)
  | unlogged (calls : List (DbCall env)) (now : Int64)

/-- The database, and the records with the times at which they were logged. -/
structure State where
  db : Store env.toDatabaseEnv
  log : List (Record × Int64)

def State.init : State env := ⟨Store.empty, []⟩

def step (worker : AofWorker) (s : State env) : Step env → State env
  | .logged command args outside =>
    let (_, db, records) := run env (command.handler env worker outside args) s.db
    ⟨db, s.log ++ records.map (·, outside.now)⟩
  | .unlogged calls now => { s with db := calls.foldl (DbCall.run env now) s.db }

/-- A record as the arguments of a command: bulk strings. -/
def Record.toArgs (record : Record) : List CommandArg :=
  record.args.map fun arg => .ofString arg .kBulkString

/-- A record is executed again, at the time at which it was logged; what is random is so
again, and nothing is evicted. -/
def replayOne (worker : AofWorker) (db : Store env.toDatabaseEnv)
    (entry : (Record × Int64) × ℕ) : Store env.toDatabaseEnv :=
  match Logged.all.find? (·.name = entry.1.1.command) with
  | none => db
  | some command =>
    (run env (command.handler env worker (.calm entry.1.2 entry.2) entry.1.1.toArgs) db).2.1

def replay (worker : AofWorker) (entries : List ((Record × Int64) × ℕ)) :
    Store env.toDatabaseEnv :=
  entries.foldl (replayOne env worker) Store.empty

def bulkArgs (texts : List String) : List CommandArg :=
  texts.map fun text => .ofString (ascii text) .kBulkString

end Aof

/-- Without RocksDB; no text is a double. -/
def simpleAof : AofEnv where
  toDatabaseEnv := simpleDatabase
  simpleAtod _ := none
  addDouble a _ := a
  formatDouble _ := []
