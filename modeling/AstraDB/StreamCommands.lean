/-
The commands on streams.

A handler first reads its arguments (`Reading`): it may answer at once, with an error or because
`std::stoull` throws, and where it reads an argument that is not there nothing is said of it.  Then
it changes the stream, if there is one.  `StreamOp` has these changes alone, with what they let the
client see (`StreamEvent`).

* `entries_increasing_of_calls` — whatever the calls, the IDs in every stream increase;
* `xadd_error_iff` — when an error of `XADD` leaves everything as it was.
-/
import AstraDB.CommandRegistry
import AstraDB.Database
import AstraDB.StreamOrder

open Option Stored Store

def asciiStrToLower (s : Bytes) : Bytes :=
  s.map fun c => if 'A'.toUInt8 ≤ c ∧ c ≤ 'Z'.toUInt8 then c + 32 else c

namespace StreamEnv

variable (env : StreamEnv)

/-- A database with these streams.  They have no serializer. -/
def database (other : DatabaseEnv) : DatabaseEnv :=
  { other with
    Stream := StreamData env.Time
    newStream := {}
    simpleAtoi := fun text =>
      if (env.simpleAtoi text).1 then some (env.simpleAtoi text).2 else none
    serialize := fun c key =>
      match c with
      | .streams => fun _ => []
      | .strings => other.serialize .strings key
      | .hashes => other.serialize .hashes key
      | .sets => other.serialize .sets key
      | .zsets => other.serialize .zsets key
      | .lists => other.serialize .lists key
      | .vectors => other.serialize .vectors key
      | .jsons => other.serialize .jsons key }

end StreamEnv

/-! ### Arguments -/

/-- An answer at once, or the arguments; `none` is undefined. -/
abbrev Reading := ExceptT HandlerOutcome Option

namespace Reading

def refuse {α : Type} (error : String) : Reading α :=
  throw (.returns (.ofError (ascii error)))

/-- `command[i]`, and the arguments after it. -/
def next : List CommandArg → Reading (CommandArg × List CommandArg)
  | [] => ExceptT.mk none
  | arg :: args => pure (arg, args)

end Reading

namespace StreamEnv

variable (env : StreamEnv) {other : DatabaseEnv}

def stoullArg (arg : CommandArg) : Reading UInt64 :=
  match env.stoull arg.value with
  | .error what => throw (.throws what)
  | .ok value => pure value

def error (text : String) : HandlerOutcome := .returns (.ofError (ascii text))

/-- `absl::SimpleAtoi`, with the error if it fails. -/
def atoiArg (text : String) (arg : CommandArg) : Except HandlerOutcome Int64 :=
  if (env.simpleAtoi arg.value).1 then .ok (env.simpleAtoi arg.value).2 else .error (error text)

/-- The answer of a handler that has read its arguments. -/
def answer {α : Type} (db : Store (env.database other))
    (act : α → HandlerOutcome × Store (env.database other)) :
    Except HandlerOutcome α → HandlerOutcome × Store (env.database other)
  | .error outcome => (outcome, db)
  | .ok args => act args

def reply (value : RespValue) : HandlerOutcome := .returns (.ofResponse value)

def bulk (text : Bytes) : RespValue := .ofString text .kBulkString

def count (n : ℕ) : HandlerOutcome := reply (.ofInteger (Int64.ofNat n))

def ok : HandlerOutcome := reply (.ofString (ascii "OK") .kSimpleString)

def streamEntryToResp (entry : StreamEntry) : RespValue :=
  .ofArray [bulk entry.id.toString,
    .ofArray (entry.fields.flatMap fun field => [bulk field.1, bulk field.2])]

def putStream (key : Bytes) (stream : StreamData env.Time) (db : Store (env.database other)) :
    Store (env.database other) :=
  db.modify key fun s => s.put .streams stream

def getStream (key : Bytes) (db : Store (env.database other)) : Option (StreamData env.Time) :=
  (db key).getStream

/-- A handler for a stream that is there. -/
def onStream (key : Bytes) (missing : HandlerOutcome) (db : Store (env.database other))
    (act : StreamData env.Time → HandlerOutcome × StreamData env.Time) :
    HandlerOutcome × Store (env.database other) :=
  match env.getStream key db with
  | none => (missing, db)
  | some stream =>
    let (outcome, stream) := act stream
    (outcome, env.putStream key stream db)

/-! ### `XADD` -/

/-- Pairs of fields and values; an odd argument at the end is left out. -/
def pairs : List CommandArg → List (Bytes × Bytes)
  | field :: value :: args => (field.value, value.value) :: pairs args
  | _ => []

/-- `[~] count` -/
def lengthArg (args : List CommandArg) : Reading (UInt64 × List CommandArg) := do
  let (arg, args) ← Reading.next args
  let (arg, args) ← if arg.value = ascii "~" then Reading.next args else pure (arg, args)
  let maxLen ← env.stoullArg arg
  pure (maxLen, args)

structure XAddArgs where
  key : Bytes
  idSpec : Bytes
  fields : List (Bytes × Bytes)
  maxLen : UInt64

def xaddArgs (args : List CommandArg) : Reading XAddArgs := do
  if args.length < 4 then
    Reading.refuse "ERR wrong number of arguments for 'xadd' command"
  let (key, args) ← Reading.next args
  let (option, rest) ← Reading.next args
  let (maxLen, args) ← if option.value = ascii "MAXLEN" then env.lengthArg rest else pure (0, args)
  let (idSpec, args) ← Reading.next args
  pure ⟨key.value, idSpec.value, pairs args, maxLen⟩

def handleXAdd (args : List CommandArg) (now : env.Time) (db : Store (env.database other)) :
    Option (HandlerOutcome × Store (env.database other)) :=
  (env.xaddArgs args).run.map <| env.answer db fun args =>
    let (stream, db) := db.onKey args.key (@Stored.getOrCreateStream (env.database other))
    let (id, stream) := StreamData.addEntry env now args.fields args.idSpec args.maxLen stream
    let db := env.putStream args.key stream db
    if id.ms = 0 ∧ id.seq = 0 ∧ args.idSpec ≠ ascii "*" then
      (error
        "ERR The ID specified in XADD is equal or smaller than the target stream top item", db)
    else (reply (bulk id.toString), db)

/-! ### `XDEL`, `XTRIM`, `XSETID` -/

def handleXDel (args : List CommandArg) (db : Store (env.database other)) :
    HandlerOutcome × Store (env.database other) :=
  match args with
  | key :: first :: rest =>
    let ids := (first :: rest).map fun arg => StreamId.parse env arg.value
    env.onStream key.value (count 0) db fun stream =>
      let (deleted, stream) := stream.delete ids
      (count deleted, stream)
  | _ => (error "ERR wrong number of arguments for 'xdel' command", db)

def xtrimArgs (args : List CommandArg) : Reading (Bytes × UInt64) := do
  if args.length < 3 then
    Reading.refuse "ERR wrong number of arguments for 'xtrim' command"
  let (key, args) ← Reading.next args
  let (option, args) ← Reading.next args
  if option.value ≠ ascii "MAXLEN" then
    Reading.refuse "ERR syntax error"
  let (maxLen, _) ← env.lengthArg args
  pure (key.value, maxLen)

def handleXTrim (args : List CommandArg) (db : Store (env.database other)) :
    Option (HandlerOutcome × Store (env.database other)) :=
  (env.xtrimArgs args).run.map <| env.answer db fun (key, maxLen) =>
    env.onStream key (count 0) db fun stream =>
      let (trimmed, stream) := stream.trim maxLen
      (count trimmed, stream)

def handleXSetId (args : List CommandArg) (db : Store (env.database other)) :
    HandlerOutcome × Store (env.database other) :=
  match args with
  | key :: lastId :: _ =>
    env.onStream key.value (error "ERR no such key") db fun stream =>
      (ok, { stream with lastId := StreamId.parse env lastId.value })
  | _ => (error "ERR wrong number of arguments for 'XSETID' command", db)

/-! ### Ranges -/

def xrangeCount : List CommandArg → Reading UInt64
  | option :: limit :: _ => if option.value = ascii "COUNT" then env.stoullArg limit else pure 0
  | _ => pure 0

def handleXRange (args : List CommandArg) (db : Store (env.database other)) :
    Option (HandlerOutcome × Store (env.database other)) :=
  match args with
  | key :: start :: stop :: args =>
    let startId := if start.value = ascii "-" then ⟨0, 0⟩ else StreamId.parse env start.value
    let stopId :=
      if stop.value = ascii "+" then ⟨UInt64.ofNat (2 ^ 64 - 1), UInt64.ofNat (2 ^ 64 - 1)⟩
      else StreamId.parse env stop.value
    (env.xrangeCount args).run.map <| env.answer db fun limit =>
      match env.getStream key.value db with
      | none => (reply (.ofArray []), db)
      | some stream =>
        (reply (.ofArray
          ((StreamData.rangeLoop startId stopId limit stream.entries 0).map streamEntryToResp)), db)
  | _ => some (error "ERR wrong number of arguments for 'xrange' command", db)

/-- `COUNT` may be given several times. -/
def xrevrangeCount : List CommandArg → UInt64 → Except HandlerOutcome UInt64
  | [], limit => .ok limit
  | arg :: args, limit =>
    if asciiStrToUpper arg.value = ascii "COUNT" then
      match args with
      | [] => .error (error "ERR syntax error")
      | value :: args => do
        let limit ← env.atoiArg "ERR invalid count" value
        xrevrangeCount args limit.toUInt64
    else xrevrangeCount args limit

def handleXRevRange (args : List CommandArg) (db : Store (env.database other)) :
    HandlerOutcome × Store (env.database other) :=
  match args with
  | key :: stop :: start :: args =>
    let stopId := StreamId.parse env stop.value
    let startId := StreamId.parse env start.value
    match env.xrevrangeCount args (UInt64.ofNat (2 ^ 64 - 1)) with
    | .error outcome => (outcome, db)
    | .ok limit =>
      match env.getStream key.value db with
      | none => (reply (.ofArray []), db)
      | some stream =>
        (reply (.ofArray ((StreamData.revRangeLoop startId stopId limit
          stream.entries.reverse 0).map streamEntryToResp)), db)
  | _ => (error "ERR wrong number of arguments for 'XREVRANGE' command", db)

/-! ### Groups -/

def handleXGroup (args : List CommandArg) (db : Store (env.database other)) :
    HandlerOutcome × Store (env.database other) :=
  match args with
  | subcmd :: key :: groupName :: startId :: options =>
    if asciiStrToLower subcmd.value = ascii "create" then
      let startId := StreamId.parse env startId.value
      let mkstream := options.head?.any fun option => option.value = ascii "MKSTREAM"
      if env.getStream key.value db = none ∧ !mkstream then (error "ERR no such key", db)
      else
        let (stream, db) :=
          db.onKey key.value (@Stored.getOrCreateStream (env.database other))
        let (created, stream) := StreamData.createGroup groupName.value startId stream
        let db := env.putStream key.value stream db
        (if created then ok else error "ERR BUSYGROUP Consumer Group name already exists", db)
    else if asciiStrToLower subcmd.value = ascii "destroy" then
      env.onStream key.value (count 0) db fun stream =>
        if groupName.value ∈ stream.groups then
          (count 1, { stream with groups := stream.groups.erase groupName.value })
        else (count 0, stream)
    else (error "ERR unknown subcommand", db)
  | _ => (error "ERR wrong number of arguments for 'xgroup' command", db)

/-- `COUNT` may be given several times. -/
def countOptions : List CommandArg → UInt64 → Reading (UInt64 × List CommandArg)
  | [], limit => pure (limit, [])
  | arg :: args, limit =>
    if arg.value = ascii "COUNT" then
      match args with
      | [] => ExceptT.mk none
      | value :: args => do
        let limit ← env.stoullArg value
        countOptions args limit
    else pure (limit, arg :: args)

structure XReadGroupArgs where
  groupName : Bytes
  consumerName : Bytes
  count : UInt64
  keys : List Bytes

/-- The IDs are not looked at. -/
def xreadgroupArgs (args : List CommandArg) : Reading XReadGroupArgs := do
  let (first, rest) ←
    match args with
    | first :: rest => pure (first, rest)
    | [] => Reading.refuse "ERR wrong number of arguments for 'xreadgroup' command"
  if args.length < 6 ∨ first.value ≠ ascii "GROUP" then
    Reading.refuse "ERR wrong number of arguments for 'xreadgroup' command"
  let (groupName, rest) ← Reading.next rest
  let (consumerName, rest) ← Reading.next rest
  let (count, rest) ← env.countOptions rest 1
  let (option, rest) ← Reading.next rest
  if option.value ≠ ascii "STREAMS" then
    Reading.refuse "ERR syntax error"
  if rest.length % 2 ≠ 0 then
    Reading.refuse "ERR Unbalanced list"
  pure ⟨groupName.value, consumerName.value, count,
    (rest.take (rest.length / 2)).map CommandArg.value⟩

/-- The loop over the keys; `now i j` is the time at entry `j` of stream `i`. -/
def readStreams (args : XReadGroupArgs) :
    List Bytes → (ℕ → ℕ → env.Time) → Store (env.database other) →
    List RespValue × Store (env.database other)
  | [], _, db => ([], db)
  | key :: keys, now, db =>
    match env.getStream key db with
    | none => readStreams args keys (fun i => now (i + 1)) db
    | some stream =>
      let (entries, stream) :=
        stream.readGroup args.groupName args.consumerName args.count (now 0)
      let (results, db) :=
        readStreams args keys (fun i => now (i + 1)) (env.putStream key stream db)
      if entries = [] then (results, db)
      else (.ofArray [bulk key, .ofArray (entries.map streamEntryToResp)] :: results, db)

def handleXReadGroup (args : List CommandArg) (now : ℕ → ℕ → env.Time)
    (db : Store (env.database other)) : Option (HandlerOutcome × Store (env.database other)) :=
  (env.xreadgroupArgs args).run.map <| env.answer db fun args =>
    let (results, db) := env.readStreams args args.keys now db
    (reply (if results = [] then .ofType .kNull else .ofArray results), db)

def handleXAck (args : List CommandArg) (db : Store (env.database other)) :
    HandlerOutcome × Store (env.database other) :=
  match args with
  | key :: groupName :: first :: rest =>
    let ids := (first :: rest).map fun arg => StreamId.parse env arg.value
    env.onStream key.value (count 0) db fun stream =>
      let (acked, stream) := stream.ack groupName.value ids
      (count acked, stream)
  | _ => (error "ERR wrong number of arguments for 'xack' command", db)

/-- Whether only IDs are to be returned, and the IDs; what follows `IDLE` is not used. -/
def claimOptions : List CommandArg → Except HandlerOutcome (Bool × List StreamId)
  | [] => .ok (false, [])
  | arg :: args =>
    if asciiStrToUpper arg.value = ascii "JUSTID" then do
      let (_, ids) ← claimOptions args
      .ok (true, ids)
    else if asciiStrToUpper arg.value = ascii "IDLE" then
      match args with
      | [] => .error (error "ERR syntax error")
      | idle :: args => do
        let _ ← env.atoiArg "ERR invalid idle time" idle
        claimOptions args
    else do
      let (justId, ids) ← claimOptions args
      .ok (justId, StreamId.parse env arg.value :: ids)

def claimedToResp (justId : Bool) (entry : StreamEntry) : RespValue :=
  if justId then bulk entry.id.toString else streamEntryToResp entry

def handleXClaim (args : List CommandArg) (now : env.Time) (db : Store (env.database other)) :
    HandlerOutcome × Store (env.database other) :=
  match args with
  | key :: groupName :: consumer :: minIdle :: first :: rest =>
    match env.atoiArg "ERR invalid min-idle-time" minIdle with
    | .error outcome => (outcome, db)
    | .ok minIdleTime =>
      env.onStream key.value (error "ERR no such key") db fun stream =>
        if groupName.value ∉ stream.groups then (error "ERR no such group", stream)
        else
          match env.claimOptions (first :: rest) with
          | .error outcome => (outcome, stream)
          | .ok (justId, ids) =>
            let (claimed, stream) :=
              stream.claim groupName.value consumer.value minIdleTime ids now
            (reply (.ofArray (claimed.map (claimedToResp justId))), stream)
  | _ => (error "ERR wrong number of arguments for 'XCLAIM' command", db)

/-- The limit, and whether only IDs are to be returned; other options are not looked at. -/
def autoClaimOptions : List CommandArg → UInt64 → Bool → Except HandlerOutcome (UInt64 × Bool)
  | [], limit, justId => .ok (limit, justId)
  | arg :: args, limit, justId =>
    if asciiStrToUpper arg.value = ascii "COUNT" then
      match args with
      | [] => .error (error "ERR syntax error")
      | value :: args => do
        let limit ← env.atoiArg "ERR invalid count" value
        autoClaimOptions args limit.toUInt64 justId
    else if asciiStrToUpper arg.value = ascii "JUSTID" then autoClaimOptions args limit true
    else autoClaimOptions args limit justId

def handleXAutoClaim (args : List CommandArg) (now : env.Time) (db : Store (env.database other)) :
    HandlerOutcome × Store (env.database other) :=
  match args with
  | key :: groupName :: consumer :: minIdle :: start :: options =>
    match env.atoiArg "ERR invalid min-idle-time" minIdle with
    | .error outcome => (outcome, db)
    | .ok minIdleTime =>
      let startId := StreamId.parse env start.value
      match env.autoClaimOptions options 100 false with
      | .error outcome => (outcome, db)
      | .ok (limit, justId) =>
        let missing := reply (.ofArray [bulk startId.toString, .ofType .kNullBulkString])
        env.onStream key.value missing db fun stream =>
          let (result, stream) :=
            stream.autoClaim groupName.value consumer.value minIdleTime startId limit now
          (match result with
            | none => error "ERR no such group"
            | some (nextId, claimed) =>
              reply (.ofArray
                [bulk nextId.toString, .ofArray (claimed.map (claimedToResp justId))]), stream)
  | _ => (error "ERR wrong number of arguments for 'XAUTOCLAIM' command", db)

/-! ### What the handlers do to the streams -/

open Runs StreamData

/-- A call of a handler, with the times at which the clock is read. -/
inductive Call
  | xadd (args : List CommandArg) (now : env.Time)
  | xdel (args : List CommandArg)
  | xtrim (args : List CommandArg)
  | xsetid (args : List CommandArg)
  | xrange (args : List CommandArg)
  | xrevrange (args : List CommandArg)
  | xgroup (args : List CommandArg)
  | xreadgroup (args : List CommandArg) (now : ℕ → ℕ → env.Time)
  | xack (args : List CommandArg)
  | xclaim (args : List CommandArg) (now : env.Time)
  | xautoclaim (args : List CommandArg) (now : env.Time)

def handle (db : Store (env.database other)) :
    env.Call → Option (HandlerOutcome × Store (env.database other))
  | .xadd args now => env.handleXAdd args now db
  | .xdel args => some (env.handleXDel args db)
  | .xtrim args => env.handleXTrim args db
  | .xsetid args => some (env.handleXSetId args db)
  | .xrange args => env.handleXRange args db
  | .xrevrange args => some (env.handleXRevRange args db)
  | .xgroup args => some (env.handleXGroup args db)
  | .xreadgroup args now => env.handleXReadGroup args now db
  | .xack args => some (env.handleXAck args db)
  | .xclaim args now => some (env.handleXClaim args now db)
  | .xautoclaim args now => some (env.handleXAutoClaim args now db)

variable {env} {db db' db'' : Store (env.database other)} {key : Bytes}

@[simp]
theorem getStream_putStream (key : Bytes) (stream : StreamData env.Time)
    (db : Store (env.database other)) :
    env.getStream key (env.putStream key stream db) = some stream := by
  rw [getStream, putStream, modify_self]
  exact @data_put (env.database other) (db key) .streams stream

theorem getStream_putStream_of_ne {key' : Bytes} (h : key' ≠ key) (stream : StreamData env.Time)
    (db : Store (env.database other)) :
    env.getStream key' (env.putStream key stream db) = env.getStream key' db := by
  rw [getStream, putStream, modify_of_ne h, getStream]

/-- A stream that is not there counts as empty. -/
def stream (env : StreamEnv) (key : Bytes) (db : Store (env.database other)) :
    StreamData env.Time :=
  (env.getStream key db).getD {}

/-- Every stream of the second database comes from that of the first by operations, of which at most
`n` are additions. -/
def Evolves (n : ℕ) (db db' : Store (env.database other)) : Prop :=
  ∀ key, ∃ ops, adds ops ≤ n ∧ env.stream key db' = after step (env.stream key db) ops

variable {n n' : ℕ}

theorem Evolves.of_stream_eq (h : ∀ key, env.stream key db' = env.stream key db) :
    Evolves n db db' := fun key => ⟨[], n.zero_le, h key⟩

theorem Evolves.refl (db : Store (env.database other)) : Evolves n db db := .of_stream_eq fun _ => rfl

theorem Evolves.mono (h : Evolves n db db') (hn : n ≤ n') : Evolves n' db db' :=
  fun key => (h key).imp fun _ hops => ⟨hops.1.trans hn, hops.2⟩

theorem Evolves.trans (h : Evolves n db db') (h' : Evolves n' db' db'') :
    Evolves (n + n') db db'' := by
  intro key
  obtain ⟨ops, hn, hops⟩ := h key
  obtain ⟨ops', hn', hops'⟩ := h' key
  refine ⟨ops ++ ops', ?_, by rw [hops', hops, after, after, after, List.foldl_append]⟩
  exact List.countP_append.trans_le (Nat.add_le_add hn hn')

theorem Evolves.putStream (key : Bytes) (db : Store (env.database other)) (op : StreamOp env) :
    Evolves (adds [op]) db (env.putStream key ((env.stream key db).step op) db) := by
  intro key'
  by_cases hkey : key' = key
  · subst hkey
    refine ⟨[op], le_rfl, ?_⟩
    rw [stream, getStream_putStream]
    rfl
  · refine ⟨[], Nat.zero_le _, ?_⟩
    rw [stream, getStream_putStream_of_ne hkey]
    rfl

theorem Evolves.onStream {missing : HandlerOutcome}
    {act : StreamData env.Time → HandlerOutcome × StreamData env.Time}
    (h : ∀ s, (act s).2 = s ∨ ∃ op, (act s).2 = s.step op) :
    Evolves 1 db (env.onStream key missing db act).2 := by
  rw [StreamEnv.onStream]
  cases hstream : env.getStream key db with
  | none => exact Evolves.refl db
  | some s =>
    have hs : env.stream key db = s := by rw [stream, hstream, getD_some]
    rcases h s with heq | ⟨op, heq⟩
    · refine Evolves.of_stream_eq fun key' => ?_
      dsimp only
      rw [heq]
      by_cases hkey : key' = key
      · rw [hkey, stream, getStream_putStream, hs]
        rfl
      · rw [stream, getStream_putStream_of_ne hkey, stream]
    · dsimp only
      rw [heq, ← hs]
      exact (Evolves.putStream key db op).mono List.countP_le_length

theorem onKey_getOrCreateStream (key : Bytes) (db : Store (env.database other)) :
    (db.onKey key (@Stored.getOrCreateStream (env.database other))).1 = env.stream key db ∧
      ∀ key', env.stream key' (db.onKey key
        (@Stored.getOrCreateStream (env.database other))).2 = env.stream key' db := by
  have hdata : (@Stored.getOrCreateStream (env.database other) (db key)).1 =
      env.stream key db ∧
      (@Stored.getOrCreateStream (env.database other) (db key)).2.getStream =
        some (env.stream key db) := by
    rw [stream, getStream, Stored.getStream, Stored.getOrCreateStream]
    cases hstream : (db key).data .streams with
    | some s => exact ⟨rfl, hstream⟩
    | none => exact ⟨rfl, @Stored.data_put (env.database other) (db key) .streams _⟩
  refine ⟨hdata.1, fun key' => ?_⟩
  by_cases hkey : key' = key
  · rw [hkey, stream, getStream, onKey]
    dsimp only
    rw [modify_self, hdata.2]
    rfl
  · rw [stream, getStream, onKey]
    dsimp only
    rw [modify_of_ne hkey]
    rfl

def xaddReply : List StreamEvent → HandlerOutcome
  | [.added id] => reply (bulk id.toString)
  | _ => error "ERR The ID specified in XADD is equal or smaller than the target stream top item"

variable {args : List CommandArg} {outcome : HandlerOutcome}

theorem handleXAdd_eq {a : XAddArgs} (h : (env.xaddArgs args).run = some (.ok a)) (now : env.Time)
    (db : Store (env.database other)) :
    env.handleXAdd args now db =
      let (events, stream) :=
        (env.stream a.key db).perform (.add now a.fields a.idSpec a.maxLen)
      some (xaddReply events, env.putStream a.key stream
        (db.onKey a.key (@getOrCreateStream (env.database other))).2) := by
  rw [handleXAdd, h]
  show some (answer env db _ _) = _
  rw [answer]
  dsimp only
  rw [(onKey_getOrCreateStream a.key db).1, perform]
  dsimp only
  by_cases hrefusal : isRefusal
      ((env.stream a.key db).addEntry env now a.fields a.idSpec a.maxLen).1 a.idSpec = true
  · rw [if_pos hrefusal]
    rw [isRefusal, decide_eq_true_iff] at hrefusal
    rw [if_pos hrefusal]
    rfl
  · rw [if_neg hrefusal]
    rw [isRefusal, decide_eq_true_iff] at hrefusal
    rw [if_neg hrefusal]
    rfl

theorem Evolves.create (key : Bytes) (db : Store (env.database other)) (op : StreamOp env) :
    Evolves 1 db (env.putStream key ((env.stream key db).step op)
      (db.onKey key (@getOrCreateStream (env.database other))).2) := by
  have hstream := (onKey_getOrCreateStream key db).2
  have hput := Evolves.putStream key
    (db.onKey key (@getOrCreateStream (env.database other))).2 op
  rw [hstream key] at hput
  exact (Evolves.of_stream_eq hstream).trans (hput.mono List.countP_le_length)

theorem Evolves.answer {α : Type} {args : Reading α}
    {act : α → HandlerOutcome × Store (env.database other)}
    (h : args.run.map (env.answer db act) = some (outcome, db')) (hact : ∀ a, Evolves n db (act a).2) :
    Evolves n db db' := by
  obtain ⟨r, -, hr⟩ := map_eq_some_iff.mp h
  have hdb : db' = (env.answer db act r).2 := by rw [hr]
  rw [hdb]
  cases r with
  | error o => exact Evolves.refl db
  | ok a => exact hact a

theorem readStreams_evolves (args : XReadGroupArgs) (keys : List Bytes) (now : ℕ → ℕ → env.Time)
    (db : Store (env.database other)) : Evolves 0 db (env.readStreams args keys now db).2 := by
  induction keys generalizing now db with
  | nil => exact Evolves.refl db
  | cons key keys ih =>
    rw [readStreams]
    cases hstream : env.getStream key db with
    | none => exact ih _ db
    | some s =>
      have hs : env.stream key db = s := by rw [stream, hstream, getD_some]
      have hput := Evolves.putStream key db
        (.readGroup args.groupName args.consumerName args.count (now 0))
      rw [hs] at hput
      have hrest := hput.trans (ih (fun i => now (i + 1)) _)
      dsimp only
      split
      · exact hrest
      · exact hrest

theorem handleXAdd_evolves {now : env.Time} (h : env.handleXAdd args now db = some (outcome, db')) :
    Evolves 1 db db' := by
  refine Evolves.answer h fun a => ?_
  have hcreate := Evolves.create a.key db (.add now a.fields a.idSpec a.maxLen)
  dsimp only
  rw [(onKey_getOrCreateStream a.key db).1]
  split
  · exact hcreate
  · exact hcreate

theorem handleXRange_snd (h : env.handleXRange args db = some (outcome, db')) : db' = db := by
  unfold handleXRange at h
  split at h
  · obtain ⟨limit, -, hanswer⟩ := map_eq_some_iff.mp h
    cases limit with
    | error o => exact (Prod.mk.inj hanswer).2.symm
    | ok limit =>
      rw [answer] at hanswer
      split at hanswer
      · exact (Prod.mk.inj hanswer).2.symm
      · exact (Prod.mk.inj hanswer).2.symm
  · exact (Prod.mk.inj (some_inj.mp h)).2.symm

theorem handleXGroup_evolves (args : List CommandArg) (db : Store (env.database other)) :
    Evolves 1 db (env.handleXGroup args db).2 := by
  unfold handleXGroup
  split
  · split
    · dsimp only
      split
      · exact Evolves.refl db
      · rw [(onKey_getOrCreateStream _ db).1]
        exact Evolves.create _ db (.createGroup _ _)
    · split
      · refine Evolves.onStream fun s => ?_
        split
        · exact .inr ⟨.destroyGroup _, rfl⟩
        · exact .inl rfl
      · exact Evolves.refl db
  · exact Evolves.refl db

theorem handleXClaim_evolves (args : List CommandArg) (now : env.Time)
    (db : Store (env.database other)) : Evolves 1 db (env.handleXClaim args now db).2 := by
  unfold handleXClaim
  split
  · split
    · exact Evolves.refl db
    · refine Evolves.onStream fun s => ?_
      split
      · exact .inl rfl
      · split
        · exact .inl rfl
        · exact .inr ⟨.claim _ _ _ _ now, rfl⟩
  · exact Evolves.refl db

theorem handleXAutoClaim_evolves (args : List CommandArg) (now : env.Time)
    (db : Store (env.database other)) : Evolves 1 db (env.handleXAutoClaim args now db).2 := by
  unfold handleXAutoClaim
  split
  · split
    · exact Evolves.refl db
    · dsimp only
      split
      · exact Evolves.refl db
      · exact Evolves.onStream fun s => .inr ⟨.autoClaim _ _ _ _ _ now, rfl⟩
  · exact Evolves.refl db

/-- **The handlers perform operations**: whatever a call does, every stream comes from what it was
by operations. -/
theorem handle_evolves {call : env.Call} (h : env.handle db call = some (outcome, db')) :
    Evolves 1 db db' := by
  -- a handler that always answers
  have hsome : ∀ {r : HandlerOutcome × Store (env.database other)},
      some r = some (outcome, db') → Evolves 1 db r.2 → Evolves 1 db db' := by
    intro r hr hevolves
    rw [some_inj] at hr
    rw [hr] at hevolves
    exact hevolves
  cases call with
  | xadd args now => exact handleXAdd_evolves h
  | xdel args =>
    refine hsome h ?_
    unfold handleXDel
    split
    · exact Evolves.onStream fun s => .inr ⟨.delete _, rfl⟩
    · exact Evolves.refl db
  | xtrim args =>
    exact Evolves.answer h fun a => Evolves.onStream fun s => .inr ⟨.trim a.2, rfl⟩
  | xsetid args =>
    refine hsome h ?_
    unfold handleXSetId
    split
    · exact Evolves.onStream fun s => .inr ⟨.setId _, rfl⟩
    · exact Evolves.refl db
  | xrange args => exact Evolves.of_stream_eq fun key => by rw [handleXRange_snd h]
  | xrevrange args =>
    refine hsome h ?_
    unfold handleXRevRange
    split
    · dsimp only
      split
      · exact Evolves.refl db
      · split <;> exact Evolves.refl db
    · exact Evolves.refl db
  | xgroup args => exact hsome h (handleXGroup_evolves args db)
  | xreadgroup args now =>
    exact Evolves.answer h fun a => (readStreams_evolves a a.keys now db).mono zero_le_one
  | xack args =>
    refine hsome h ?_
    unfold handleXAck
    split
    · exact Evolves.onStream fun s => .inr ⟨.ack _ _, rfl⟩
    · exact Evolves.refl db
  | xclaim args now => exact hsome h (handleXClaim_evolves args now db)
  | xautoclaim args now => exact hsome h (handleXAutoClaim_evolves args now db)

/-- The database after calls that all answer. -/
def handleAll (calls : List env.Call) (db : Store (env.database other)) :
    Option (Store (env.database other)) :=
  calls.foldlM (fun db call => (env.handle db call).map Prod.snd) db

theorem handleAll_evolves {calls : List env.Call} (h : handleAll calls db = some db') :
    Evolves calls.length db db' := by
  induction calls generalizing db with
  | nil => exact Option.some_inj.mp h ▸ Evolves.refl db
  | cons call calls ih =>
    obtain ⟨db₁, hdb₁, hcalls⟩ := bind_eq_some_iff.mp h
    obtain ⟨⟨outcome, db₂⟩, hcall, rfl⟩ := map_eq_some_iff.mp hdb₁
    exact ((handle_evolves hcall).trans (ih hcalls)).mono (Nat.add_comm 1 calls.length).le

/-- **Streams under commands.**  Whatever stream commands are called, fewer than 2^63 of them, the
IDs in every stream of the database increase. -/
theorem entries_increasing_of_calls {calls : List env.Call}
    (h : handleAll calls (Store.empty : Store (env.database other)) = some db')
    (hcalls : calls.length < 2 ^ 63) (key : Bytes) :
    (env.stream key db').entries.Pairwise fun a b => a.id < b.id := by
  obtain ⟨ops, hadds, hops⟩ := handleAll_evolves h key
  rw [hops]
  exact (increasing_after increasing_new (n := 0) (show (0 : UInt64).toNat < 2 ^ 63 by decide)
    (by omega)).entries

/-! ### Errors of `XADD` -/

def failed : HandlerOutcome → Bool
  | .returns result => !result.success
  | .throws _ => true
  | .throwsOther => true

variable (db db') in
/-- The entries and the last IDs of all streams are the same, and so are the keys. -/
def SameStreams : Prop :=
  ∀ key, (env.getStream key db').map (fun s => (s.entries, s.lastGenerated)) =
      (env.getStream key db).map (fun s => (s.entries, s.lastGenerated)) ∧
    (∀ c, (db' key).has c = (db key).has c) ∧
    (db' key).metadata.isSome = (db key).metadata.isSome

/-- An ID that reads as 0-0, for a stream without entries. -/
def TakesZero (args : List CommandArg) (db : Store (env.database other)) : Prop :=
  ∃ a, (env.xaddArgs args).run = some (.ok a) ∧ a.idSpec ≠ ascii "*" ∧
    StreamId.parse env a.idSpec = {} ∧ (env.stream a.key db).entries = []

theorem SameStreams.refl (db : Store (env.database other)) : SameStreams db db :=
  fun _ => ⟨rfl, fun _ => rfl, rfl⟩

theorem putStream_getOrCreateStream {s : StreamData env.Time} (h : env.getStream key db = some s) :
    env.putStream key s
      (db.onKey key (@getOrCreateStream (env.database other))).2 = db := by
  change (db key).data .streams = some s at h
  have hfound : (@getOrCreateStream (env.database other) (db key)).2 = db key := by
    rw [getOrCreateStream, h]
  rw [onKey_snd hfound]
  exact modify_eq_self (put_of_data h)

theorem takesZero_iff {a : XAddArgs} (h : (env.xaddArgs args).run = some (.ok a)) :
    TakesZero args db ↔ a.idSpec ≠ ascii "*" ∧ StreamId.parse env a.idSpec = {} ∧
      (env.stream a.key db).entries = [] := by
  constructor
  · rintro ⟨a', ha', hrest⟩
    rw [h, some_inj, Except.ok.injEq] at ha'
    rw [ha']
    exact hrest
  · exact fun hrest => ⟨a, h, hrest⟩

/-- An entry that is refused leaves the stream as it was; there is one, since it has entries. -/
theorem putStream_stream (h : (env.stream key db).entries ≠ []) :
    env.putStream key (env.stream key db)
      (db.onKey key (@getOrCreateStream (env.database other))).2 = db := by
  cases hstream : env.getStream key db with
  | none => exact absurd (by rw [stream, hstream]; rfl) h
  | some s => rw [stream, hstream, getD_some, putStream_getOrCreateStream hstream]

theorem not_sameStreams_putStream (h : (env.stream key db).entries = []) {s : StreamData env.Time}
    (hs : s.entries ≠ []) (db' : Store (env.database other)) :
    ¬ SameStreams db (env.putStream key s db') := by
  intro hsame
  have hentries := (hsame key).1
  rw [getStream_putStream, map_some] at hentries
  cases hstream : env.getStream key db with
  | none =>
    rw [hstream] at hentries
    exact some_ne_none _ hentries
  | some s' =>
    rw [stream, hstream, getD_some] at h
    rw [hstream, map_some, some_inj, Prod.mk.injEq, h] at hentries
    exact hs hentries.1

/-- **Errors of `XADD`** leave everything as it was, except that 0-0 is added to a stream without
entries. -/
theorem xadd_error_iff {args : List CommandArg} {now : env.Time} {outcome : HandlerOutcome}
    (h : env.handleXAdd args now db = some (outcome, db')) :
    (failed outcome = true → SameStreams db db') ↔ ¬ TakesZero args db := by
  obtain ⟨r, hargs, hr⟩ := map_eq_some_iff.mp h
  cases r with
  | error o =>
    obtain ⟨rfl, rfl⟩ := Prod.mk.inj hr
    refine iff_of_true (fun _ => SameStreams.refl db) ?_
    rintro ⟨a, ha, -⟩
    rw [hargs, some_inj] at ha
    exact absurd ha (by simp)
  | ok a =>
    rw [handleXAdd_eq hargs, perform, addEntry] at h
    rw [takesZero_iff hargs]
    cases hid : (env.stream a.key db).nextId env now a.idSpec with
    | none =>
      have hne := (nextId_eq_none hid).2
      rw [hid] at h
      obtain ⟨-, rfl⟩ := Prod.mk.inj (some_inj.mp h)
      rw [putStream_stream hne]
      exact iff_of_true (fun _ => SameStreams.refl db) fun hz => hne hz.2.2
    | some id =>
      rw [hid] at h
      obtain ⟨rfl, rfl⟩ := Prod.mk.inj (some_inj.mp h)
      by_cases hrefusal : isRefusal id a.idSpec = true
      · have hzero := hrefusal
        rw [isRefusal, decide_eq_true_iff] at hzero
        have hidZero : id = {} := by
          rw [StreamId.ext_iff_toNat, hzero.1, hzero.2.1]
          exact ⟨rfl, rfl⟩
        obtain ⟨hparse, hnil⟩ := (nextId_zero now hzero.2.2).mp (hidZero ▸ hid)
        refine iff_of_false (fun hsame => ?_) fun hz => hz ⟨hzero.2.2, hparse, hnil⟩
        refine not_sameStreams_putStream hnil ?_ _ (hsame (by rw [if_pos hrefusal]; rfl))
        rw [append_entries_of_nil hnil]
        exact List.cons_ne_nil _ _
      · refine iff_of_true (fun hfailed => ?_) fun hz => ?_
        · rw [if_neg hrefusal] at hfailed
          exact absurd hfailed Bool.false_ne_true
        · have hidZero := (nextId_zero now hz.1).mpr hz.2
          rw [hid, some_inj] at hidZero
          rw [hidZero] at hrefusal
          exact hrefusal (by simp [isRefusal, hz.1])

def words (texts : List String) : List CommandArg :=
  texts.map fun text => .ofString (ascii text) .kBulkString

def oneEntry : Store (simpleStreams.database simpleDatabase) :=
  simpleStreams.putStream (ascii "k") { entries := [⟨⟨7, 0⟩, []⟩], lastGeneratedMs := 7 }
    Store.empty

def twoCalls : List simpleStreams.Call :=
  [.xadd (words ["k", "7-0", "f", "v"]) (9 : Int64), .xadd (words ["k", "*", "f", "v"]) (6 : Int64)]

theorem entries_increasing_of_two_calls : ∃ db', handleAll twoCalls
      (Store.empty : Store (simpleStreams.database simpleDatabase)) = some db' ∧
    (simpleStreams.stream (ascii "k") db').entries.Pairwise fun a b => a.id < b.id :=
  ⟨_, rfl, @entries_increasing_of_calls _ _ _ twoCalls rfl (by decide) (ascii "k")⟩

theorem xadd_error_refused : ∃ outcome db',
    simpleStreams.handleXAdd (words ["k", "7-0", "f", "v"]) (9 : Int64) oneEntry =
      some (outcome, db') ∧ failed outcome = true ∧ SameStreams oneEntry db' := by
  refine ⟨_, _, rfl, rfl, (@xadd_error_iff simpleStreams simpleDatabase oneEntry _
    (words ["k", "7-0", "f", "v"]) (9 : Int64) _ rfl).mpr ?_ rfl⟩
  rintro ⟨a, ha, -, hparse, -⟩
  obtain rfl := Except.ok.inj (some_inj.mp ha)
  exact absurd hparse (by decide)

/-- 0-0 is added, and refused. -/
theorem xadd_error_zero : ∃ outcome db',
    simpleStreams.handleXAdd (words ["k", "0-0", "f", "v"]) (9 : Int64)
        (Store.empty : Store (simpleStreams.database simpleDatabase)) = some (outcome, db') ∧
      failed outcome = true ∧
      simpleStreams.getStream (ascii "k")
        (Store.empty : Store (simpleStreams.database simpleDatabase)) = none ∧
      (simpleStreams.getStream (ascii "k") db').map StreamData.entries =
        some [⟨⟨0, 0⟩, [(ascii "f", ascii "v")]⟩] :=
  ⟨_, _, rfl, rfl, rfl, rfl⟩

end StreamEnv
