/-
The commands that are registered without the `write` flag.

A handler that only reads is described by the methods of `Database` that it may call, whatever its
arguments are, as its reply does not matter here.  `SORT_RO` and `BITFIELD` are modelled in full;
`EXEC` and the scripts run other commands.  No key is evicted meanwhile.

* `unchanged_iff` — when a command changes nothing.
-/
import AstraDB.BitField
import AstraDB.Sort

open BitField Stored

namespace ReadOnly

/-! ### What is registered -/

inductive Flag
  | readonly
  | fast
  | admin
  | slow
  | dangerous
  | pubsub
  | exclusive
  | noAuth
  | write
  deriving DecidableEq, Repr

/-- The methods of `Database` that are called by commands without the flag. -/
inductive Method
  | get | mGet | getRange
  | hGet | hExists | hGetAll | hLen | hMGet
  | sMembers | sIsMember | sCard | sRandMember | sInter | sUnion | sDiff
  | zScore | zCard | zCount | zRank | zRange | zRangeByRank | zRangeByScore | zDiff
  | lLen | lIndex | lRange
  | getStream
  | vecGet | vecSearch | vectorHasIndex | vectorListIndexes | vectorGetStats
  | jsonGet | jsonType | jsonArrayLen | jsonObjLen | jsonArrIndex
  | getType | getTtlMs | getTtlSeconds | getExpireTimeMs | getKeyVersion
  | getAllKeys | dbSize | size | getKeyCount | getMemoryTracker
  deriving DecidableEq, Repr

/-- What a method does with a key. -/
def Method.accesses : Method → List Access
  | get | mGet | getRange => [.get]
  | vecGet => [.vecGet]
  | hGetAll => [.load .hashes]
  | sMembers => [.load .sets]
  -- the metadata of the first key is not looked at
  | sInter | sDiff | zDiff => [.look, .isValid]
  | getType | hGet | hExists | hLen | hMGet | sIsMember | sCard | sRandMember | sUnion
  | zScore | zCard | zCount | zRank | zRange | zRangeByRank | zRangeByScore
  | lLen | lIndex | lRange => [.isValid]
  | getStream | getTtlMs | getTtlSeconds | getExpireTimeMs | getKeyVersion | getAllKeys | dbSize
  | size | getKeyCount | getMemoryTracker | vectorHasIndex | vectorListIndexes | vectorGetStats
  | vecSearch | jsonGet | jsonType | jsonArrayLen | jsonObjLen | jsonArrIndex => [.look]

/-- What a handler does. -/
inductive Body
  /-- calls of these methods -/
  | calls (methods : List Method)
  | sortRo
  | bitField
  /-- the commands of a transaction or a script -/
  | commands
  deriving DecidableEq, Repr

structure Registration where
  name : String
  flags : List Flag
  body : Body
  deriving DecidableEq, Repr

/-- `is_write` of `CommandInfo` -/
def Registration.isWrite (r : Registration) : Bool := r.flags.contains .write

def vectorCommands : List Registration :=
  [⟨"VLIST", [.readonly], .calls [.vectorListIndexes, .vectorGetStats]⟩,
   ⟨"VGET", [.readonly], .calls [.vecGet]⟩,
   ⟨"VSEARCH", [.readonly], .calls [.vectorHasIndex, .vecSearch]⟩,
   ⟨"VSEARCHASYNC", [.readonly], .calls [.vectorHasIndex, .vecSearch]⟩,
   ⟨"VSEARCHGET", [.readonly], .calls []⟩,
   ⟨"VSEARCHWAIT", [.readonly], .calls []⟩,
   ⟨"VSEARCHCANCEL", [.readonly], .calls []⟩,
   ⟨"VSEARCHMODE", [.fast], .calls []⟩,
   ⟨"VINFO", [.readonly], .calls [.vectorGetStats]⟩]

def jsonCommands : List Registration :=
  [⟨"JSON.GET", [.readonly], .calls [.jsonGet]⟩,
   ⟨"JSON.TYPE", [.readonly], .calls [.jsonType]⟩,
   ⟨"JSON.ARRLEN", [.readonly], .calls [.jsonArrayLen]⟩,
   ⟨"JSON.OBJLEN", [.readonly], .calls [.jsonObjLen]⟩,
   ⟨"JSON.ARRINDEX", [.readonly], .calls [.jsonArrIndex]⟩]

def adminCommands : List Registration :=
  [⟨"PING", [.readonly, .fast], .calls []⟩,
   ⟨"INFO", [.readonly], .calls [.size]⟩,
   ⟨"COMMAND", [.readonly, .admin], .calls []⟩,
   ⟨"DEBUG", [.admin], .calls []⟩,
   ⟨"MODULE", [.admin], .calls []⟩,
   ⟨"CONFIG", [.admin, .slow, .dangerous], .calls [.getMemoryTracker]⟩,
   ⟨"SCAN", [.readonly, .slow], .calls [.getAllKeys]⟩,
   ⟨"MEMORY", [.readonly, .slow],
     .calls [.getType, .get, .hLen, .lLen, .sCard, .zCard, .getMemoryTracker, .getKeyCount]⟩,
   ⟨"ASKING", [.fast], .calls []⟩,
   ⟨"BGSAVE", [.admin], .calls []⟩,
   ⟨"LASTSAVE", [.readonly], .calls []⟩,
   ⟨"SAVE", [.admin], .calls []⟩,
   ⟨"TYPE", [.readonly], .calls [.getType]⟩,
   ⟨"KEYS", [.readonly], .calls [.getAllKeys]⟩,
   ⟨"RANDOMKEY", [.readonly, .fast], .calls [.getAllKeys]⟩,
   ⟨"OBJECT", [.readonly], .calls [.getType, .get]⟩,
   ⟨"TOUCH", [.readonly], .calls [.get]⟩,
   ⟨"DBSIZE", [.readonly, .fast], .calls [.dbSize]⟩,
   ⟨"TIME", [.readonly, .fast], .calls []⟩,
   ⟨"SHUTDOWN", [.admin], .calls []⟩,
   ⟨"WAIT", [.readonly], .calls []⟩,
   ⟨"WAITAOF", [.readonly], .calls []⟩,
   ⟨"READONLY", [.fast], .calls []⟩,
   ⟨"READWRITE", [.fast], .calls []⟩,
   ⟨"RESET", [.fast], .calls []⟩,
   ⟨"RESTORE-ASKING", [.fast], .calls []⟩,
   ⟨"BGREWRITEAOF", [.admin], .calls []⟩,
   ⟨"FAILOVER", [.admin], .calls []⟩,
   ⟨"LATENCY", [.readonly], .calls []⟩,
   ⟨"MONITOR", [.admin], .calls []⟩,
   ⟨"SLOWLOG", [.readonly], .calls []⟩,
   ⟨"LOLWUT", [.readonly], .calls []⟩,
   ⟨"SELECT", [.fast], .calls []⟩,
   ⟨"AUTH", [.noAuth], .calls []⟩,
   ⟨"ACL", [.admin], .calls []⟩,
   ⟨"HELLO", [.readonly, .fast], .calls []⟩,
   ⟨"QUIT", [.readonly, .fast], .calls []⟩]

def bitmapCommands : List Registration :=
  [⟨"BITCOUNT", [.readonly], .calls [.get]⟩,
   ⟨"BITPOS", [.readonly], .calls [.get]⟩,
   ⟨"BITFIELD", [.write], .bitField⟩,
   ⟨"GETBIT", [.readonly], .calls [.get]⟩]

def clientCommands : List Registration :=
  [⟨"CLIENT", [.readonly], .calls []⟩,
   ⟨"CLIENT_LIST", [.readonly], .calls []⟩,
   ⟨"CLIENT_INFO", [.readonly], .calls []⟩]

def clusterCommands : List Registration :=
  [⟨"CLUSTER", [.readonly], .calls []⟩]

def geospatialCommands : List Registration :=
  [⟨"GEODIST", [.readonly], .calls [.zScore]⟩,
   ⟨"GEOHASH", [.readonly], .calls [.zScore]⟩,
   ⟨"GEOPOS", [.readonly], .calls [.zScore]⟩,
   ⟨"GEORADIUS", [.readonly], .calls [.zRangeByRank]⟩,
   ⟨"GEOSEARCH", [.readonly], .calls [.zScore, .zRange]⟩,
   ⟨"GEORADIUS_RO", [.readonly], .calls [.zRangeByRank]⟩,
   ⟨"GEORADIUSBYMEMBER", [.readonly], .calls [.zScore, .zRange]⟩,
   ⟨"GEORADIUSBYMEMBER_RO", [.readonly], .calls [.zRange, .zScore]⟩]

def hashCommands : List Registration :=
  [⟨"HGET", [.readonly], .calls [.hGet]⟩,
   ⟨"HEXISTS", [.readonly], .calls [.hExists]⟩,
   ⟨"HGETALL", [.readonly], .calls [.hGetAll]⟩,
   ⟨"HLEN", [.readonly], .calls [.hLen]⟩,
   ⟨"HKEYS", [.readonly], .calls [.hGetAll]⟩,
   ⟨"HVALS", [.readonly], .calls [.hGetAll]⟩,
   ⟨"HMGET", [.readonly], .calls [.hMGet]⟩,
   ⟨"HSTRLEN", [.readonly], .calls [.hGet]⟩,
   ⟨"HRANDFIELD", [.readonly], .calls [.hGetAll, .hGet]⟩,
   ⟨"HTTL", [.readonly], .calls [.getType]⟩,
   ⟨"HSCAN", [.readonly], .calls [.hGetAll, .hGet]⟩,
   ⟨"HEXPIRETIME", [.readonly], .calls [.getType, .hExists]⟩,
   ⟨"HPEXPIRETIME", [.readonly], .calls [.getType, .hExists]⟩,
   ⟨"HPTTL", [.readonly], .calls [.getType, .hExists]⟩]

def hyperLogLogCommands : List Registration :=
  [⟨"PFCOUNT", [.readonly], .calls [.get]⟩,
   ⟨"PFDEBUG", [.readonly], .calls [.get]⟩,
   ⟨"PFSELFTEST", [.readonly], .calls []⟩]

def listCommands : List Registration :=
  [⟨"LLEN", [.readonly], .calls [.lLen]⟩,
   ⟨"LINDEX", [.readonly], .calls [.lIndex]⟩,
   ⟨"LRANGE", [.readonly], .calls [.lRange]⟩,
   ⟨"LPOS", [.readonly], .calls [.lRange]⟩]

def pubSubCommands : List Registration :=
  [⟨"SUBSCRIBE", [.pubsub], .calls []⟩,
   ⟨"UNSUBSCRIBE", [.pubsub], .calls []⟩,
   ⟨"PUBLISH", [.pubsub], .calls []⟩,
   ⟨"PSUBSCRIBE", [.pubsub], .calls []⟩,
   ⟨"PUNSUBSCRIBE", [.pubsub], .calls []⟩,
   ⟨"PUBSUB", [.pubsub], .calls []⟩]

def replicationCommands : List Registration :=
  [⟨"SYNC", [.readonly], .calls []⟩,
   ⟨"PSYNC", [.readonly], .calls []⟩,
   ⟨"REPLCONF", [.readonly], .calls []⟩,
   ⟨"ROLE", [.readonly], .calls []⟩]

def scriptCommands : List Registration :=
  [⟨"EVAL_RO", [.readonly], .commands⟩,
   ⟨"EVALSHA_RO", [.readonly], .commands⟩,
   ⟨"FCALL_RO", [.readonly], .commands⟩,
   ⟨"FLAGS", [.readonly], .calls []⟩]

def setCommands : List Registration :=
  [⟨"SMEMBERS", [.readonly], .calls [.sMembers]⟩,
   ⟨"SISMEMBER", [.readonly], .calls [.sIsMember]⟩,
   ⟨"SCARD", [.readonly], .calls [.sCard]⟩,
   ⟨"SINTER", [.readonly], .calls [.sMembers, .sInter]⟩,
   ⟨"SUNION", [.readonly], .calls [.sMembers, .sUnion]⟩,
   ⟨"SDIFF", [.readonly], .calls [.sMembers, .sDiff]⟩,
   ⟨"SRANDMEMBER", [.readonly], .calls [.sRandMember]⟩,
   ⟨"SINTERCARD", [.readonly], .calls [.sMembers, .sInter]⟩,
   ⟨"SMISMEMBER", [.readonly], .calls [.sIsMember]⟩,
   ⟨"SORT_RO", [.readonly], .sortRo⟩,
   ⟨"SSCAN", [.readonly], .calls [.sMembers]⟩]

def streamCommands : List Registration :=
  [⟨"XREAD", [.readonly], .calls [.getStream]⟩,
   ⟨"XRANGE", [.readonly], .calls [.getStream]⟩,
   ⟨"XLEN", [.readonly], .calls [.getStream]⟩,
   ⟨"XINFO", [.readonly], .calls [.getStream]⟩,
   ⟨"XPENDING", [.readonly], .calls [.getStream]⟩,
   ⟨"XREVRANGE", [.readonly], .calls [.getStream]⟩]

def stringCommands : List Registration :=
  [⟨"GET", [.readonly, .fast], .calls [.get]⟩,
   ⟨"MGET", [.readonly], .calls [.get, .mGet]⟩,
   ⟨"EXISTS", [.readonly], .calls [.getType]⟩,
   ⟨"STRLEN", [.readonly], .calls [.get]⟩,
   ⟨"GETRANGE", [.readonly], .calls [.getRange]⟩,
   ⟨"STRALGO", [.readonly], .calls [.get]⟩,
   ⟨"SUBSTR", [.readonly], .calls [.getRange]⟩,
   ⟨"ECHO", [.readonly], .calls []⟩,
   ⟨"LCS", [.readonly], .calls [.get]⟩,
   ⟨"DUMP", [.readonly], .calls [.get]⟩]

def transactionCommands : List Registration :=
  [⟨"MULTI", [.fast], .calls []⟩,
   ⟨"EXEC", [.exclusive], .commands⟩,
   ⟨"DISCARD", [.fast], .calls []⟩,
   ⟨"WATCH", [.fast], .calls [.getKeyVersion]⟩,
   ⟨"UNWATCH", [.fast], .calls []⟩]

def ttlCommands : List Registration :=
  [⟨"EXPIRETIME", [.readonly], .calls [.getExpireTimeMs]⟩,
   ⟨"PEXPIRETIME", [.readonly], .calls [.getExpireTimeMs]⟩,
   ⟨"TTL", [.readonly], .calls [.getTtlSeconds]⟩,
   ⟨"PTTL", [.readonly], .calls [.getTtlMs]⟩]

def zsetCommands : List Registration :=
  [⟨"ZRANGE", [.readonly], .calls [.zRangeByRank]⟩,
   ⟨"ZSCORE", [.readonly], .calls [.zScore]⟩,
   ⟨"ZCARD", [.readonly], .calls [.zCard]⟩,
   ⟨"ZCOUNT", [.readonly], .calls [.zCount]⟩,
   ⟨"ZRANK", [.readonly], .calls [.zRank]⟩,
   ⟨"ZREVRANK", [.readonly], .calls [.zRank]⟩,
   ⟨"ZREVRANGE", [.readonly], .calls [.zRange]⟩,
   ⟨"ZRANGEBYSCORE", [.readonly], .calls [.zRangeByScore]⟩,
   ⟨"ZREVRANGEBYSCORE", [.readonly], .calls [.zRangeByScore]⟩,
   ⟨"ZDIFF", [.readonly], .calls [.zRangeByRank, .zDiff]⟩,
   ⟨"ZINTER", [.readonly], .calls [.zRangeByRank, .zScore]⟩,
   ⟨"ZINTERCARD", [.readonly], .calls [.zRangeByRank, .zScore]⟩,
   ⟨"ZUNION", [.readonly], .calls [.zRangeByRank]⟩,
   ⟨"ZLEXCOUNT", [.readonly], .calls [.zRangeByRank]⟩,
   ⟨"ZMSCORE", [.readonly], .calls [.zScore]⟩,
   ⟨"ZRANDMEMBER", [.readonly], .calls [.zRangeByRank]⟩,
   ⟨"ZRANGEBYLEX", [.readonly], .calls [.zRangeByRank]⟩,
   ⟨"ZREVRANGEBYLEX", [.readonly], .calls [.zRangeByRank]⟩,
   ⟨"ZSCAN", [.readonly], .calls [.zRangeByRank]⟩]

def registered : List Registration :=
  jsonCommands ++ vectorCommands ++ adminCommands ++ bitmapCommands ++ clientCommands ++
    clusterCommands ++ geospatialCommands ++ hashCommands ++ hyperLogLogCommands ++ listCommands ++
    pubSubCommands ++ replicationCommands ++ scriptCommands ++ setCommands ++ streamCommands ++
    stringCommands ++ transactionCommands ++ ttlCommands ++ zsetCommands

/-! ### `BITFIELD` -/

section

variable {env : BitFieldEnv}

def isGet (subcommand : CommandArg) : Bool := subcommand.value = ascii "GET"

/-- All subcommands are `GET`; the last may be too short. -/
def allGet : List CommandArg → Bool
  | [] => true
  | [subcommand] => isGet subcommand
  | [subcommand, _] => isGet subcommand
  | subcommand :: _ :: _ :: args => isGet subcommand && allGet args

theorem run_of_isGet {subcommand : CommandArg} (h : isGet subcommand = true)
    (mode : OverflowMode) (args : List CommandArg) (bitmap : Bytes) :
    run env mode (subcommand :: args) bitmap =
      match args with
      | encoding :: offset :: args => do
        let offset ← offsetArg env offset
        let t ← typeArg env "ERR value is not an integer or out of range" encoding
        let (results, bitmap') ← run env mode args bitmap
        .ok (.ofInteger (t.get offset bitmap) :: results, bitmap')
      | _ => .error (error "ERR wrong number of arguments for 'BITFIELD GET'") := by
  have hvalue : subcommand.value = ascii "GET" := of_decide_eq_true h
  have hoverflow : ¬ subcommand.value = ascii "OVERFLOW" := by
    rw [hvalue]
    decide
  rw [run.eq_def]
  exact (if_neg hoverflow).trans (if_pos hvalue)

theorem run_allGet {args : List CommandArg} (h : allGet args = true) (mode : OverflowMode)
    (bitmap : Bytes) : (∃ outcome, run env mode args bitmap = .error outcome) ∨
      ∃ results, run env mode args bitmap = .ok (results, bitmap) := by
  induction args using allGet.induct with
  | case1 => exact .inr ⟨[], rfl⟩
  | case2 | case3 => exact .inl ⟨_, run_of_isGet h mode _ bitmap⟩
  | case4 subcommand encoding offset args ih =>
    rw [allGet, Bool.and_eq_true] at h
    rw [run_of_isGet h.1]
    dsimp only
    cases offsetArg env offset with
    | error outcome => exact .inl ⟨outcome, rfl⟩
    | ok o =>
      cases typeArg env "ERR value is not an integer or out of range" encoding with
      | error outcome => exact .inl ⟨outcome, rfl⟩
      | ok t =>
        rcases ih h.2 with ⟨outcome, hrun⟩ | ⟨results, hrun⟩
        · rw [hrun]
          exact .inl ⟨outcome, rfl⟩
        · rw [hrun]
          exact .inr ⟨_, rfl⟩

/-- The string is in memory; if a `GET` fails, nothing has to be loaded. -/
def BitFieldHarmless (args : List CommandArg) (now : Int64) (db : Store env.toDatabaseEnv) :
    Prop :=
  match args with
  | [] => True
  | key :: args =>
    match BitField.run env .wrap args ((db.onKey key.value Stored.get).1.getD []) with
    | .error _ => Access.get.Quiet now (db key.value)
    | .ok _ => (db key.value).has .strings = true

theorem same_set {db : Store env.toDatabaseEnv} {key value : Bytes}
    (h : (db key).data .strings = some value) (now : Int64) :
    Same now (db key) (db.set key value [] key) := by
  have hkept : key ∉ List.map Prod.fst ([] : List (Bytes × KeyType)) := List.not_mem_nil
  refine ⟨funext fun c => ?_, ?_⟩
  · rw [contents, contents]
    by_cases hc : c = .strings
    · subst hc
      rw [Store.data_set hkept value db, h]
    · rw [Store.data_set_of_ne hc hkept]
  · have hhas : (db key).has .strings = true := by
      rw [has, h]
      rfl
    rw [signature_congr (Store.set_self hkept value db).2, insertString, if_pos hhas]
    exact (signature_incrementKeyVersion now _).trans (signature_congr rfl)

theorem unchanged_getSet_iff (key : Bytes) (now : Int64) (db : Store env.toDatabaseEnv) :
    Unchanged now db
        ((db.onKey key get).2.set key ((db.onKey key get).1.getD []) []) ↔
      (db key).has .strings = true := by
  have hkept : key ∉ List.map Prod.fst ([] : List (Bytes × KeyType)) := List.not_mem_nil
  cases hdata : (db key).data .strings with
  | some value =>
    rw [Store.get_of_data hdata, has, hdata]
    refine iff_of_true (fun other => ?_) rfl
    by_cases hother : other = key
    · subst hother
      exact same_set hdata now
    · rw [Store.set_of_ne hother List.not_mem_nil]
      exact Same.refl now _
  | none =>
    rw [has, hdata]
    refine iff_of_false (fun h => ?_) Bool.false_ne_true
    have hnone := (Access.data_eq_none_of_same (h key)).mpr hdata
    exact absurd ((Store.data_set hkept _ _).symm.trans hnone) (Option.some_ne_none _)

theorem unchanged_handleBitField_iff {args : List CommandArg} (h : allGet args.tail = true)
    (now : Int64) (db : Store env.toDatabaseEnv) :
    Unchanged now db (handleBitField env args [] db).2 ↔
      BitFieldHarmless args now db := by
  match args with
  | [] => exact iff_of_true (fun key => Same.refl now _) trivial
  | key :: args =>
    rw [List.tail_cons] at h
    unfold handleBitField BitFieldHarmless
    dsimp only
    have hcases := @run_allGet env args h .wrap ((db.onKey key.value get).1.getD [])
    rcases hcases with ⟨outcome, hrun⟩ | ⟨results, hrun⟩
    · rw [hrun]
      have hread := unchanged_runCalls_iff now [(.get, key.value)] db
      rw [List.forall_mem_singleton] at hread
      exact hread
    · rw [hrun]
      exact unchanged_getSet_iff key.value now db

end

/-! ### The commands -/

section

variable (env : BitFieldEnv)

/-- What a command is called with: the calls that its handler makes, or its arguments, or what the
commands that it runs do. -/
def Body.Run : Body → Type
  | calls methods => {reads : List (Access × Bytes) //
      ∀ call ∈ reads, ∃ method ∈ methods, call.1 ∈ method.accesses}
  | sortRo => List CommandArg
  | bitField => {args : List CommandArg // allGet args.tail = true}
  | commands => List (Store env.toDatabaseEnv → Store env.toDatabaseEnv)

variable {env}

def Body.exec (now : Int64) :
    (body : Body) → body.Run env → Store env.toDatabaseEnv → Store env.toDatabaseEnv
  | calls _, reads, db => runCalls now reads.1 db
  | sortRo, args, db => (handleSortRo args now (fun _ => []) db).2
  | bitField, args, db => (BitField.handleBitField env args.1 [] db).2
  | commands, run, db =>
    List.foldl (fun db command => command db) db
      (run : List (Store env.toDatabaseEnv → Store env.toDatabaseEnv))

/-- Nothing is loaded or stored, by the commands that are run neither. -/
def Body.Harmless (now : Int64) : (body : Body) → body.Run env → Store env.toDatabaseEnv → Prop
  | calls _, reads, db => ∀ call ∈ reads.1, call.1.Quiet now (db call.2)
  | sortRo, args, db => SortHarmless args now db
  | bitField, args, db => BitFieldHarmless args.1 now db
  | commands, run, db => Unchanged now db (Body.commands.exec now run db)

theorem Access.quiet_of_noRocksDB (h : env.rocksdbAdapter = false) (now : Int64)
    (s : Stored env.toDatabaseEnv) (access : Access) : access.Quiet now s := by
  have hadapter : ¬ env.rocksdbAdapter = true := by
    rw [h]
    exact Bool.false_ne_true
  cases access with
  | get | vecGet => exact fun h => absurd h hadapter
  | load c => exact fun _ h => absurd h hadapter
  | isValid | look => trivial

/-- Calls of methods change nothing if there is no RocksDB, or none of them loads a value. -/
theorem unchanged_calls {methods : List Method} (h : env.rocksdbAdapter = false ∨
      ∀ method ∈ methods, ∀ access ∈ method.accesses, access = .isValid ∨ access = .look)
    (now : Int64) (run : (Body.calls methods).Run env) (db : Store env.toDatabaseEnv) :
    Unchanged now db ((Body.calls methods).exec now run db) := by
  refine (unchanged_runCalls_iff now run.1 db).mpr fun call hcall => ?_
  rcases h with h | h
  · exact Access.quiet_of_noRocksDB h now _ call.1
  · obtain ⟨method, hmethod, haccess⟩ := run.2 call hcall
    rcases h method hmethod call.1 haccess with hvalid | hlook
    · rw [hvalid]
      trivial
    · rw [hlook]
      trivial

end

def stringAndSet : Store BitField.simpleBitField.toDatabaseEnv :=
  ((Store.empty.set (ascii "k") (ascii "v") []).sAdd (ascii "s") (ascii "a") []).2

def getOfString : Body.bitField.Run BitField.simpleBitField :=
  ⟨[BitField.word "k", BitField.word "GET", BitField.word "u8", BitField.word "0"], rfl⟩

end ReadOnly
