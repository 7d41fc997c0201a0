/-
The keys of a database: `Database` and its `KeyMetadataManager`.

`Database` keeps the values of each type in a map of its own, and the type, the expiry time
and the version of the keys in another one.  A store is what all these maps, and RocksDB,
hold under each key (`Stored`); most methods use one key only.

What third parties compute (JSON, the serializers for RocksDB) and the types of streams and
vectors are parameters; the order of the members of a sorted set is that of its B+ tree.
Memory pressure may evict keys in the middle of a write: which ones is part of the call.
Access times and sizes, which only matter for that choice, are left out.
-/
import AstraDB.RespBuilder
import Mathlib.Data.List.AList

open Function Option

/-- The maps that hold values, in the order in which `Del` tries them. -/
inductive Container
  | strings
  | hashes
  | sets
  | zsets
  | lists
  | streams
  | vectors
  | jsons
  deriving DecidableEq, Repr

inductive KeyType
  | kNone
  | kString
  | kHash
  | kSet
  | kZSet
  | kList
  | kStream
  | kVector
  | kJson
  deriving DecidableEq, Repr

namespace Container

def all : List Container := [strings, hashes, sets, zsets, lists, streams, vectors, jsons]

theorem mem_all (c : Container) : c ∈ all := by cases c <;> decide

def keyType : Container → KeyType
  | strings => .kString
  | hashes => .kHash
  | sets => .kSet
  | zsets => .kZSet
  | lists => .kList
  | streams => .kStream
  | vectors => .kVector
  | jsons => .kJson

end Container

structure KeyMetadata where
  type : KeyType
  expireTimeMs : Option Int64 := none
  version : UInt64 := 0
  deriving DecidableEq, Repr

namespace KeyMetadata

def isExpired (metadata : KeyMetadata) (now : Int64) : Bool :=
  match metadata.expireTimeMs with
  | none => false
  | some deadline => decide (0 < deadline ∧ deadline < now)

def setExpireMs (metadata : KeyMetadata) (ms : Int64) : KeyMetadata :=
  { metadata with expireTimeMs := if ms ≤ 0 then none else some ms }

def getTtlMs (metadata : KeyMetadata) (now : Int64) : Option Int64 :=
  match metadata.expireTimeMs with
  | none => none
  | some deadline => if deadline ≤ 0 ∨ deadline ≤ now then none else some (deadline - now)

end KeyMetadata

/-- A `DashMap`, with its entries in some order. -/
abbrev DashMap (β : Type) := AList fun _ : Bytes => β

/-- A `DashSet`, with its members in some order. -/
structure DashSet where
  members : List Bytes
  nodup : members.Nodup
  deriving DecidableEq

namespace DashSet

def empty : DashSet := ⟨[], List.nodup_nil⟩

def insert (set : DashSet) (member : Bytes) : DashSet :=
  ⟨set.members.insert member, set.nodup.insert⟩

def erase (set : DashSet) (member : Bytes) : DashSet :=
  ⟨set.members.erase member, set.nodup.erase member⟩

def contains (set : DashSet) (member : Bytes) : Bool := set.members.contains member

end DashSet

/-- The types of values that are not looked into. -/
structure ValueTypes where
  Stream : Type
  VectorEntry : Type
  Json : Type

def Value (T : ValueTypes) : Container → Type
  | .strings => Bytes
  | .hashes => DashMap Bytes
  | .sets => DashSet
  | .zsets => DashMap Double
  | .lists => List Bytes
  | .streams => T.Stream
  | .vectors => T.VectorEntry
  | .jsons => T.Json

structure DatabaseEnv extends ValueTypes, BuilderEnv where
  /-- `storage_mode_ == kRocksDB` -/
  rocksdbMode : Bool
  /-- `rocksdb_adapter_ != nullptr` -/
  rocksdbAdapter : Bool
  newStream : Stream
  /-- `nlohmann::json::parse` -/
  parseJson : Bytes → Option Json
  /-- `nlohmann::json::dump` -/
  dumpJson : Json → Bytes
  /-- the text of the part of a document at a path, if there is one -/
  jsonAt : Json → Bytes → Option Bytes
  /-- `absl::SimpleAtoi` -/
  simpleAtoi : Bytes → Option Int64
  /-- equality of doubles -/
  sameScore : Double → Double → Bool
  /-- the members of a sorted set by rank, with their scores -/
  ranked : DashMap Double → List (Bytes × Double)
  ranked_empty : ranked ∅ = []
  /-- `RocksDBSerializer`, of a key and its value; nothing for types without a serializer -/
  serialize : (c : Container) → Bytes → Value toValueTypes c → Bytes
  getValueType : Bytes → Option KeyType
  deserializeString : Bytes → Option Bytes
  deserializeHash : Bytes → Option (List (Bytes × Bytes))
  deserializeSet : Bytes → Option (List Bytes)
  deserializeVector : Bytes → Option VectorEntry

/-- What the maps of a database hold under a key. -/
structure Stored (env : DatabaseEnv) where
  data : (c : Container) → Option (Value env.toValueTypes c)
  metadata : Option KeyMetadata
  rocksdb : Option Bytes

namespace Stored

variable {env : DatabaseEnv}

def empty : Stored env := ⟨fun _ => none, none, none⟩

def has (s : Stored env) (c : Container) : Bool := (s.data c).isSome

theorem has_eq_false {s : Stored env} {c : Container} : s.has c = false ↔ s.data c = none :=
  isSome_eq_false_iff.trans isNone_iff_eq_none

def put (s : Stored env) (c : Container) (value : Value env.toValueTypes c) : Stored env :=
  { s with data := update s.data c (some value) }

def remove (s : Stored env) (c : Container) : Stored env :=
  { s with data := update s.data c none }

@[simp]
theorem data_put (s : Stored env) (c : Container) (value : Value env.toValueTypes c) :
    (s.put c value).data c = some value := update_self ..

variable {c : Container} {s : Stored env}

theorem data_put_of_ne {c' : Container} (h : c' ≠ c) (s : Stored env)
    (value : Value env.toValueTypes c) : (s.put c value).data c' = s.data c' :=
  update_of_ne h ..

theorem put_of_data {value : Value env.toValueTypes c} (h : s.data c = some value) :
    s.put c value = s := by
  rw [put, ← h, update_eq_self]

@[simp]
theorem has_put (s : Stored env) (c c' : Container) (value : Value env.toValueTypes c) :
    (s.put c value).has c' = (decide (c' = c) || s.has c') := by
  by_cases h : c' = c
  · subst h
    simp [has, put]
  · simp [has, put, h]

@[simp]
theorem has_remove (s : Stored env) (c c' : Container) :
    (s.remove c).has c' = (!decide (c' = c) && s.has c') := by
  by_cases h : c' = c
  · subst h
    simp [has, remove]
  · simp [has, remove, h]

@[simp]
theorem metadata_put (s : Stored env) (c : Container) (value : Value env.toValueTypes c) :
    (s.put c value).metadata = s.metadata := rfl

/-! ### `KeyMetadataManager` -/

def registerKey (type : KeyType) (s : Stored env) : Stored env :=
  { s with metadata := some { type, version := (s.metadata.map (·.version + 1)).getD 1 } }

def unregisterKey (s : Stored env) : Stored env := { s with metadata := none }

def incrementKeyVersion (s : Stored env) : Stored env :=
  { s with metadata := s.metadata.map fun m => { m with version := m.version + 1 } }

def getKeyVersion (s : Stored env) : UInt64 := (s.metadata.map (·.version)).getD 0

variable (now : Int64)

/-- The metadata, unless it is expired; then it is removed. -/
def validMetadata (s : Stored env) : Option KeyMetadata × Stored env :=
  match s.metadata with
  | none => (none, s)
  | some m => if m.isExpired now then (none, s.unregisterKey) else (some m, s)

def isValid (s : Stored env) : Bool × Stored env :=
  let (m, s) := s.validMetadata now
  (m.isSome, s)

theorem isValid_fst (s : Stored env) :
    (s.isValid now).1 = s.metadata.any fun m => !m.isExpired now := by
  rw [isValid, validMetadata]
  cases s.metadata with
  | none => rfl
  | some m =>
    dsimp only
    rw [any_some]
    cases m.isExpired now <;> rfl

theorem isValid_snd (s : Stored env) :
    (s.isValid now).2 = { s with metadata := s.metadata.filter fun m => !m.isExpired now } := by
  obtain ⟨data, metadata, rocksdb⟩ := s
  cases metadata with
  | none => rfl
  | some m =>
    rw [isValid, validMetadata, filter_some]
    dsimp only
    cases m.isExpired now <;> rfl

theorem data_isValid (s : Stored env) : (s.isValid now).2.data = s.data := by
  rw [isValid_snd]

theorem isValid_of_metadata {now : Int64} {m : KeyMetadata} (hm : s.metadata = some m)
    (h : m.isExpired now = false) : s.isValid now = (true, s) := by
  rw [isValid, validMetadata, hm]
  dsimp only
  rw [h]
  rfl

def getKeyType (s : Stored env) : Option KeyType × Stored env :=
  let (m, s) := s.validMetadata now
  (m.map (·.type), s)

def setExpireMs (ms : Int64) (s : Stored env) : Bool × Stored env :=
  (s.metadata.isSome, { s with metadata := s.metadata.map (·.setExpireMs ms) })

def getTtlMs (s : Stored env) : Int64 :=
  match s.metadata with
  | none => -2
  | some m => if m.isExpired now then -2 else (m.getTtlMs now).getD (-1)

/-! ### RocksDB -/

/-- The map whose value `PersistKey` serializes for a type. -/
def persisted : KeyType → Option Container
  | .kString => some .strings
  | .kHash => some .hashes
  | .kSet => some .sets
  | .kVector => some .vectors
  | .kJson => some .jsons
  | _ => none

def persistKey (key : Bytes) (type : KeyType) (s : Stored env) : Stored env :=
  if !env.rocksdbAdapter then s
  else
    match persisted type with
    | none => s
    | some c =>
      match s.data c with
      | none => s
      | some value =>
        let serialized := env.serialize c key value
        if serialized = [] then s else { s with rocksdb := some serialized }

/-- `PersistKey`, in the mode that writes everything to RocksDB. -/
def persistInMode (key : Bytes) (type : KeyType) (s : Stored env) : Stored env :=
  if env.rocksdbMode then s.persistKey key type else s

theorem data_persistKey (key : Bytes) (type : KeyType) (s : Stored env) :
    (s.persistKey key type).data = s.data ∧ (s.persistKey key type).metadata = s.metadata := by
  rw [persistKey]
  split
  · exact ⟨rfl, rfl⟩
  · split
    · exact ⟨rfl, rfl⟩
    · split
      · exact ⟨rfl, rfl⟩
      · dsimp only
        split <;> exact ⟨rfl, rfl⟩

theorem data_persistInMode (key : Bytes) (type : KeyType) (s : Stored env) :
    (s.persistInMode key type).data = s.data ∧
      (s.persistInMode key type).metadata = s.metadata := by
  rw [persistInMode]
  split
  · exact data_persistKey key type s
  · exact ⟨rfl, rfl⟩

/-- A value that was read from RocksDB. -/
def load (c : Container) (value : Option (Value env.toValueTypes c)) (s : Stored env) :
    Stored env :=
  match value with
  | none => s
  | some value => (s.put c value).registerKey c.keyType

/-- The value that `LoadFromRocksDB` finds, and its map. -/
def recovered (env : DatabaseEnv) (serialized : Bytes) :
    Option ((c : Container) × Value env.toValueTypes c) :=
  match env.getValueType serialized with
  | some .kString => (env.deserializeString serialized).map fun value => ⟨.strings, value⟩
  | some .kHash =>
    (env.deserializeHash serialized).map fun fields => ⟨.hashes,
      fields.foldl (fun hash field => hash.insert field.1 field.2) (∅ : DashMap Bytes)⟩
  | some .kSet =>
    (env.deserializeSet serialized).map fun members => ⟨.sets,
      members.foldl DashSet.insert DashSet.empty⟩
  | _ => none

def loadFromRocksDB (s : Stored env) : Stored env :=
  if env.rocksdbAdapter then
    match s.rocksdb.bind (recovered env) with
    | none => s
    | some ⟨c, value⟩ => s.load c (some value)
  else s

/-- What RocksDB has for a map that has nothing itself. -/
def readThrough (c : Container) (deserialize : Bytes → Option (Value env.toValueTypes c))
    (s : Stored env) : Option (Value env.toValueTypes c) × Stored env :=
  match s.data c with
  | some value => (some value, s)
  | none =>
    if env.rocksdbAdapter then
      let value := s.rocksdb.bind deserialize
      (value, s.load c value)
    else (none, s)

theorem readThrough_of_data {value : Value env.toValueTypes c} (h : s.data c = some value)
    (deserialize : Bytes → Option (Value env.toValueTypes c)) :
    s.readThrough c deserialize = (some value, s) := by
  unfold readThrough
  rw [h]

theorem readThrough_of_none (h : s.data c = none)
    (deserialize : Bytes → Option (Value env.toValueTypes c)) :
    s.readThrough c deserialize = (none, s) ∨
      ∃ value, s.readThrough c deserialize = (some value, s.load c (some value)) := by
  unfold readThrough
  rw [h]
  dsimp only
  split
  · cases s.rocksdb.bind deserialize with
    | none => exact .inl rfl
    | some value => exact .inr ⟨value, rfl⟩
  · exact .inl rfl

theorem readThrough_cases (c : Container)
    (deserialize : Bytes → Option (Value env.toValueTypes c)) (s : Stored env) :
    s.readThrough c deserialize = (none, s) ∨
      ∃ value, (s.readThrough c deserialize).1 = some value ∧
        (s.readThrough c deserialize).2.data c = some value := by
  cases hdata : s.data c with
  | some value =>
    rw [readThrough_of_data hdata]
    exact .inr ⟨value, rfl, hdata⟩
  | none =>
    refine (readThrough_of_none hdata deserialize).imp_right ?_
    rintro ⟨value, hvalue⟩
    rw [hvalue]
    exact ⟨value, rfl, s.data_put c value⟩

/-! ### Removing keys -/

/-- The first map that has the key loses it. -/
def removeData (s : Stored env) : Bool × Stored env :=
  match Container.all.find? s.has with
  | none => (false, s)
  | some c => (true, s.remove c)

def del (s : Stored env) : Bool × Stored env :=
  let (removed, s) := s.removeData
  let s := s.unregisterKey
  (removed,
    if removed && env.rocksdbMode && env.rocksdbAdapter then { s with rocksdb := none } else s)

def evictKey (key : Bytes) (type : KeyType) (s : Stored env) : Stored env :=
  let (removed, s) := (s.persistKey key type).removeData
  if removed then s.unregisterKey else s

/-! ### Reading -/

/-- The methods that look at the metadata first: `HGet`, `HExists`, `HLen`, `HMGet`,
`SIsMember`, `SCard`, `SRandMember`, `ZScore`, `ZRange`, `ZCount`, `ZRank`, `LLen`, `LIndex`,
`LRange` and others of their kind. -/
def checkedRead {α : Type} (c : Container) (missing : α) (answer : Value env.toValueTypes c → α)
    (now : Int64) (s : Stored env) : α × Stored env :=
  let (valid, s) := s.isValid now
  if valid then ((s.data c).elim missing answer, s) else (missing, s)

theorem checkedRead_snd {α : Type} (c : Container) (missing : α)
    (answer : Value env.toValueTypes c → α) (now : Int64) (s : Stored env) :
    (s.checkedRead c missing answer now).2 = (s.isValid now).2 := by
  rw [checkedRead]
  dsimp only
  split <;> rfl

theorem checkedRead_of_unexpiring {α : Type}
    (hmetadata : ∀ m, s.metadata = some m → m.expireTimeMs = none)
    (hregistered : s.data c ≠ none → s.metadata ≠ none) (missing : α)
    (answer : Value env.toValueTypes c → α) (now : Int64) :
    s.checkedRead c missing answer now = ((s.data c).elim missing answer, s) := by
  rw [checkedRead]
  cases hm : s.metadata with
  | none =>
    have hdata : s.data c = none := by_contra fun hne => hregistered hne hm
    rw [isValid, validMetadata, hm]
    exact congrArg (·, s) (congrArg (Option.elim · missing answer) hdata).symm
  | some m =>
    have hexpired : m.isExpired now = false := by rw [KeyMetadata.isExpired, hmetadata m hm]
    rw [isValid_of_metadata hm hexpired]
    rfl

/-- The metadata is only looked at after a `return`. -/
def get (s : Stored env) : Option Bytes × Stored env :=
  s.readThrough .strings env.deserializeString

def vecGet (s : Stored env) : Option env.VectorEntry × Stored env :=
  s.readThrough .vectors env.deserializeVector

def getStream (s : Stored env) : Option env.Stream := s.data .streams

def jsonGet (path : Bytes) (s : Stored env) : Option Bytes :=
  Option.bind (s.data .jsons) fun doc =>
    if path = ascii "$" then some (env.dumpJson doc) else env.jsonAt doc path

def hGet (field : Bytes) (now : Int64) (s : Stored env) : Option Bytes × Stored env :=
  s.checkedRead .hashes none (fun hash : DashMap Bytes => hash.lookup field) now

/-- The value is loaded from RocksDB if there is none, in the mode for that. -/
def loadInMode (c : Container) (s : Stored env) : Stored env :=
  if env.rocksdbMode && !s.has c then s.loadFromRocksDB else s

theorem loadInMode_eq (h : env.rocksdbMode = true → env.rocksdbAdapter = true → s.data c = none →
      s.rocksdb.bind (recovered env) = none) : s.loadInMode c = s := by
  rw [loadInMode]
  split
  · next hload =>
    rw [Bool.and_eq_true, Bool.not_eq_true', has_eq_false] at hload
    rw [loadFromRocksDB]
    split
    · next hadapter => rw [h hload.1 hadapter hload.2]
    · rfl
  · rfl

def hGetAll (s : Stored env) : List (Bytes × Bytes) × Stored env :=
  (s.loadInMode .hashes).checkedRead .hashes []
    (fun hash : DashMap Bytes => hash.entries.map fun e => (e.1, e.2)) now

def sMembers (s : Stored env) : List Bytes × Stored env :=
  (s.loadInMode .sets).checkedRead .sets [] DashSet.members now

def slice {α : Type} (l : List α) (start stop : ℤ) : List α :=
  (l.drop start.toNat).take (stop - start + 1).toNat

/-- A negative index counts from the end; `floor` is the least index. -/
def fromEnd (size floor index : ℤ) : ℤ := if index < 0 then max (size + index) floor else index

def listRange {α : Type} (start stop : ℤ) (l : List α) : List α :=
  let size : ℤ := l.length
  let start := fromEnd size 0 start
  let stop := fromEnd size (-1) stop
  if size ≤ start then [] else slice l start (min stop (size - 1))

def lRange (start stop : ℤ) (now : Int64) (s : Stored env) : List Bytes × Stored env :=
  s.checkedRead .lists [] (listRange start stop) now

/-- The stop of `-1` is the largest `uint64_t` for `GetRangeByRank`, and so it means the end. -/
def rankRange {α : Type} (start stop : ℤ) (l : List α) : List α :=
  let size : ℤ := l.length
  let start := fromEnd size 0 start
  let stop := fromEnd size (-1) stop
  if size ≤ start then []
  else slice l start (if stop = -1 then size - 1 else min stop (size - 1))

/-- Without scores, they are zero. -/
def zRange (start stop : ℤ) (reverse withScores : Bool) (now : Int64) (s : Stored env) :
    List (Bytes × Double) × Stored env :=
  s.checkedRead .zsets []
    (fun zset : DashMap Double =>
      let members := if reverse then (env.ranked zset).reverse else env.ranked zset
      (rankRange start stop members).map fun m => (m.1, if withScores then m.2 else 0)) now

/-! ### Writing -/

/-- The value that a write changes: the one that is there, or a new one. -/
def orCreate (c : Container) (new : Value env.toValueTypes c) (s : Stored env) :
    Value env.toValueTypes c × Stored env :=
  match s.data c with
  | some value => (value, s)
  | none => (new, (s.put c new).registerKey c.keyType)

theorem orCreate_fst (s : Stored env) (c : Container) (new : Value env.toValueTypes c) :
    (s.orCreate c new).1 = (s.data c).getD new := by
  rw [orCreate]
  split
  · next value hdata => rw [hdata, getD_some]
  · next hdata => rw [hdata, getD_none]

theorem has_orCreate (s : Stored env) (c : Container) (new : Value env.toValueTypes c) :
    (s.orCreate c new).2.has c = true := by
  rw [orCreate]
  split
  · next value hdata => rw [has, hdata, isSome_some]
  · exact congrArg Option.isSome (data_put ..)

theorem data_orCreate_of_ne {c' : Container} (h : c' ≠ c) (s : Stored env)
    (new : Value env.toValueTypes c) : (s.orCreate c new).2.data c' = s.data c' := by
  rw [orCreate]
  split
  · rfl
  · exact data_put_of_ne h s new

/-- What `Set` does before keys are evicted. -/
def insertString (value : Bytes) (s : Stored env) : Stored env :=
  if s.has .strings then (s.put .strings value).incrementKeyVersion
  else (s.put .strings value).registerKey .kString

/-- A stream is registered as a string. -/
def getOrCreateStream (s : Stored env) : env.Stream × Stored env :=
  match s.data .streams with
  | some stream => (stream, s)
  | none => (env.newStream, (s.put .streams env.newStream).registerKey .kString)

def vecDel (s : Stored env) : Bool × Stored env :=
  if s.has .vectors then
    let s := (s.remove .vectors).unregisterKey
    (true, if env.rocksdbMode && env.rocksdbAdapter then { s with rocksdb := none } else s)
  else (false, s)

/-- `fits` is whether there is such an index, of the vector's dimension, and `added` what
`AddVector` returns. -/
def vecSet (key : Bytes) (fits added : Bool) (entry : env.VectorEntry) (s : Stored env) :
    Bool × Stored env :=
  if !fits then (false, s)
  else
    let s := s.vecDel.2
    let s := (s.put .vectors entry).registerKey .kVector
    (added, if added then s.persistInMode key .kVector else s)

def jsonSet (key jsonStr : Bytes) (s : Stored env) : Bool × Stored env :=
  match env.parseJson jsonStr with
  | none => (false, s)
  | some doc => (true, ((s.put .jsons doc).registerKey .kJson).persistInMode key .kJson)

end Stored

/-! ### All keys -/

abbrev Store (env : DatabaseEnv) := Bytes → Stored env

namespace Store

variable {env : DatabaseEnv}

def empty : Store env := fun _ => Stored.empty

def modify (db : Store env) (key : Bytes) (f : Stored env → Stored env) : Store env :=
  update db key (f (db key))

@[simp]
theorem modify_self (db : Store env) (key : Bytes) (f : Stored env → Stored env) :
    db.modify key f key = f (db key) := update_self ..

variable {key : Bytes} {db : Store env}

theorem modify_of_ne {other : Bytes} (h : other ≠ key) (db : Store env)
    (f : Stored env → Stored env) : db.modify key f other = db other := update_of_ne h ..

theorem modify_eq_self {f : Stored env → Stored env} (h : f (db key) = db key) :
    db.modify key f = db := by
  rw [modify, h, update_eq_self]

def onKey {α : Type} (key : Bytes) (method : Stored env → α × Stored env) (db : Store env) :
    α × Store env :=
  ((method (db key)).1, db.modify key fun s => (method s).2)

theorem onKey_snd {α : Type} {method : Stored env → α × Stored env}
    (h : (method (db key)).2 = db key) : (db.onKey key method).2 = db :=
  modify_eq_self (f := fun s => (method s).2) h

theorem onKey_eq {α : Type} {method : Stored env → α × Stored env} {a : α}
    (h : method (db key) = (a, db key)) : db.onKey key method = (a, db) := by
  refine Prod.ext ?_ (onKey_snd ?_)
  · rw [onKey, h]
  · rw [h]

theorem get_of_data {value : Bytes} (h : (db key).data .strings = some value) :
    db.onKey key Stored.get = (some value, db) :=
  onKey_eq (Stored.readThrough_of_data h _)

theorem forall_modify {P : Stored env → Prop} (h : ∀ key, P (db key)) (key : Bytes)
    (f : Stored env → Stored env) (hf : P (f (db key))) (other : Bytes) :
    P (db.modify key f other) := by
  by_cases hkey : other = key
  · rw [hkey, modify_self]
    exact hf
  · rw [modify_of_ne hkey]
    exact h other

/-- What `Get` loads from RocksDB is what the next `Get` finds. -/
theorem get_get (key key' : Bytes) (db : Store env) :
    ((db.onKey key Stored.get).2.onKey key' Stored.get).1 = (db.onKey key' Stored.get).1 := by
  by_cases hkey : key' = key
  · subst hkey
    dsimp only [onKey]
    rw [modify_self, Stored.get, Stored.get]
    rcases (db key').readThrough_cases .strings env.deserializeString with hnone | ⟨v, hv, hdata⟩
    · rw [hnone, hnone]
    · exact (congrArg Prod.fst (Stored.readThrough_of_data hdata _)).trans hv.symm
  · dsimp only [onKey]
    rw [modify_of_ne hkey]

/-- `EvictKey` for each of the keys, with the type that it is given. -/
def evict (db : Store env) (victims : List (Bytes × KeyType)) : Store env :=
  victims.foldl (fun db victim => db.modify victim.1 (Stored.evictKey victim.1 victim.2)) db

def set (key value : Bytes) (victims : List (Bytes × KeyType)) (db : Store env) : Store env :=
  ((db.modify key (Stored.insertString value)).evict victims).modify key
    (Stored.persistInMode key .kString)

/-- The writes that extend a value or create it: `edit` gives the result and the new value,
and `persists` says for which results `PersistKey` is called. -/
def extend {α : Type} (c : Container) (new : Value env.toValueTypes c)
    (edit : Value env.toValueTypes c → α × Value env.toValueTypes c) (persists : α → Bool)
    (key : Bytes) (victims : List (Bytes × KeyType)) (db : Store env) : α × Store env :=
  let (value, s) := (db key).orCreate c new
  let (result, value) := edit value
  let db := (db.modify key fun _ => s).evict victims
  -- the object is changed, which is in the map unless it was evicted
  let db := db.modify key fun s => if s.has c then s.put c value else s
  (result, if persists result then db.modify key (Stored.persistInMode key c.keyType) else db)

section

variable {key other : Bytes} {victims : List (Bytes × KeyType)}

theorem forall_evict {P : Stored env → Prop}
    (hevict : ∀ {s : Stored env}, P s → ∀ key type, P (s.evictKey key type))
    (h : ∀ key, P (db key)) (victims : List (Bytes × KeyType)) :
    ∀ key, P (db.evict victims key) := by
  induction victims generalizing db with
  | nil => exact h
  | cons victim victims ih => exact ih (forall_modify h _ _ (hevict (h victim.1) _ _))

theorem evict_of_not_mem (h : key ∉ victims.map Prod.fst) (db : Store env) :
    db.evict victims key = db key := by
  induction victims generalizing db with
  | nil => rfl
  | cons victim victims ih =>
    rw [List.map_cons, List.mem_cons, not_or] at h
    exact (ih h.2 _).trans (modify_of_ne h.1 ..)

theorem set_of_ne (hne : other ≠ key) (h : other ∉ victims.map Prod.fst) (value : Bytes)
    (db : Store env) : db.set key value victims other = db other := by
  rw [set, modify_of_ne hne, evict_of_not_mem h, modify_of_ne hne]

theorem set_self (h : key ∉ victims.map Prod.fst) (value : Bytes) (db : Store env) :
    (db.set key value victims key).data = ((db key).insertString value).data ∧
      (db.set key value victims key).metadata = ((db key).insertString value).metadata := by
  rw [set, modify_self, evict_of_not_mem h, modify_self]
  exact Stored.data_persistInMode ..

theorem data_set (h : key ∉ victims.map Prod.fst) (value : Bytes) (db : Store env) :
    (db.set key value victims key).data .strings = some value := by
  rw [(set_self h value db).1, Stored.insertString]
  split <;> exact (db key).data_put .strings value

theorem data_set_of_ne {c : Container} (hne : c ≠ .strings) (h : key ∉ victims.map Prod.fst)
    (value : Bytes) (db : Store env) : (db.set key value victims key).data c = (db key).data c := by
  rw [(set_self h value db).1, Stored.insertString]
  split <;> exact Stored.data_put_of_ne hne (db key) value

variable {α : Type} {c c' : Container} {new : Value env.toValueTypes c}
  {edit : Value env.toValueTypes c → α × Value env.toValueTypes c} {persists : α → Bool}

variable {db : Store env}

theorem extend_fst :
    (db.extend c new edit persists key victims).1 = (edit (((db key).data c).getD new)).1 := by
  rw [← Stored.orCreate_fst]
  rfl

theorem extend_of_ne (hne : other ≠ key) (h : other ∉ victims.map Prod.fst) (db : Store env) :
    (db.extend c new edit persists key victims).2 other = db other := by
  rw [extend]
  dsimp only
  split
  · rw [modify_of_ne hne, modify_of_ne hne, evict_of_not_mem h, modify_of_ne hne]
  · rw [modify_of_ne hne, evict_of_not_mem h, modify_of_ne hne]

theorem extend_self (h : key ∉ victims.map Prod.fst) :
    ((db.extend c new edit persists key victims).2 key).data =
        (((db key).orCreate c new).2.put c (edit (((db key).data c).getD new)).2).data ∧
      ((db.extend c new edit persists key victims).2 key).metadata =
        ((db key).orCreate c new).2.metadata := by
  rw [← Stored.orCreate_fst, extend]
  dsimp only
  split
  · rw [modify_self, modify_self, evict_of_not_mem h, modify_self, Stored.has_orCreate, if_pos rfl]
    exact Stored.data_persistInMode ..
  · rw [modify_self, evict_of_not_mem h, modify_self, Stored.has_orCreate, if_pos rfl]
    exact ⟨rfl, rfl⟩

theorem data_extend (h : key ∉ victims.map Prod.fst) :
    ((db.extend c new edit persists key victims).2 key).data c =
      some (edit (((db key).data c).getD new)).2 := by
  rw [(extend_self h).1, Stored.data_put]

theorem data_extend_of_ne (hne : c' ≠ c) (h : key ∉ victims.map Prod.fst) :
    ((db.extend c new edit persists key victims).2 key).data c' = (db key).data c' := by
  rw [(extend_self h).1, Stored.data_put_of_ne hne, Stored.data_orCreate_of_ne hne]

end

def hSet (key field value : Bytes) : List (Bytes × KeyType) → Store env → Bool × Store env :=
  extend .hashes (∅ : DashMap Bytes)
    (fun hash : DashMap Bytes => (decide (field ∉ hash), hash.insert field value)) id key

def sAdd (key member : Bytes) : List (Bytes × KeyType) → Store env → Bool × Store env :=
  extend .sets DashSet.empty
    (fun set : DashSet => (!set.contains member, set.insert member)) id key

/-- `ZSetBPlus::Add`: the score is kept if it is equal to the new one. -/
def zsetAdd (env : DatabaseEnv) (member : Bytes) (score : Double) (zset : DashMap Double) :
    Bool × DashMap Double :=
  match zset.lookup member with
  | none => (true, zset.insert member score)
  | some old => (false, if env.sameScore old score then zset else zset.insert member score)

def zAdd (key : Bytes) (score : Double) (member : Bytes) :
    List (Bytes × KeyType) → Store env → Bool × Store env :=
  extend .zsets (∅ : DashMap Double) (zsetAdd env member score) (fun _ => false) key

def lPush (key value : Bytes) : List (Bytes × KeyType) → Store env → Bool × Store env :=
  extend .lists ([] : List Bytes) (fun list : List Bytes => (true, value :: list))
    (fun _ => false) key

def rPush (key value : Bytes) : List (Bytes × KeyType) → Store env → Bool × Store env :=
  extend .lists ([] : List Bytes) (fun list : List Bytes => (true, list ++ [value]))
    (fun _ => false) key

def del (key : Bytes) : Store env → Bool × Store env := onKey key Stored.del

def cleared : List Container := [.strings, .hashes, .sets, .zsets, .lists]

def clear (db : Store env) : Store env := fun key =>
  { db key with
    data := fun c => if cleared.contains c then none else (db key).data c
    metadata := none }

/-! ### Reading several keys -/

/-- `GetAllKeys` lists the keys of the metadata map, whose number is `DbSize`. -/
def isListed (key : Bytes) (db : Store env) : Bool := (db key).metadata.isSome

/-- A value, if `IsValid` says that there is one. -/
def validRead (c : Container) (key : Bytes) (now : Int64) (db : Store env) :
    Option (Value env.toValueTypes c) × Store env :=
  db.onKey key (Stored.checkedRead c none some now)

theorem validRead_of_valid {now : Int64} (h : (db key).isValid now = (true, db key))
    (c : Container) : db.validRead c key now = ((db key).data c, db) := by
  refine onKey_eq ?_
  rw [Stored.checkedRead, h]
  exact congrArg (·, db key) (elim_none_some id ((db key).data c))

/-- The loop of `SInterLocal`. -/
def intersect (now : Int64) : List Bytes → List Bytes → Store env → List Bytes × Store env
  | result, [], db => (result, db)
  | result, key :: keys, db =>
    match db.validRead .sets key now with
    | (none, db) => ([], db)
    | (some set, db) =>
      let result := result.filter (DashSet.contains set)
      if result = [] then ([], db) else intersect now result keys db

/-- The first key is not checked. -/
def sInterLocal (keys : List Bytes) (now : Int64) (db : Store env) : List Bytes × Store env :=
  match keys with
  | [] => ([], db)
  | key :: keys =>
    match (db key).data .sets with
    | none => ([], db)
    | some set => intersect now (DashSet.members set) keys db

/-- The loop of `SUnion`; the order of the members is arbitrary. -/
def unite (now : Int64) : List Bytes → List Bytes → Store env → List Bytes × Store env
  | result, [], db => (result, db)
  | result, key :: keys, db =>
    match db.validRead .sets key now with
    | (none, db) => unite now result keys db
    | (some set, db) => unite now (result ∪ DashSet.members set) keys db

def sUnion (keys : List Bytes) (now : Int64) (db : Store env) : List Bytes × Store env :=
  unite now [] keys db

/-- The loop of `SDiff` and of `ZDiff`: `members` lists a value, and `name` is the name of a
member. -/
def subtract {α : Type} (c : Container) (members : Value env.toValueTypes c → List α)
    (name : α → Bytes) (now : Int64) : List α → List Bytes → Store env → List α × Store env
  | result, [], db => (result, db)
  | result, key :: keys, db =>
    match db.validRead c key now with
    | (none, db) => subtract c members name now result keys db
    | (some value, db) =>
      let names := (members value).map name
      subtract c members name now (result.filter fun m => !names.contains (name m)) keys db

/-- The first key is not checked. -/
def difference {α : Type} (c : Container) (members : Value env.toValueTypes c → List α)
    (name : α → Bytes) (keys : List Bytes) (now : Int64) (db : Store env) :
    List α × Store env :=
  match keys with
  | [] => ([], db)
  | key :: keys =>
    match (db key).data c with
    | none => ([], db)
    | some value => subtract c members name now (members value) keys db

def sDiff : List Bytes → Int64 → Store env → List Bytes × Store env :=
  difference .sets DashSet.members id

def zDiff : List Bytes → Int64 → Store env → List (Bytes × Double) × Store env :=
  difference .zsets env.ranked Prod.fst

/-! ### `APPEND` and `INCR` -/

/-- The answer is the new length. -/
def append (key value : Bytes) (victims : List (Bytes × KeyType)) (db : Store env) :
    ℕ × Store env :=
  let (existing, db) := db.onKey key Stored.get
  let newValue := existing.getD [] ++ value
  (newValue.length, db.set key newValue victims)

/-- `INCR`, `INCRBY`, `DECR` and `DECRBY`; no answer is the error for a value that is not a
number. -/
def incrBy (increment : Int64) (key : Bytes) (victims : List (Bytes × KeyType)) (db : Store env) :
    Option Int64 × Store env :=
  let (existing, db) := db.onKey key Stored.get
  match existing.elim (some 0) env.simpleAtoi with
  | none => (none, db)
  | some number =>
    (some (number + increment), db.set key (env.strCat (number + increment)) victims)

def incr : Bytes → List (Bytes × KeyType) → Store env → Option Int64 × Store env := incrBy 1

end Store

/-- Redis mode without RocksDB; there is one stream and one vector, and a document is its
text. -/
def simpleDatabase : DatabaseEnv where
  Stream := Unit
  VectorEntry := Unit
  Json := Bytes
  toBuilderEnv := RespBuilder.simpleBuilder
  rocksdbMode := false
  rocksdbAdapter := false
  newStream := ()
  parseJson := some
  dumpJson := id
  jsonAt _ _ := none
  simpleAtoi := Decimal.fromChars
  sameScore := (· == ·)
  ranked zset := zset.entries.map fun e => (e.1, e.2)
  ranked_empty := rfl
  serialize _ _ _ := []
  getValueType _ := none
  deserializeString _ := none
  deserializeHash _ := none
  deserializeSet _ := none
  deserializeVector _ := none
