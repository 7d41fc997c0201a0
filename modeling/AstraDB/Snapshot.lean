/-
Snapshots of the workers: `PersistenceManager::SaveRdb` and `LoadRdb`.

Every value is saved as one string, and an expiry time as an absolute one.  The keys of a map
come in the order in which it lists them.  No memory limit is reached while a snapshot is
loaded, and the clock is read in milliseconds.
-/
import AstraDB.Database
import AstraDB.RdbFormat
import AstraDB.Worker

structure SnapshotEnv where
  database : DatabaseEnv
  rdb : RdbEnv
  stdHash : Bytes → UInt64
  /-- `std::to_string` of a `double` -/
  doubleText : Double → Bytes

/-- A database, with the keys of each map as it lists them. -/
structure ListedStore (env : DatabaseEnv) where
  store : Store env
  keys : Container → List Bytes
  nodup : ∀ c, (keys c).Nodup
  mem_keys : ∀ c key, key ∈ keys c ↔ (store key).has c = true

/-- What `GetRdbData` collects for a key. -/
structure RdbDatum where
  key : Bytes
  type : KeyType
  value : Bytes
  ttlMs : Int64

namespace Rdb

def typeString : UInt8 := 0
def typeHash : UInt8 := 1
def typeList : UInt8 := 2
def typeSet : UInt8 := 3
def typeZSet : UInt8 := 4

def keyTypeToRdbType : KeyType → UInt8
  | .kString => typeString
  | .kHash => typeHash
  | .kList => typeList
  | .kSet => typeSet
  | .kZSet => typeZSet
  | .kStream => typeHash
  | _ => typeString

end Rdb

namespace PersistenceManager

open Rdb

variable (env : SnapshotEnv)

/-- The maps that `ForEachKey` goes through. -/
def savedContainers : List Container := [.strings, .hashes, .lists, .sets, .zsets]

/-- The text of a value in a snapshot. -/
def valueText : (c : Container) → Value env.database.toValueTypes c → Bytes
  | .strings, value => value
  | .hashes, hash =>
    AList.entries hash |>.flatMap fun e : (_ : Bytes) × Bytes =>
      e.1 ++ ascii ":" ++ e.2 ++ ascii "\n"
  | .lists, list => List.flatMap (fun elem => elem ++ ascii "\n") list
  | .sets, set => (DashSet.members set).flatMap fun member => member ++ ascii "\n"
  | .zsets, zset =>
    AList.entries zset |>.flatMap fun e : (_ : Bytes) × Double =>
      e.1 ++ ascii ":" ++ env.doubleText e.2 ++ ascii "\n"
  | _, _ => []

/-- `GetRdbData`, by `ForEachKey`. -/
def getRdbData (now : Int64) (db : ListedStore env.database) : List RdbDatum :=
  savedContainers.flatMap fun c =>
    (db.keys c).filterMap fun key =>
      ((db.store key).data c).map fun value =>
        ⟨key, c.keyType, valueText env c value, (db.store key).getTtlMs now⟩

def rdbEntry (now : Int64) (datum : RdbDatum) : RdbKeyValue where
  type := keyTypeToRdbType datum.type
  key := datum.key
  value := datum.value
  expireMs := if 0 < datum.ttlMs then now + datum.ttlMs else -1

/-- What the callback of `SaveRdb` calls. -/
def saveCalls (now : Int64) (data : List RdbDatum) : List RdbWriter.Call :=
  .selectDb 0 ::
    .resizeDb (UInt64.ofNat data.length) (UInt64.ofNat (data.countP fun d => 0 < d.ttlMs)) ::
      data.map fun d => .writeKv (rdbEntry now d)

variable (workerCount : ℕ)

def allData (now : Int64) (workers : ℕ → ListedStore env.database) : List RdbDatum :=
  (List.range workerCount).flatMap fun w => getRdbData env now (workers w)

/-- The file that `SaveRdb` leaves. -/
def saveRdb (now : Int64) (workers : ℕ → ListedStore env.database) : Bytes :=
  RdbWriter.save env.rdb true (now / 1000) (saveCalls now (allData env workerCount now workers))

/-- The write for an entry; hashes are not loaded. -/
def loadValue (kv : RdbKeyValue) : Option (Store env.database → Store env.database) :=
  if kv.type = typeString then some fun db => db.set kv.key kv.value []
  else if kv.type = typeList then some fun db => (db.lPush kv.key kv.value []).2
  else if kv.type = typeSet then some fun db => (db.sAdd kv.key kv.value []).2
  -- the score is 1.0
  else if kv.type = typeZSet then
    some fun db => (db.zAdd kv.key 0x3FF0000000000000 kv.value []).2
  else none

/-- `ttl_ms` of an entry. -/
def entryTtlMs (now : Int64) (kv : RdbKeyValue) : Int64 :=
  if 0 < kv.expireMs then kv.expireMs - now else -1

/-- What the callback of `LoadRdb` does to the database of its worker. -/
def loadEntry (now : Int64) (kv : RdbKeyValue) (db : Store env.database) : Store env.database :=
  let ttlMs := entryTtlMs now kv
  -- expired entries are skipped
  if 0 < kv.expireMs ∧ ttlMs ≤ 0 then db
  else
    match loadValue env kv with
    | none => db
    | some write =>
      let db := write db
      if 0 < ttlMs then db.modify kv.key fun s => (s.setExpireMs ttlMs).2 else db

/-- The worker that `LoadRdb` takes for a key. -/
def loadTarget (key : Bytes) : ℕ := (env.stdHash key).toNat % workerCount

def loadCallback (now : Int64) (workers : ℕ → Store env.database)
    (delivery : RdbDelivery) : ℕ → Store env.database :=
  let target := loadTarget env workerCount delivery.2.key
  Function.update workers target (loadEntry env now delivery.2 (workers target))

/-- What `LoadRdb` returns for the content of the file, and the workers then. -/
def loadRdb (now : Int64) (fuel : ℕ) (file stale : Bytes)
    (workers : ℕ → Store env.database) : Option (Bool × (ℕ → Store env.database)) :=
  (RdbReader.load env.rdb fuel true file stale).map fun (success, deliveries) =>
    (success, deliveries.foldl (loadCallback env workerCount now) workers)

/-- The hash of every key is 0. -/
def simpleSnapshot : SnapshotEnv where
  database := simpleDatabase
  rdb := RdbReader.simpleRdb
  stdHash _ := 0
  doubleText _ := []

end PersistenceManager
