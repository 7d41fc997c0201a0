/-
Deadlines of hash fields: `HEXPIRE`, `HEXPIREAT` and `HPERSIST` beside `HSET`, `HDEL` and `DEL`.

The deadlines are in a global map of their own.  The reads do not look at it, and the commands
that remove fields leave it alone: a field is read after its deadline, and one that is set again
has the deadline of the field before it.

* `fieldDeadlines_iff` — for every run, when the reads hide what is over and when a field that
  is set again is without a deadline.
-/
import AstraDB.Deadlines

open AList Stored Option

namespace Stored

variable {env : DatabaseEnv}

def hExists (field : Bytes) (now : Int64) (s : Stored env) : Bool × Stored env :=
  s.checkedRead .hashes false (fun hash : DashMap Bytes => decide (field ∈ hash)) now

/-- `Remove` of each of the fields, with the number of those that were there. -/
def removeFields : List Bytes → DashMap Bytes → ℕ × DashMap Bytes
  | [], hash => (0, hash)
  | field :: fields, hash =>
    let (count, rest) := removeFields fields (hash.erase field)
    (if field ∈ hash then count + 1 else count, rest)

/-- The hash stays, also without fields. -/
def hDel (fields : List Bytes) (now : Int64) (s : Stored env) : ℕ × Stored env :=
  let (valid, s) := s.isValid now
  if !valid then (0, s)
  else
    match s.data .hashes with
    | none => (0, s)
    | some hash =>
      let (count, hash) := removeFields fields hash
      (count, s.put .hashes hash)

end Stored

namespace HashFields

/-! ### The deadlines -/

abbrev HashFieldExpireMap := DashMap (DashMap Int64)

def deadlineOf (expires : HashFieldExpireMap) (key field : Bytes) : Option Int64 :=
  (expires.lookup key).bind fun fields => fields.lookup field

/-- `g_hash_field_expires[key][field] = expireTimeMs`. -/
def setDeadline (expires : HashFieldExpireMap) (key field : Bytes) (expireTimeMs : Int64) :
    HashFieldExpireMap :=
  expires.insert key (((expires.lookup key).getD ∅).insert field expireTimeMs)

/-- `HPERSIST` answers whether the key has any deadlines. -/
def clearDeadline (expires : HashFieldExpireMap) (key field : Bytes) :
    Bool × HashFieldExpireMap :=
  match expires.lookup key with
  | none => (false, expires)
  | some fields =>
    let fields := fields.erase field
    (true, if fields.entries = [] then expires.erase key else expires.insert key fields)

def getHashFieldTtlMs (expires : HashFieldExpireMap) (key field : Bytes) (now : Int64) : Int64 :=
  match deadlineOf expires key field with
  | none => -1
  | some deadline => if deadline - now ≤ 0 then -2 else deadline - now

section

variable {expires : HashFieldExpireMap} {key key' field field' : Bytes}

theorem deadlineOf_setDeadline (h : ¬ (key' = key ∧ field' = field)) (expireTimeMs : Int64) :
    deadlineOf (setDeadline expires key field expireTimeMs) key' field' =
      deadlineOf expires key' field' := by
  rw [deadlineOf, setDeadline]
  by_cases hkey : key' = key
  · subst hkey
    rw [lookup_insert, bind_some, lookup_insert_ne fun hf => h ⟨rfl, hf⟩,
      deadlineOf]
    cases expires.lookup key' with
    | none => rfl
    | some fields => rfl
  · rw [lookup_insert_ne hkey]
    rfl

theorem deadlineOf_clearDeadline (h : ¬ (key' = key ∧ field' = field)) :
    deadlineOf (clearDeadline expires key field).2 key' field' =
      deadlineOf expires key' field' := by
  unfold clearDeadline
  cases hfields : expires.lookup key with
  | none => rfl
  | some fields =>
    dsimp only
    by_cases hkey : key' = key
    · subst hkey
      have hfield : field' ≠ field := fun hf => h ⟨rfl, hf⟩
      rw [deadlineOf, deadlineOf, hfields, bind_some, ← lookup_erase_ne hfield]
      split
      · next hempty =>
        -- no other field had a deadline
        rw [lookup_erase, bind_none, eq_comm, lookup_eq_none, mem_keys,
          AList.keys, hempty]
        exact List.not_mem_nil
      · rw [lookup_insert, bind_some]
    · rw [deadlineOf, deadlineOf]
      split
      · rw [lookup_erase_ne hkey]
      · rw [lookup_insert_ne hkey]

end

/-! ### The handlers -/

section

variable {env : DatabaseEnv}

/-- The loop of `HSET`, up to an argument of the wrong type. -/
def hSetPairs (key : Bytes) :
    List (CommandArg × CommandArg) → Evictions → ℕ → Store env → CommandResult × Store env
  | [], _, added, db => (Aof.replyInteger (Int64.ofNat added), db)
  | (field, value) :: pairs, evictions, added, db =>
    if !field.isBulkString || !value.isBulkString then (.ofError Aof.wrongType, db)
    else
      let (result, db) := db.hSet key field.value value.value (evictions 0)
      hSetPairs key pairs (fun n => evictions (n + 1)) (if result then added + 1 else added) db

def handleHSet (evictions : Evictions) (args : List CommandArg) (db : Store env) :
    CommandResult × Store env :=
  match args with
  | key :: args =>
    if args.length < 2 ∨ args.length % 2 ≠ 0 then (.ofError (Aof.wrongNumber (ascii "HSET")), db)
    else if !key.isBulkString then (.ofError (ascii "ERR wrong type of key argument"), db)
    else hSetPairs key.value (keyValuePairs args) evictions 0 db
  | [] => (.ofError (Aof.wrongNumber (ascii "HSET")), db)

def handleHDel (now : Int64) (args : List CommandArg) (db : Store env) :
    CommandResult × Store env :=
  match args with
  | key :: field :: fields =>
    if !key.isBulkString then (.ofError (ascii "ERR wrong type of key argument"), db)
    else if (field :: fields).any (!·.isBulkString) then
      (.ofError (ascii "ERR wrong type of field argument"), db)
    else
      let (count, db) := db.onKey key.value
        (Stored.hDel ((field :: fields).map (·.value)) now)
      (Aof.replyInteger (Int64.ofNat count), db)
  | _ => (.ofError (Aof.wrongNumber (ascii "HDEL")), db)

def hasField (key field : Bytes) (now : Int64) (db : Store env) : Bool × Store env :=
  let (type, db) := db.onKey key (Stored.getKeyType now)
  if type ≠ some .kHash then (false, db) else db.onKey key (Stored.hExists field now)

end

structure Options where
  nx : Bool := false
  xx : Bool := false
  gt : Bool := false
  lt : Bool := false

def parseOptions : List CommandArg → Options → Option Options
  | [], options => some options
  | arg :: args, options =>
    let option := asciiStrToUpper arg.value
    if option = ascii "NX" then parseOptions args { options with nx := true }
    else if option = ascii "XX" then parseOptions args { options with xx := true }
    else if option = ascii "GT" then parseOptions args { options with gt := true }
    else if option = ascii "LT" then parseOptions args { options with lt := true }
    else none

/-- In what `HEXPIRE` and `HEXPIREAT` differ: the deadline for a number and the clock, and when
it is not above, or not below, what is left. -/
structure FieldExpiry where
  name : Bytes
  expireTimeMs : Int64 → Int64 → Int64
  notAbove : Int64 → Int64 → Int64 → Bool
  notBelow : Int64 → Int64 → Int64 → Bool

/-- `seconds * 1000` is compared with the time left. -/
def hExpire : FieldExpiry where
  name := ascii "HEXPIRE"
  expireTimeMs seconds now := now + seconds * 1000
  notAbove seconds _ currentTtl := currentTtl ≥ seconds * 1000
  notBelow seconds _ currentTtl := currentTtl ≤ seconds * 1000

/-- The deadlines are compared; that of an expired field is two milliseconds ago. -/
def hExpireAt : FieldExpiry where
  name := ascii "HEXPIREAT"
  expireTimeMs timestamp _ := timestamp * 1000
  notAbove timestamp now currentTtl := timestamp * 1000 ≤ now + currentTtl
  notBelow timestamp now currentTtl := timestamp * 1000 ≥ now + currentTtl

def refused (f : FieldExpiry) (options : Options) (n now currentTtl : Int64) : Bool :=
  options.nx && currentTtl != -1 || options.xx && currentTtl == -1 ||
    options.gt && (currentTtl == -1 || f.notAbove n now currentTtl) ||
    options.lt && (currentTtl == -1 || f.notBelow n now currentTtl)

/-- The hashes, and the deadlines of their fields. -/
structure State (env : AofEnv) where
  db : Store env.toDatabaseEnv
  expires : HashFieldExpireMap

variable {env : AofEnv}

def State.init : State env := ⟨Store.empty, ∅⟩

def handleFieldExpiry (f : FieldExpiry) (now : Int64) (args : List CommandArg) (s : State env) :
    CommandResult × State env :=
  match args with
  | key :: field :: number :: args =>
    if !key.isBulkString || !field.isBulkString || !number.isBulkString then
      (.ofError Aof.wrongType, s)
    else
      let (found, db) := hasField key.value field.value now s.db
      let s := { s with db }
      if !found then (Aof.replyInteger 0, s)
      else
        match env.simpleAtoi number.value with
        | none => (.ofError Aof.notInteger, s)
        | some n =>
          if n ≤ 0 then (.ofError Aof.notInteger, s)
          else
            match parseOptions args {} with
            | none => (.ofError (ascii "ERR syntax error"), s)
            | some options =>
              if refused f options n now (getHashFieldTtlMs s.expires key.value field.value now)
              then (Aof.replyInteger 0, s)
              else
                let deadline := f.expireTimeMs n now
                (Aof.replyInteger 1,
                  { s with expires := setDeadline s.expires key.value field.value deadline })
  | _ => (.ofError (Aof.wrongNumber f.name), s)

def handleHPersist (now : Int64) (args : List CommandArg) (s : State env) :
    CommandResult × State env :=
  match args with
  | [key, field] =>
    if !key.isBulkString || !field.isBulkString then (.ofError Aof.wrongType, s)
    else
      let (found, db) := hasField key.value field.value now s.db
      let s := { s with db }
      if !found then (Aof.replyInteger 0, s)
      else
        let (cleared, expires) := clearDeadline s.expires key.value field.value
        (Aof.replyInteger (if cleared then 1 else 0), { s with expires })
  | _ => (.ofError (Aof.wrongNumber (ascii "HPERSIST")), s)

inductive HashCommand
  | hSet (args : List CommandArg) (evictions : Evictions)
  | hDel (args : List CommandArg)
  | del (args : List CommandArg)
  | hExpire (args : List CommandArg)
  | hExpireAt (args : List CommandArg)
  | hPersist (args : List CommandArg)

def onDb (handler : Store env.toDatabaseEnv → CommandResult × Store env.toDatabaseEnv)
    (s : State env) : CommandResult × State env :=
  let (result, db) := handler s.db
  (result, { s with db })

def HashCommand.handle (now : Int64) : HashCommand → State env → CommandResult × State env
  | .hSet args evictions => onDb (handleHSet evictions args)
  | .hDel args => onDb (handleHDel now args)
  | .del args => onDb fun db =>
    let (result, db, _) := Aof.run env (Aof.handleDel env args) db
    (result, db)
  | .hExpire args => handleFieldExpiry HashFields.hExpire now args
  | .hExpireAt args => handleFieldExpiry HashFields.hExpireAt now args
  | .hPersist args => handleHPersist now args

def step (s : State env) (command : Int64 × HashCommand) : State env :=
  (command.2.handle command.1 s).2

/-! ### What is read -/

section

variable {env : DatabaseEnv} {s : Stored env} {field : Bytes}

def HasField (s : Stored env) (field : Bytes) : Prop :=
  ∃ hash : DashMap Bytes, s.data .hashes = some hash ∧ field ∈ hash

theorem hasField_iff : HasField s field ↔ Option.elim (s.data .hashes) false
    (fun hash : DashMap Bytes => decide (field ∈ hash)) = true := by
  have hoption : ∀ o : Option (DashMap Bytes), (∃ hash, o = some hash ∧ field ∈ hash) ↔
      o.elim false (fun hash => decide (field ∈ hash)) = true := by
    rintro (_ | hash) <;> simp
  exact hoption (s.data .hashes)

instance (s : Stored env) (field : Bytes) : Decidable (HasField s field) :=
  decidable_of_iff _ hasField_iff.symm

/-- The field is in memory, or in RocksDB in the mode that reads it from there. -/
def Held (s : Stored env) (field : Bytes) : Prop := HasField (s.loadInMode .hashes) field

/-- There is nothing but a hash, and it has no deadline itself. -/
structure HashOnly (s : Stored env) : Prop where
  others : ∀ c, c ≠ .hashes → s.data c = none
  registered : ∀ hash, s.data .hashes = some hash →
    ∃ m, s.metadata = some m ∧ m.expireTimeMs = none

theorem isValid_of_unlimited {m : KeyMetadata} (hm : s.metadata = some m)
    (h : m.expireTimeMs = none) (now : Int64) : s.isValid now = (true, s) :=
  isValid_of_metadata hm (by rw [KeyMetadata.isExpired, h])

variable {hash : DashMap Bytes} {now : Int64}

theorem HashOnly.isValid (h : HashOnly s) (hdata : s.data .hashes = some hash) (now : Int64) :
    s.isValid now = (true, s) := by
  obtain ⟨m, hm, hnone⟩ := h.registered hash hdata
  exact isValid_of_unlimited hm hnone now

theorem checkedRead_of_valid {α : Type} {c : Container} {value : Value env.toValueTypes c}
    (hdata : s.data c = some value) (hvalid : s.isValid now = (true, s)) (missing : α)
    (answer : Value env.toValueTypes c → α) :
    (s.checkedRead c missing answer now).1 = answer value := by
  rw [checkedRead, hvalid]
  dsimp only
  rw [if_pos rfl, hdata]
  rfl

theorem checkedRead_cases {α : Type} (c : Container) (missing : α)
    (answer : Value env.toValueTypes c → α) (now : Int64) (s : Stored env) :
    (s.checkedRead c missing answer now).1 = missing ∨
      ∃ value, s.data c = some value ∧ (s.checkedRead c missing answer now).1 = answer value := by
  rw [checkedRead]
  dsimp only
  split
  · rw [data_isValid]
    cases hdata : s.data c with
    | none => exact .inl rfl
    | some value => exact .inr ⟨value, rfl, rfl⟩
  · exact .inl rfl

theorem isValid_loadInMode (h : HashOnly s)
    (hdata : (s.loadInMode .hashes).data .hashes = some hash) (now : Int64) :
    (s.loadInMode .hashes).isValid now = (true, s.loadInMode .hashes) := by
  rw [loadInMode] at hdata ⊢
  split
  · next hmode =>
    rw [if_pos hmode, loadFromRocksDB] at hdata
    rw [loadFromRocksDB]
    split at hdata
    · next hadapter =>
      rw [if_pos hadapter]
      cases hrecovered : s.rocksdb.bind (recovered env) with
      | none =>
        rw [hrecovered] at hdata
        exact h.isValid hdata now
      | some found => exact isValid_of_unlimited rfl rfl now
    · next hadapter =>
      rw [if_neg hadapter]
      exact h.isValid hdata now
  · next hmode =>
    rw [if_neg hmode] at hdata
    exact h.isValid hdata now

theorem held_of_hasField (h : HasField s field) : Held s field := by
  obtain ⟨hash, hdata, hmem⟩ := h
  refine ⟨hash, ?_, hmem⟩
  rw [loadInMode_eq fun _ _ hnone => nomatch hdata.symm.trans hnone]
  exact hdata

/-- A read returns the field. -/
def Shown (now : Int64) (s : Stored env) (field : Bytes) : Prop :=
  (s.hGet field now).1 ≠ none ∨ (s.hExists field now).1 = true ∨
    ∃ value, (field, value) ∈ (s.hGetAll now).1

theorem hasField_of_hExists (h : (s.hExists field now).1 = true) : HasField s field := by
  rcases checkedRead_cases .hashes false
    (fun hash : DashMap Bytes => decide (field ∈ hash)) now s with
    hmissing | ⟨(hash : DashMap Bytes), hdata, hmem⟩
  · exact absurd (hmissing.symm.trans h) Bool.false_ne_true
  · exact ⟨hash, hdata, of_decide_eq_true (hmem.symm.trans h)⟩

theorem hExists_snd (field : Bytes) (now : Int64) (s : Stored env) :
    (s.hExists field now).2 = (s.isValid now).2 :=
  s.checkedRead_snd .hashes false (fun hash : DashMap Bytes => decide (field ∈ hash)) now

theorem held_of_shown (h : Shown now s field) : Held s field := by
  rcases h with hget | hexists | ⟨value, hall⟩
  · refine held_of_hasField ?_
    rcases checkedRead_cases .hashes none
      (fun hash : DashMap Bytes => hash.lookup field) now s with hmissing | ⟨hash, hdata, hfound⟩
    · exact absurd hmissing hget
    · exact ⟨hash, hdata, by_contra fun hmem =>
        hget (hfound.trans (lookup_eq_none.mpr hmem))⟩
  · exact held_of_hasField (hasField_of_hExists hexists)
  · rcases checkedRead_cases .hashes [] (fun hash : DashMap Bytes =>
      hash.entries.map fun e => (e.1, e.2)) now (s.loadInMode .hashes) with
      hmissing | ⟨hash, hdata, hfound⟩
    · exact absurd (hmissing ▸ hall) List.not_mem_nil
    · refine ⟨hash, hdata, ?_⟩
      obtain ⟨e, he, heq⟩ := List.mem_map.mp (hfound ▸ hall)
      cases heq
      exact mem_keys.mpr (List.mem_map.mpr ⟨e, he, rfl⟩)

theorem shown_iff (h : HashOnly s) (now : Int64) : Shown now s field ↔ Held s field := by
  refine ⟨held_of_shown, ?_⟩
  rintro ⟨hash, hdata, hmem⟩
  obtain ⟨value, hvalue⟩ := isSome_iff_exists.mp (lookup_isSome.mpr hmem)
  have hall : (s.hGetAll now).1 = hash.entries.map fun e => (e.1, e.2) :=
    checkedRead_of_valid hdata (isValid_loadInMode h hdata now) _ _
  refine .inr (.inr ⟨value, ?_⟩)
  rw [hall]
  exact List.mem_map.mpr ⟨⟨field, value⟩, mem_lookup_iff.mp hvalue, rfl⟩

end

/-! ### Every command -/

section

variable {env : DatabaseEnv}

theorem hasField_fst {key field : Bytes} {now : Int64} {db : Store env}
    (h : (hasField key field now db).1 = true) : HasField (db key) field := by
  rw [hasField] at h
  dsimp only at h
  split at h
  · exact absurd h Bool.false_ne_true
  · have hfield := hasField_of_hExists h
    rw [Store.onKey] at hfield
    dsimp only at hfield
    rw [Store.modify_self] at hfield
    obtain ⟨hash, hdata, hmem⟩ := hfield
    exact ⟨hash, (congrFun ((db key).data_isValid now) .hashes).symm.trans hdata, hmem⟩

end

/-- What a command does that looks for a field: no deadline changes but that of a field that it
has found. -/
structure Looks (now : Int64) (s s' : State env) : Prop where
  db : s'.db = s.db ∨ ∃ key field, s'.db = (hasField key field now s.db).2
  deadlineOf : ∀ {key field}, ¬ HasField (s.db key) field →
    deadlineOf s'.expires key field = deadlineOf s.expires key field

theorem Looks.refl (now : Int64) (s : State env) : Looks now s s := ⟨.inl rfl, fun _ => rfl⟩

theorem Looks.of_found {now : Int64} {s : State env} {key field : Bytes}
    {expires : HashFieldExpireMap} (hfound : (hasField key field now s.db).1 = true)
    (h : ∀ {key' field'}, ¬ (key' = key ∧ field' = field) →
      HashFields.deadlineOf expires key' field' = HashFields.deadlineOf s.expires key' field') :
    Looks now s ⟨(hasField key field now s.db).2, expires⟩ := by
  refine ⟨.inr ⟨key, field, rfl⟩, fun hnot => h ?_⟩
  rintro ⟨rfl, rfl⟩
  exact hnot (hasField_fst hfound)

theorem looks_handleFieldExpiry (f : FieldExpiry) (now : Int64) (args : List CommandArg)
    (s : State env) : Looks now s (handleFieldExpiry f now args s).2 := by
  unfold handleFieldExpiry
  split
  · next key field number args =>
    have hlook : Looks now s ⟨(hasField key.value field.value now s.db).2, s.expires⟩ :=
      ⟨.inr ⟨_, _, rfl⟩, fun _ => rfl⟩
    split
    · exact .refl now s
    · dsimp only
      split
      · exact hlook
      · next hfound =>
        rw [Bool.not_eq_true', Bool.not_eq_false] at hfound
        split
        · exact hlook
        · split
          · exact hlook
          · split
            · exact hlook
            · split
              · exact hlook
              · exact .of_found hfound fun h => deadlineOf_setDeadline h _
  · exact .refl now s

theorem looks_handleHPersist (now : Int64) (args : List CommandArg) (s : State env) :
    Looks now s (handleHPersist now args s).2 := by
  unfold handleHPersist
  split
  · next key field =>
    split
    · exact .refl now s
    · dsimp only
      split
      · exact ⟨.inr ⟨_, _, rfl⟩, fun _ => rfl⟩
      · next hfound =>
        rw [Bool.not_eq_true', Bool.not_eq_false] at hfound
        exact .of_found hfound deadlineOf_clearDeadline
  · exact .refl now s

variable {s : State env} {key field : Bytes}

theorem deadlineOf_step (h : ¬ HasField (s.db key) field) (command : Int64 × HashCommand) :
    deadlineOf (step s command).expires key field = deadlineOf s.expires key field := by
  obtain ⟨now, command⟩ := command
  cases command with
  | hSet | hDel | del => rfl
  | hExpire args => exact (looks_handleFieldExpiry hExpire now args s).deadlineOf h
  | hExpireAt args => exact (looks_handleFieldExpiry hExpireAt now args s).deadlineOf h
  | hPersist args => exact (looks_handleHPersist now args s).deadlineOf h

/-! ### Every run -/

namespace HashOnly

variable {env : DatabaseEnv} {s s' : Stored env}

theorem empty : HashOnly (empty : Stored env) :=
  ⟨fun _ _ => rfl, fun _ hdata => nomatch hdata⟩

theorem of_eq (h : HashOnly s) (hdata : s'.data = s.data) (hmetadata : s'.metadata = s.metadata) :
    HashOnly s' := by
  refine ⟨?_, ?_⟩
  · rw [hdata]
    exact h.others
  · rw [hdata, hmetadata]
    exact h.registered

theorem of_data_eq_none (h : ∀ c, s.data c = none) : HashOnly s :=
  ⟨fun c _ => h c, fun hash hdata => absurd ((h .hashes).symm.trans hdata) (by simp)⟩

section

variable (h : HashOnly s)
include h

theorem put {m : KeyMetadata} (hm : s.metadata = some m)
    (hnone : m.expireTimeMs = none) (hash : DashMap Bytes) : HashOnly (s.put .hashes hash) :=
  ⟨fun c hc => (data_put_of_ne hc s hash).trans (h.others c hc), fun _ _ => ⟨m, hm, hnone⟩⟩

theorem isValid_snd (now : Int64) : HashOnly (s.isValid now).2 := by
  cases hdata : s.data .hashes with
  | some hash =>
    rw [h.isValid hdata now]
    exact h
  | none =>
    refine of_data_eq_none fun c => ?_
    rw [data_isValid]
    by_cases hc : c = .hashes
    · exact hc ▸ hdata
    · exact h.others c hc

theorem orCreate : HashOnly (s.orCreate .hashes (∅ : DashMap Bytes)).2 := by
  unfold Stored.orCreate
  split
  · exact h
  · exact ⟨fun c hc => (data_put_of_ne hc s _).trans (h.others c hc),
      fun _ _ => ⟨_, rfl, rfl⟩⟩

theorem replace (hash : DashMap Bytes) :
    HashOnly (if s.has .hashes then s.put .hashes hash else s) := by
  split
  · next hhas =>
    obtain ⟨old, hdata⟩ := isSome_iff_exists.mp hhas
    obtain ⟨m, hm, hnone⟩ := h.registered old hdata
    exact h.put hm hnone hash
  · exact h

theorem data_removeData (c : Container) : s.removeData.2.data c = none := by
  have honly : ∀ {c : Container}, s.has c → c = .hashes := by
    intro c hc
    by_contra hne
    rw [has, h.others c hne] at hc
    cases hc
  exact has_eq_false.mp
    (not_has_removeData (fun hc hc' => (honly hc).trans (honly hc').symm) c)

theorem evictKey (key : Bytes) (type : KeyType) :
    HashOnly (s.evictKey key type) := by
  have hpersisted : HashOnly (s.persistKey key type) :=
    h.of_eq (data_persistKey key type s).1 (data_persistKey key type s).2
  refine of_data_eq_none fun c => ?_
  rw [Stored.evictKey]
  dsimp only
  split <;> exact hpersisted.data_removeData c

theorem del : HashOnly s.del.2 := by
  refine of_data_eq_none fun c => ?_
  rw [Stored.del]
  dsimp only
  split <;> exact h.data_removeData c

theorem hDel (fields : List Bytes) (now : Int64) :
    HashOnly (s.hDel fields now).2 := by
  have hvalid := h.isValid_snd now
  rw [Stored.hDel]
  dsimp only
  split
  · exact hvalid
  · split
    · exact hvalid
    · next hash hdata =>
      obtain ⟨m, hm, hnone⟩ := hvalid.registered hash hdata
      exact hvalid.put hm hnone _

end

end HashOnly

/-- Every key is that of a hash without a deadline, or of nothing. -/
def HashesOnly {env : DatabaseEnv} (db : Store env) : Prop := ∀ key, HashOnly (db key)

namespace HashesOnly

variable {env : DatabaseEnv} {db : Store env}

theorem hSet (h : HashesOnly db) (key field value : Bytes) (victims : List (Bytes × KeyType)) :
    HashesOnly (db.hSet key field value victims).2 := by
  have hevicted := Store.forall_evict HashOnly.evictKey
    (Store.forall_modify h key (fun _ => _) (h key).orCreate) victims
  have hput := fun hash => Store.forall_modify hevicted key _ ((hevicted key).replace hash)
  unfold Store.hSet Store.extend
  dsimp only
  split
  · exact Store.forall_modify (hput _) key _ ((hput _ key).of_eq
      (data_persistInMode key _ _).1 (data_persistInMode key _ _).2)
  · exact hput _

theorem hSetPairs (h : HashesOnly db) (key : Bytes) (pairs : List (CommandArg × CommandArg))
    (evictions : Evictions) (added : ℕ) :
    HashesOnly (HashFields.hSetPairs key pairs evictions added db).2 := by
  induction pairs generalizing db evictions added with
  | nil => exact h
  | cons pair pairs ih =>
    rw [HashFields.hSetPairs]
    dsimp only
    split
    · exact h
    · exact ih (h.hSet key _ _ _) _ _

theorem handleHSet (h : HashesOnly db) (evictions : Evictions) (args : List CommandArg) :
    HashesOnly (HashFields.handleHSet evictions args db).2 := by
  unfold HashFields.handleHSet
  split
  · split
    · exact h
    · split
      · exact h
      · exact h.hSetPairs _ _ _ _
  · exact h

theorem onKey {α : Type} (h : HashesOnly db) (key : Bytes) (method : Stored env → α × Stored env)
    (hmethod : HashOnly (method (db key)).2) : HashesOnly (db.onKey key method).2 :=
  Store.forall_modify h key (fun s => (method s).2) hmethod

theorem handleHDel (h : HashesOnly db) (now : Int64) (args : List CommandArg) :
    HashesOnly (HashFields.handleHDel now args db).2 := by
  unfold HashFields.handleHDel
  split
  · split
    · exact h
    · split
      · exact h
      · exact h.onKey _ _ ((h _).hDel _ now)
  · exact h

theorem delKeys (h : HashesOnly db) (keys : List Bytes) : HashesOnly (db.delKeys keys).2 := by
  induction keys generalizing db with
  | nil => exact h
  | cons key keys ih => exact ih (h.onKey key del (h key).del)

theorem hasField (h : HashesOnly db) (key field : Bytes) (now : Int64) :
    HashesOnly (HashFields.hasField key field now db).2 := by
  have htype := h.onKey key (getKeyType now) ((h key).isValid_snd now)
  rw [HashFields.hasField]
  dsimp only
  split
  · exact htype
  · refine htype.onKey key (hExists field now) ?_
    rw [hExists_snd]
    exact (htype key).isValid_snd now

end HashesOnly

theorem hashesOnly_step (h : HashesOnly s.db) (command : Int64 × HashCommand) :
    HashesOnly (step s command).db := by
  have hlook : ∀ {s' : State env}, Looks command.1 s s' → HashesOnly s'.db := by
    intro s' hlook
    rcases hlook.db with heq | ⟨key, field, heq⟩
    · rw [heq]
      exact h
    · rw [heq]
      exact h.hasField key field command.1
  obtain ⟨now, command⟩ := command
  cases command with
  | hSet args evictions => exact h.handleHSet evictions args
  | hDel args => exact h.handleHDel now args
  | del args =>
    rw [step]
    dsimp only [HashCommand.handle, onDb]
    rw [Aof.handleDel]
    split
    · exact h
    · split
      · exact h
      · exact h.delKeys _
  | hExpire args => exact hlook (looks_handleFieldExpiry hExpire now args s)
  | hExpireAt args => exact hlook (looks_handleFieldExpiry hExpireAt now args s)
  | hPersist args => exact hlook (looks_handleHPersist now args s)

def run (commands : List (Int64 × HashCommand)) : State env := Runs.after step State.init commands

theorem hashesOnly_run (commands : List (Int64 × HashCommand)) :
    HashesOnly (run commands : State env).db :=
  Runs.after_invariant (fun s : State env => HashesOnly s.db)
    (fun _ command _ h => hashesOnly_step h command) (Runs.along_true _ commands)
    fun _ => HashOnly.empty

/-! ### The two promises -/

/-- After its deadline a field is not returned. -/
def Hidden (now : Int64) (s : State env) : Prop :=
  ∀ key field deadline, deadlineOf s.expires key field = some deadline → deadline < now →
    ¬ Shown now (s.db key) field

/-- `HDEL` or `DEL` removes the field. -/
def Removes (s : State env) (command : Int64 × HashCommand) (key field : Bytes) : Prop :=
  (match command.2 with
    | .hDel _ | .del _ => True
    | _ => False) ∧
  HasField (s.db key) field ∧ ¬ HasField ((step s command).db key) field

/-- Whenever `HSET` creates the field again, it has no deadline. -/
def Fresh (s : State env) (key field : Bytes) : Prop :=
  ∀ between, Runs.Along step (fun s _ => ¬ HasField (s.db key) field) s between →
    ¬ HasField ((Runs.after step s between).db key) field →
    ∀ now args evictions,
      HasField ((step (Runs.after step s between) (now, .hSet args evictions)).db key) field →
      deadlineOf (step (Runs.after step s between) (now, .hSet args evictions)).expires key field =
        none

theorem hidden_iff (h : HashesOnly s.db) (now : Int64) :
    Hidden now s ↔ ∀ key field deadline, deadlineOf s.expires key field = some deadline →
      Held (s.db key) field → now ≤ deadline := by
  constructor
  · intro hhidden key field deadline hdeadline hheld
    rw [← Int64.not_lt]
    exact fun hlt => hhidden key field deadline hdeadline hlt ((shown_iff (h key) now).mpr hheld)
  · intro hkept key field deadline hdeadline hlt hshown
    exact Int64.not_lt.mpr (hkept key field deadline hdeadline (held_of_shown hshown)) hlt

theorem hasField_hSet (s : State env) (now : Int64) (key field value : Bytes) :
    HasField ((step s (now, .hSet ([key, field, value].map fun text =>
      .ofString text .kBulkString) fun _ => [])).db key) field := by
  have hset : HasField ((s.db.hSet key field value []).2 key) field :=
    ⟨_, Store.data_extend List.not_mem_nil, (mem_insert _).mpr (.inl rfl)⟩
  rw [step]
  dsimp only [HashCommand.handle, onDb, handleHSet, List.map]
  rw [if_neg (by simp), if_neg (by simp [CommandArg.isBulkString, CommandArg.ofString])]
  exact hset

theorem deadlineOf_after {between : List (Int64 × HashCommand)} :
    ∀ {s : State env}, Runs.Along step (fun s _ => ¬ HasField (s.db key) field) s between →
    deadlineOf (Runs.after step s between).expires key field = deadlineOf s.expires key field := by
  induction between with
  | nil =>
    intro s _
    rfl
  | cons command between ih =>
    intro s h
    exact (ih h.2).trans (deadlineOf_step h.1 command)

theorem fresh_iff {command : Int64 × HashCommand} (h : Removes s command key field) :
    Fresh (step s command) key field ↔ deadlineOf s.expires key field = none := by
  obtain ⟨hcommand, -, hgone⟩ := h
  have hexpires : (step s command).expires = s.expires := by
    obtain ⟨now, command⟩ := command
    cases command with
    | hDel | del => rfl
    | _ => exact hcommand.elim
  rw [← hexpires]
  constructor
  · intro hfresh
    exact hfresh [] trivial hgone 0 _ _ (hasField_hSet _ 0 key field [])
  · intro hnone between halong _ now args evictions _
    -- `HSET` does not touch the deadlines, nor does any command while the field is gone
    exact (deadlineOf_after halong).trans hnone

/-- When both promises are kept: after any commands, at any time, the reads hide the fields that
are over just when there are none; and a field that was removed is without a deadline when it is
set again just when it was without one before. -/
theorem fieldDeadlines_iff (commands : List (Int64 × HashCommand)) :
    (∀ now, Hidden now (run commands : State env) ↔
      ∀ key field deadline, deadlineOf (run commands : State env).expires key field =
        some deadline → Held ((run commands : State env).db key) field → now ≤ deadline) ∧
    ∀ command key field, Removes (run commands : State env) command key field →
      (Fresh (step (run commands : State env) command) key field ↔
        deadlineOf (run commands : State env).expires key field = none) :=
  ⟨fun now => hidden_iff (hashesOnly_run commands) now, fun _ _ _ h => fresh_iff h⟩

def created : List (Int64 × HashCommand) := [(0, .hSet (Aof.bulkArgs ["k", "f", "v"]) fun _ => [])]

/-- A field without a deadline is without one after `HDEL` and `HSET`. -/
theorem fieldDeadlines_iff_created :
    Removes (run created : State simpleAof) (0, .hDel (Aof.bulkArgs ["k", "f"]))
        (ascii "k") (ascii "f") ∧
      Fresh (step (run created : State simpleAof) (0, .hDel (Aof.bulkArgs ["k", "f"])))
        (ascii "k") (ascii "f") := by
  have hremoves : Removes (run created : State simpleAof) (0, .hDel (Aof.bulkArgs ["k", "f"]))
      (ascii "k") (ascii "f") := ⟨trivial, by decide +kernel, by decide +kernel⟩
  exact ⟨hremoves, ((fieldDeadlines_iff created).2 _ _ _ hremoves).mpr (by decide +kernel)⟩

/-- `HSET k f v` and `HEXPIRE k f 1`: the field is read after two seconds, and after `HDEL` or
`DEL` another one has its deadline. -/
theorem fieldDeadlines_fail :
    let commands := created ++ [(0, .hExpire (Aof.bulkArgs ["k", "f", "1"]))]
    ¬ Hidden 2000 (run commands : State simpleAof) ∧
    ∀ removal ∈ [.hDel (Aof.bulkArgs ["k", "f"]), .del (Aof.bulkArgs ["k"])],
      Removes (run commands : State simpleAof) (0, removal) (ascii "k") (ascii "f") ∧
      ¬ Fresh (step (run commands : State simpleAof) (0, removal)) (ascii "k") (ascii "f") := by
  intro commands
  have hdeadline : deadlineOf (run commands : State simpleAof).expires (ascii "k") (ascii "f") =
      some 1000 := by decide +kernel
  refine ⟨fun h => ?_, fun removal hremoval => ?_⟩
  · exact h (ascii "k") (ascii "f") 1000 hdeadline (by decide) (.inr (.inl (by decide +kernel)))
  · have hremoves : Removes (run commands : State simpleAof) (0, removal)
        (ascii "k") (ascii "f") := by
      rcases List.mem_pair.mp hremoval with rfl | rfl
      · exact ⟨trivial, by decide +kernel, by decide +kernel⟩
      · exact ⟨trivial, by decide +kernel, by decide +kernel⟩
    refine ⟨hremoves, fun h => ?_⟩
    exact absurd (hdeadline.symm.trans ((fresh_iff hremoves).mp h)) (some_ne_none _)

end HashFields
