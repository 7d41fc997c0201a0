/-
What `LoadRdb` restores of what `SaveRdb` saved.

A list, a set or a sorted set comes back as one element, the text it was saved as, which is
longer than each of its elements; a hash does not come back.  Deadlines are saved as absolute
times and set from the time that is left, and the worker is taken from another hash than the
one that routes commands.

* `saveRdb_loadRdb_iff` — when everything comes back where it belongs.
-/
import AstraDB.Snapshot
import AstraDB.RdbRoundTrip
import AstraDB.OneType

open RdbReader Option Function AList Stored Container

/-- The same elements, in any order where there is none. -/
def SameElements {T : ValueTypes} : (c : Container) → Value T c → Value T c → Prop
  | .hashes, hash, hash' =>
    ∀ field, AList.lookup (β := fun _ => Bytes) field hash = AList.lookup field hash'
  | .sets, set, set' => ∀ member, member ∈ DashSet.members set ↔ member ∈ DashSet.members set'
  | .zsets, zset, zset' =>
    ∀ member, AList.lookup (β := fun _ => Double) member zset = AList.lookup member zset'
  | .strings, value, value' => value = value'
  | .lists, value, value' => value = value'
  | .streams, value, value' => value = value'
  | .vectors, value, value' => value = value'
  | .jsons, value, value' => value = value'

namespace Stored

variable {env : DatabaseEnv}

/-- The same type, elements and deadline. -/
structure SameKey (s s' : Stored env) : Prop where
  type : s'.metadata.map (·.type) = s.metadata.map (·.type)
  deadline : s'.metadata.bind (·.expireTimeMs) = s.metadata.bind (·.expireTimeMs)
  elements : ∀ c value, s.data c = some value →
    ∃ value', s'.data c = some value' ∧ SameElements c value value'
  only : ∀ c, s'.has c → s.has c

end Stored

namespace PersistenceManager

open Rdb RdbWriter

variable (env : SnapshotEnv)

/-- The databases that are spoken of: keys with one type each, of the five types, that are
short enough, and deadlines in the future. -/
structure Snapshotable (workerCount : ℕ) (now : Int64) (workers : ℕ → ListedStore env.database) :
    Prop where
  clock : 0 ≤ now
  oneType : ∀ w < workerCount, (workers w).store.OneType
  container : ∀ w < workerCount, ∀ key c, ((workers w).store key).has c → c ∈ savedContainers
  key : ∀ w < workerCount, ∀ key c, ((workers w).store key).has c → Readable key
  value : ∀ w < workerCount, ∀ key c value, ((workers w).store key).data c = some value →
    Readable (valueText env c value)
  deadline : ∀ w < workerCount, ∀ key m d, ((workers w).store key).metadata = some m →
    m.expireTimeMs = some d → now < d
  count : (allData env workerCount now workers).length < 16384

/-- The keys come back, on the workers that commands for them go to. -/
def Restores {V : Type} (cfg : ServerConfig V) (now : Int64)
    (workers : ℕ → ListedStore env.database) : Prop :=
  ∃ n, ∀ fuel ≥ n, ∀ stale, ∃ restored,
    loadRdb env cfg.workerCount now fuel (saveRdb env cfg.workerCount now workers) stale
      (fun _ => Store.empty) = some (true, restored) ∧
    ∀ w < cfg.workerCount, ∀ key c, ((workers w).store key).has c →
      Stored.SameKey ((workers w).store key) (restored (cfg.routeToWorker w key) key)

/-- Only strings without deadlines, whose two hashes agree; and workers that have the same key
have the same value. -/
structure Restorable {V : Type} (cfg : ServerConfig V) (now : Int64)
    (workers : ℕ → ListedStore env.database) : Prop where
  string : ∀ w < cfg.workerCount, ∀ key c, ((workers w).store key).has c → c = .strings
  deadline : now = 0 ∨ ∀ w < cfg.workerCount, ∀ key c, ((workers w).store key).has c →
    ((workers w).store key).metadata.bind (·.expireTimeMs) = none
  target : ∀ w < cfg.workerCount, ∀ key c, ((workers w).store key).has c →
    loadTarget env cfg.workerCount key = cfg.routeToWorker w key
  agree : ∀ w < cfg.workerCount, ∀ w' < cfg.workerCount, ∀ key c,
    ((workers w).store key).has c → ((workers w').store key).has c →
    ((workers w).store key).data .strings = ((workers w').store key).data .strings ∧
      ((workers w).store key).metadata.bind (·.expireTimeMs) =
        ((workers w').store key).metadata.bind (·.expireTimeMs)

variable {env}

/-! ### One entry -/

/-- The entry is not skipped. -/
def Live (now : Int64) (kv : RdbKeyValue) : Prop := ¬ (0 < kv.expireMs ∧ entryTtlMs now kv ≤ 0)

/-- Elements by which a loaded value is recognised. -/
def names {T : ValueTypes} : (c : Container) → Value T c → List Bytes
  | .lists, list => list
  | .sets, set => DashSet.members set
  | .zsets, zset => AList.keys (β := fun _ => Double) zset
  | _, _ => []

/-- An element is in the map. -/
def Holds (c : Container) (name : Bytes) (s : Stored env.database) : Prop :=
  ∃ value, s.data c = some value ∧ name ∈ names c value

/-- A write that puts an element into a map, and keeps those that are there. -/
structure Adds (c : Container) (key name : Bytes)
    (write : Store env.database → Store env.database) : Prop where
  holds : ∀ db, Holds c name (write db key)
  keeps : ∀ db name', Holds c name' (db key) → Holds c name' (write db key)
  data : ∀ db c', c' ≠ c → (write db key).data c' = (db key).data c'
  others : ∀ db other, other ≠ key → write db other = db other

variable {c : Container} {name : Bytes} {kv : RdbKeyValue} {now : Int64} {s : Stored env.database}
  {db : Store env.database}

theorem adds_extend {α : Type} {new : Value env.database.toValueTypes c}
    {edit : Value env.database.toValueTypes c → α × Value env.database.toValueTypes c}
    {persists : α → Bool} {key : Bytes} (hname : ∀ value, name ∈ names c (edit value).2)
    (hkeeps : ∀ value, names c value ⊆ names c (edit value).2) :
    Adds c key name fun db : Store env.database => (db.extend c new edit persists key []).2 where
  holds db := ⟨_, Store.data_extend List.not_mem_nil, hname _⟩
  keeps db name' hheld := by
    obtain ⟨value, hvalue, hmem⟩ := hheld
    refine ⟨_, Store.data_extend List.not_mem_nil, hkeeps _ ?_⟩
    rw [hvalue]
    exact hmem
  data db c' hc' := Store.data_extend_of_ne hc' List.not_mem_nil
  others db other hother := Store.extend_of_ne hother List.not_mem_nil db

theorem mem_zsetAdd {member : Bytes} {score : Double} {zset : DashMap Double} :
    name ∈ AList.keys (Store.zsetAdd env.database member score zset).2 ↔
      name = member ∨ name ∈ zset.keys := by
  rw [← mem_keys, ← mem_keys, Store.zsetAdd]
  split
  · exact mem_insert _
  · next old hold =>
    have hmember : member ∈ zset := lookup_isSome.mp (hold ▸ rfl)
    dsimp only
    split
    · exact ⟨.inr, fun h => h.elim (fun h => h ▸ hmember) id⟩
    · exact mem_insert _

theorem adds_loadValue (hc : c ∈ [lists, .sets, .zsets])
    (htype : kv.type = keyTypeToRdbType c.keyType) :
    ∃ write, loadValue env kv = some write ∧ Adds c kv.key kv.value write := by
  rw [loadValue, htype]
  simp only [List.mem_cons, List.not_mem_nil, or_false] at hc
  obtain rfl | rfl | rfl := hc
  · exact ⟨_, rfl, adds_extend (fun _ => List.mem_cons_self) fun _ => List.subset_cons_self _ _⟩
  · exact ⟨_, rfl, adds_extend (fun _ => List.mem_insert_self)
      fun _ _ hname => List.mem_insert_of_mem hname⟩
  · exact ⟨_, rfl, adds_extend (fun _ => mem_zsetAdd.mpr (.inl rfl))
      fun _ _ hname => mem_zsetAdd.mpr (.inr hname)⟩

theorem loadValue_cases {write : Store env.database → Store env.database}
    (h : loadValue env kv = some write) : (write = fun db => db.set kv.key kv.value []) ∨
    ∃ c, c ∈ [lists, .sets, .zsets] ∧ Adds c kv.key kv.value write := by
  have hadds : ∀ c ∈ [lists, .sets, .zsets], kv.type = keyTypeToRdbType c.keyType →
      ∃ c, c ∈ [lists, .sets, .zsets] ∧ Adds c kv.key kv.value write := by
    intro c hc htype
    obtain ⟨write', hwrite', hadds⟩ := adds_loadValue hc htype
    rw [h, some_inj] at hwrite'
    exact ⟨c, hc, hwrite' ▸ hadds⟩
  rw [loadValue] at h
  split at h
  · cases h
    exact .inl rfl
  split at h
  · next htype => exact .inr (hadds .lists (by decide) htype)
  split at h
  · next htype => exact .inr (hadds .sets (by decide) htype)
  split at h
  · next htype => exact .inr (hadds .zsets (by decide) htype)
  · cases h

theorem loadEntry_cases (now : Int64) (kv : RdbKeyValue) (db : Store env.database) :
    loadEntry env now kv db = db ∨ ∃ write, loadValue env kv = some write ∧
      (loadEntry env now kv db = write db ∨ ∃ ttlMs,
        loadEntry env now kv db = (write db).modify kv.key fun s => (s.setExpireMs ttlMs).2) := by
  rw [loadEntry]
  dsimp only
  split
  · exact .inl rfl
  · split
    · exact .inl rfl
    · next write hwrite =>
      refine .inr ⟨write, hwrite, ?_⟩
      split
      · exact .inr ⟨_, rfl⟩
      · exact .inl rfl

theorem loadEntry_of_ne {other : Bytes} (now : Int64) (h : other ≠ kv.key) (db : Store env.database) :
    loadEntry env now kv db other = db other := by
  obtain hskip | ⟨write, hwrite, hdb⟩ := loadEntry_cases now kv db
  · rw [hskip]
  · have hother : write db other = db other := by
      obtain rfl | ⟨c, -, hadds⟩ := loadValue_cases hwrite
      · exact Store.set_of_ne h List.not_mem_nil kv.value db
      · exact hadds.others db other h
    obtain hdb | ⟨ttlMs, hdb⟩ := hdb
    · rw [hdb, hother]
    · rw [hdb, Store.modify_of_ne h, hother]

theorem data_loadEntry (now : Int64) (kv : RdbKeyValue) (db : Store env.database) :
    (loadEntry env now kv db kv.key).data = (db kv.key).data ∨
      ∃ write, loadValue env kv = some write ∧
        (loadEntry env now kv db kv.key).data = (write db kv.key).data := by
  obtain hskip | ⟨write, hwrite, hdb | ⟨ttlMs, hdb⟩⟩ := loadEntry_cases now kv db
  · exact .inl (by rw [hskip])
  · exact .inr ⟨write, hwrite, by rw [hdb]⟩
  · exact .inr ⟨write, hwrite, by rw [hdb, Store.modify_self]; rfl⟩

/-! ### All entries -/

theorem loadCallback_apply (workerCount : ℕ) (now : Int64) (workers : ℕ → Store env.database)
    (d : RdbDelivery) (w : ℕ) (key : Bytes) :
    loadCallback env workerCount now workers d w key =
      if w = loadTarget env workerCount key ∧ d.2.key = key then
        loadEntry env now d.2 (workers w) key
      else workers w key := by
  rw [loadCallback]
  by_cases hkey : d.2.key = key
  · rw [hkey]
    by_cases hw : w = loadTarget env workerCount key
    · rw [if_pos ⟨hw, rfl⟩, hw, update_self]
    · rw [if_neg fun h => hw h.1, update_of_ne hw]
  · rw [if_neg fun h => hkey h.2]
    by_cases hw : w = loadTarget env workerCount d.2.key
    · rw [hw, update_self, loadEntry_of_ne now (Ne.symm hkey)]
    · rw [update_of_ne hw]

section

variable {workerCount w : ℕ} {now : Int64} {key : Bytes} {deliveries : List RdbDelivery}

theorem foldl_invariant {P : Stored env.database → Prop}
    (hstep : ∀ d ∈ deliveries, d.2.key = key → ∀ db, P (db key) →
      P (loadEntry env now d.2 db key))
    {workers : ℕ → Store env.database} (h : P (workers w key)) :
    P (deliveries.foldl (loadCallback env workerCount now) workers w key) := by
  induction deliveries generalizing workers with
  | nil => exact h
  | cons d deliveries ih =>
    refine ih (fun d' hd' => hstep d' (List.mem_cons_of_mem _ hd')) ?_
    rw [loadCallback_apply]
    split
    · next hkey => exact hstep d List.mem_cons_self hkey.2 (workers w) h
    · exact h

theorem foldl_of_ne (h : w ≠ loadTarget env workerCount key) (workers : ℕ → Store env.database) :
    deliveries.foldl (loadCallback env workerCount now) workers w key = workers w key := by
  induction deliveries generalizing workers with
  | nil => rfl
  | cons d deliveries ih =>
    refine (ih _).trans ?_
    rw [loadCallback_apply, if_neg fun h' => h h'.1]

theorem foldl_of_mem {P Q : Stored env.database → Prop} {d : RdbDelivery} (hd : d ∈ deliveries)
    (hkey : d.2.key = key)
    (hbefore : ∀ d' ∈ deliveries, d'.2.key = key → ∀ db, Q (db key) →
      Q (loadEntry env now d'.2 db key))
    (hreach : ∀ db, Q (db key) → P (loadEntry env now d.2 db key))
    (hbehind : ∀ d' ∈ deliveries, d'.2.key = key → ∀ db, P (db key) →
      P (loadEntry env now d'.2 db key))
    {workers : ℕ → Store env.database} (h : Q (workers (loadTarget env workerCount key) key)) :
    P (deliveries.foldl (loadCallback env workerCount now) workers
      (loadTarget env workerCount key) key) := by
  obtain ⟨before, behind, rfl⟩ := List.append_of_mem hd
  rw [List.foldl_append, List.foldl_cons]
  refine foldl_invariant (fun d' hd' => hbehind d'
    (List.mem_append_right _ (List.mem_cons_of_mem _ hd'))) ?_
  rw [loadCallback_apply, if_pos ⟨rfl, hkey⟩]
  exact hreach _ (foldl_invariant (fun d' hd' => hbefore d' (List.mem_append_left _ hd')) h)

end

/-! ### Values that do not come back -/

theorem data_loadEntry_hashes (db : Store env.database) :
    (loadEntry env now kv db kv.key).data .hashes = (db kv.key).data .hashes := by
  obtain hdata | ⟨write, hwrite, hdata⟩ := data_loadEntry now kv db
  · rw [hdata]
  · rw [hdata]
    obtain rfl | ⟨c, hc, hadds⟩ := loadValue_cases hwrite
    · exact Store.data_set_of_ne (by decide) List.not_mem_nil kv.value db
    · exact hadds.data db .hashes fun h => absurd (h ▸ hc) (by decide)

theorem Holds.congr {s' : Stored env.database} (h : Holds c name s) (hdata : s'.data c = s.data c) :
    Holds c name s' := by
  obtain ⟨value, hvalue, hname⟩ := h
  exact ⟨value, hdata.trans hvalue, hname⟩

theorem Holds.loadEntry (hc : c ≠ .strings) (h : Holds c name (db kv.key)) :
    Holds c name (loadEntry env now kv db kv.key) := by
  obtain hdata | ⟨write, hwrite, hdata⟩ := data_loadEntry now kv db
  · exact h.congr (by rw [hdata])
  · have hwritten : Holds c name (write db kv.key) := by
      obtain rfl | ⟨c', -, hadds⟩ := loadValue_cases hwrite
      · exact h.congr (Store.data_set_of_ne hc List.not_mem_nil kv.value db)
      · by_cases hc' : c = c'
        · subst hc'
          exact hadds.keeps db name h
        · exact h.congr (hadds.data db c hc')
    exact hwritten.congr (by rw [hdata])

theorem loadEntry_of_live (hlive : Live now kv) {write : Store env.database → Store env.database}
    (hwrite : loadValue env kv = some write) (db : Store env.database) :
    loadEntry env now kv db = if 0 < entryTtlMs now kv then
      (write db).modify kv.key fun s => (s.setExpireMs (entryTtlMs now kv)).2 else write db := by
  rw [loadEntry]
  dsimp only
  rw [if_neg hlive, hwrite]

theorem holds_loadEntry (hc : c ∈ [lists, .sets, .zsets])
    (htype : kv.type = keyTypeToRdbType c.keyType) (hlive : Live now kv) (db : Store env.database) :
    Holds c kv.value (loadEntry env now kv db kv.key) := by
  obtain ⟨write, hwrite, hadds⟩ := adds_loadValue hc htype
  rw [loadEntry_of_live hlive hwrite]
  split
  · rw [Store.modify_self]
    exact (hadds.holds db).congr rfl
  · exact hadds.holds db

theorem length_le_flatMap {α β : Type} {l : List α} (f : α → List β) {a : α} (h : a ∈ l) :
    (f a).length ≤ (l.flatMap f).length := by
  obtain ⟨before, behind, rfl⟩ := List.append_of_mem h
  simp only [List.flatMap_append, List.flatMap_cons, List.length_append]
  omega

theorem length_lt_valueText (hc : c ∈ [lists, .sets, .zsets])
    {value : Value env.database.toValueTypes c} (hname : name ∈ names c value) :
    name.length < (valueText env c value).length := by
  simp only [List.mem_cons, List.not_mem_nil, or_false] at hc
  obtain rfl | rfl | rfl := hc
  · have hle := length_le_flatMap (fun elem => elem ++ ascii "\n") hname
    rw [List.length_append] at hle
    exact hle
  · have hle := length_le_flatMap (fun member => member ++ ascii "\n") hname
    rw [List.length_append] at hle
    exact hle
  · obtain ⟨⟨member, score⟩, hentry, rfl⟩ := List.mem_map.mp hname
    have hle := length_le_flatMap (fun e : (_ : Bytes) × Double =>
      e.1 ++ ascii ":" ++ env.doubleText e.2 ++ ascii "\n") hentry
    simp only [List.length_append] at hle
    have hcolon : (ascii ":").length = 1 := rfl
    refine Nat.lt_of_lt_of_le ?_ hle
    show member.length < _
    omega

theorem names_of_sameElements {T : ValueTypes} {value value' : Value T c}
    (h : SameElements c value value') : names c value' ⊆ names c value := by
  cases c with
  | lists => exact fun _ hname => (h : value = value') ▸ hname
  | sets => exact fun name hname => (h name).mpr hname
  | zsets =>
    intro name hname
    have hsome := lookup_isSome.mpr (mem_keys.mpr hname)
    exact mem_keys.mp (lookup_isSome.mp ((congrArg Option.isSome (h name)).trans hsome))
  | _ => exact List.nil_subset _

/-! ### Strings -/

/-- A string and nothing else. -/
structure IsString (value : Bytes) (deadline : Option Int64) (s : Stored env.database) : Prop where
  value : s.data .strings = some value
  only : ∀ c, c ≠ .strings → s.data c = none
  type : s.metadata.map (·.type) = some .kString
  deadline : s.metadata.bind (·.expireTimeMs) = deadline

/-- The deadline that is set for an entry. -/
def entryDeadline (now : Int64) (kv : RdbKeyValue) : Option Int64 :=
  if 0 < entryTtlMs now kv then some (entryTtlMs now kv) else none

theorem isString_set {value : Bytes} {deadline : Option Int64} {key : Bytes}
    (h : db key = empty ∨ IsString value deadline (db key)) :
    IsString value none (db.set key value [] key) ∨
      IsString value deadline (db.set key value [] key) := by
  have hmetadata := (Store.set_self List.not_mem_nil value db : _ ∧
    (db.set key value [] key).metadata = _).2
  have hvalue := (Store.data_set List.not_mem_nil value db :
    (db.set key value [] key).data .strings = _)
  have hother : ∀ c, c ≠ .strings → (db.set key value [] key).data c = (db key).data c :=
    fun c hc => Store.data_set_of_ne hc List.not_mem_nil value db
  rw [insertString] at hmetadata
  obtain hempty | hstring := h
  · have hhas : (db key).has .strings = false := by rw [hempty]; rfl
    rw [hhas, if_neg Bool.false_ne_true] at hmetadata
    refine .inl ⟨hvalue, fun c hc => ?_, by rw [hmetadata]; rfl, by rw [hmetadata]; rfl⟩
    rw [hother c hc, hempty]
    rfl
  · have hhas : (db key).has .strings = true := by rw [has, hstring.value]; rfl
    rw [hhas, if_pos rfl, incrementKeyVersion] at hmetadata
    dsimp only [metadata_put] at hmetadata
    refine .inr ⟨hvalue, fun c hc => (hother c hc).trans (hstring.only c hc), ?_, ?_⟩
    · rw [hmetadata, map_map, ← hstring.type]
      rfl
    · rw [hmetadata, bind_map, ← hstring.deadline]
      rfl

theorem IsString.setExpireMs {value : Bytes} {deadline : Option Int64}
    (h : IsString value deadline s) {ms : Int64} (hms : 0 < ms) :
    IsString value (some ms) (s.setExpireMs ms).2 := by
  obtain ⟨m, hm, htype⟩ := map_eq_some_iff.mp h.type
  have hmetadata : (s.setExpireMs ms).2.metadata = some (m.setExpireMs ms) := by
    rw [Stored.setExpireMs, hm]
    rfl
  refine ⟨h.value, h.only, ?_, ?_⟩
  · rw [hmetadata]
    exact congrArg some htype
  · rw [hmetadata]
    exact if_neg (Int64.not_le.mpr hms)

theorem isString_loadEntry (htype : kv.type = typeString) (hlive : Live now kv)
    (h : db kv.key = empty ∨ IsString kv.value (entryDeadline now kv) (db kv.key)) :
    IsString kv.value (entryDeadline now kv) (loadEntry env now kv db kv.key) := by
  have hwrite : loadValue env kv = some fun db => db.set kv.key kv.value [] := by
    rw [loadValue, if_pos htype]
  have hset := isString_set h
  rw [loadEntry_of_live hlive hwrite]
  rw [entryDeadline] at hset ⊢
  split
  · next hpos =>
    rw [Store.modify_self]
    exact hset.elim (fun h => h.setExpireMs hpos) fun h => h.setExpireMs hpos
  · next hpos =>
    rw [if_neg hpos] at hset
    exact hset.elim id id

/-! ### The entries of a snapshot -/

theorem sub_pos_of_lt {d : Int64} (hnow : 0 ≤ now) (hd : now < d) : 0 < d - now := by
  rw [Int64.lt_iff_toInt_lt] at hd ⊢
  have hnow : 0 ≤ now.toInt := Int64.le_iff_toInt_le.mp hnow
  have hmax := d.toInt_lt
  have hsub : (d.toInt - now.toInt).bmod (2 ^ 64) = d.toInt - now.toInt :=
    Int.bmod_eq_of_le (by omega) (by omega)
  rw [Int64.toInt_sub, hsub]
  show 0 < _
  omega

theorem expireMs_eq (hnow : 0 ≤ now)
    (hs : ∀ m d, s.metadata = some m → m.expireTimeMs = some d → now < d) :
    (if 0 < s.getTtlMs now then now + s.getTtlMs now else -1) =
      (s.metadata.bind (·.expireTimeMs)).getD (-1) := by
  cases hm : s.metadata with
  | none =>
    have hget : s.getTtlMs now = -2 := by rw [getTtlMs, hm]
    rw [hget]
    rfl
  | some m =>
    rw [bind_some]
    cases hd : m.expireTimeMs with
    | none =>
      have hget : s.getTtlMs now = -1 := by
        rw [getTtlMs, hm]
        simp [KeyMetadata.isExpired, KeyMetadata.getTtlMs, hd]
      rw [hget]
      rfl
    | some d =>
      have hlt := hs m d hm hd
      have hpos : 0 < d := Int64.lt_of_le_of_lt hnow hlt
      have hexpired : m.isExpired now = false := by
        rw [KeyMetadata.isExpired, hd]
        exact decide_eq_false fun h => Int64.lt_irrefl (Int64.lt_trans h.2 hlt)
      have httl : m.getTtlMs now = some (d - now) := by
        rw [KeyMetadata.getTtlMs, hd]
        exact if_neg (not_or.mpr ⟨Int64.not_le.mpr hpos, Int64.not_le.mpr hlt⟩)
      have hget : s.getTtlMs now = d - now := by
        rw [getTtlMs, hm]
        dsimp only
        rw [hexpired, if_neg Bool.false_ne_true, httl, getD_some]
      rw [hget, if_pos (sub_pos_of_lt hnow hlt), getD_some]
      grind

section

variable {workerCount : ℕ} {now : Int64} {workers : ℕ → ListedStore env.database}

theorem mem_allData {datum : RdbDatum} :
    datum ∈ allData env workerCount now workers ↔
      ∃ w < workerCount, ∃ c ∈ savedContainers, ∃ key value,
        ((workers w).store key).data c = some value ∧
        datum = ⟨key, c.keyType, valueText env c value, ((workers w).store key).getTtlMs now⟩ := by
  simp only [allData, getRdbData, List.mem_flatMap, List.mem_range, List.mem_filterMap,
    map_eq_some_iff]
  constructor
  · rintro ⟨w, hw, c, hc, key, -, value, hvalue, rfl⟩
    exact ⟨w, hw, c, hc, key, value, hvalue, rfl⟩
  · rintro ⟨w, hw, c, hc, key, value, hvalue, rfl⟩
    refine ⟨w, hw, c, hc, key, ((workers w).mem_keys c key).mpr ?_, value, hvalue, rfl⟩
    rw [has, hvalue]
    rfl

theorem deliveries_saveCalls (now : Int64) (data : List RdbDatum) :
    deliveries 0 (saveCalls now data) = data.map fun datum => (0, rdbEntry now datum) := by
  rw [saveCalls, deliveries, deliveries]
  induction data with
  | nil => rfl
  | cons datum data ih => rw [List.map_cons, deliveries, ih, List.map_cons]

def restored (env : SnapshotEnv) (workerCount : ℕ) (now : Int64)
    (workers : ℕ → ListedStore env.database) : ℕ → Store env.database :=
  (deliveries 0 (saveCalls now (allData env workerCount now workers))).foldl
    (loadCallback env workerCount now) fun _ => Store.empty

/-- The entry for what a worker has under a key. -/
def savedEntry (env : SnapshotEnv) (key : Bytes) (s : Stored env.database) (c : Container)
    (value : Value env.database.toValueTypes c) : RdbKeyValue where
  type := keyTypeToRdbType c.keyType
  key := key
  value := valueText env c value
  expireMs := (s.metadata.bind (·.expireTimeMs)).getD (-1)

theorem Snapshotable.mem_deliveries (h : Snapshotable env workerCount now workers)
    {d : RdbDelivery} :
    d ∈ deliveries 0 (saveCalls now (allData env workerCount now workers)) ↔
      ∃ w < workerCount, ∃ c ∈ savedContainers, ∃ key value,
        ((workers w).store key).data c = some value ∧
        d = (0, savedEntry env key ((workers w).store key) c value) := by
  have hentry : ∀ w < workerCount, ∀ key c value,
      rdbEntry now ⟨key, keyType c, valueText env c value,
        ((workers w).store key).getTtlMs now⟩ =
      savedEntry env key ((workers w).store key) c value := by
    intro w hw key c value
    rw [rdbEntry, savedEntry, expireMs_eq h.clock (h.deadline w hw key)]
  rw [deliveries_saveCalls, List.mem_map]
  constructor
  · rintro ⟨datum, hdatum, rfl⟩
    obtain ⟨w, hw, c, hc, key, value, hvalue, rfl⟩ := mem_allData.mp hdatum
    exact ⟨w, hw, c, hc, key, value, hvalue, by rw [hentry w hw]⟩
  · rintro ⟨w, hw, c, hc, key, value, hvalue, rfl⟩
    exact ⟨_, mem_allData.mpr ⟨w, hw, c, hc, key, value, hvalue, rfl⟩, by rw [hentry w hw]⟩

theorem entryTtlMs_savedEntry {s : Stored env.database} (hnow : 0 ≤ now)
    (hs : ∀ m d, s.metadata = some m → m.expireTimeMs = some d → now < d) (key : Bytes)
    (c : Container) (value : Value env.database.toValueTypes c) :
    Live now (savedEntry env key s c value) ∧
      entryDeadline now (savedEntry env key s c value) =
        (s.metadata.bind (·.expireTimeMs)).map (· - now) := by
  cases hd : s.metadata.bind (·.expireTimeMs) with
  | none =>
    have hexpire : (savedEntry env key s c value).expireMs = -1 := by rw [savedEntry, hd]; rfl
    have httl : entryTtlMs now (savedEntry env key s c value) = -1 := by
      rw [entryTtlMs, hexpire, if_neg (by decide)]
    rw [Live, entryDeadline, httl, hexpire]
    exact ⟨by decide, rfl⟩
  | some d =>
    obtain ⟨m, hm, hd'⟩ := bind_eq_some_iff.mp hd
    have hlt := hs m d hm hd'
    have hexpire : (savedEntry env key s c value).expireMs = d := by rw [savedEntry, hd]; rfl
    have hpos := sub_pos_of_lt hnow hlt
    have httl : entryTtlMs now (savedEntry env key s c value) = d - now := by
      rw [entryTtlMs, hexpire, if_pos (Int64.lt_of_le_of_lt hnow hlt)]
    rw [Live, entryDeadline, httl, if_pos hpos]
    exact ⟨fun h => Int64.not_le.mpr hpos h.2, rfl⟩

section

variable (h : Snapshotable env workerCount now workers)
include h

theorem Snapshotable.valid :
    ∀ call ∈ saveCalls now (allData env workerCount now workers), call.Valid := by
  have hsize : ∀ n : ℕ, n < 16384 → UInt64.ofNat n < 16384 := by
    intro n hn
    rw [UInt64.lt_iff_toNat_lt, UInt64.toNat_ofNat_of_lt' (Nat.lt_trans hn (by decide))]
    exact hn
  intro call hcall
  rw [saveCalls, List.mem_cons, List.mem_cons] at hcall
  obtain rfl | rfl | hcall := hcall
  · decide
  · exact ⟨hsize _ h.count, hsize _ (Nat.lt_of_le_of_lt List.countP_le_length h.count)⟩
  · obtain ⟨datum, hdatum, rfl⟩ := List.mem_map.mp hcall
    obtain ⟨w, hw, c, -, key, value, hvalue, rfl⟩ := mem_allData.mp hdatum
    have hhas : ((workers w).store key).has c = true := by rw [has, hvalue]; rfl
    refine ⟨?_, h.key w hw key c hhas, h.value w hw key c value hvalue, ?_⟩
    · show keyTypeToRdbType c.keyType ≤ 4
      cases c <;> decide
    · rw [rdbEntry, expireMs_eq h.clock (h.deadline w hw key)]
      cases hd : ((workers w).store key).metadata.bind (·.expireTimeMs) with
      | none => exact .inl rfl
      | some d =>
        obtain ⟨m, hm, hd'⟩ := bind_eq_some_iff.mp hd
        exact .inr (Int64.le_of_lt (Int64.lt_of_le_of_lt h.clock (h.deadline w hw key m d hm hd')))

theorem Snapshotable.loadRdb_eq (henv : env.rdb.WritesDecimal) :
    ∃ n, ∀ fuel ≥ n, ∀ stale,
      loadRdb env workerCount now fuel (saveRdb env workerCount now workers) stale
        (fun _ => Store.empty) = some (true, restored env workerCount now workers) := by
  obtain ⟨n, hload⟩ := exists_load_save env.rdb henv h.valid (now / 1000)
  refine ⟨n, fun fuel hfuel stale => ?_⟩
  rw [loadRdb, saveRdb, hload fuel hfuel stale]
  rfl

/-! ### What is restored -/

/-- Hashes are not, and the other elements are told from their text. -/
theorem Snapshotable.eq_strings {w : ℕ}
    (hw : w < workerCount) {key : Bytes} {c : Container}
    (hc : ((workers w).store key).has c = true)
    (hsame : Stored.SameKey ((workers w).store key)
      (restored env workerCount now workers (loadTarget env workerCount key) key)) :
    c = .strings := by
  obtain ⟨value, hvalue⟩ := isSome_iff_exists.mp hc
  obtain ⟨value', hvalue', helements⟩ := hsame.elements c value hvalue
  have hsaved := h.container w hw key c hc
  by_cases hlist : c ∈ [lists, .sets, .zsets]
  · obtain ⟨hlive, -⟩ := entryTtlMs_savedEntry h.clock (h.deadline w hw key) key c value
    have hd := h.mem_deliveries.mpr ⟨w, hw, c, hsaved, key, value, hvalue, rfl⟩
    have hne : c ≠ .strings := fun hc => absurd (hc ▸ hlist) (by decide)
    have hholds : Holds c (valueText env c value)
        (restored env workerCount now workers (loadTarget env workerCount key) key) := by
      refine foldl_of_mem (Q := fun _ => True) hd rfl (fun _ _ _ _ _ => trivial)
        (fun db _ => holds_loadEntry hlist rfl hlive db) (fun d _ hkey db hdb => ?_) trivial
      subst hkey
      have hdb : Holds c _ (db d.2.key) := hdb
      exact hdb.loadEntry hne
    obtain ⟨value'', hvalue'', hname⟩ := hholds
    obtain rfl : value' = value'' := some_inj.mp (hvalue'.symm.trans hvalue'')
    have hlt := length_lt_valueText hlist (names_of_sameElements helements hname)
    exact absurd hlt (Nat.lt_irrefl _)
  · have hnone : (restored env workerCount now workers (loadTarget env workerCount key)
        key).data .hashes = none := by
      refine foldl_invariant (P := fun s => s.data .hashes = none) (fun d _ hkey db hdb => ?_) rfl
      subst hkey
      exact (data_loadEntry_hashes db).trans hdb
    by_cases hhash : c = .hashes
    · subst hhash
      rw [hnone] at hvalue'
      cases hvalue'
    · cases c <;> first | rfl | exact absurd rfl hhash | exact absurd hsaved (by decide) |
        exact absurd hlist (by decide)

/-- A string is, with what is left of its deadline. -/
theorem Snapshotable.isString_restored
    {key value : Bytes} {deadline : Option Int64}
    (hkey : ∀ w < workerCount, ∀ c, ((workers w).store key).has c → c = .strings ∧
      ((workers w).store key).data .strings = some value ∧
      ((workers w).store key).metadata.bind (·.expireTimeMs) = deadline)
    {w : ℕ} (hw : w < workerCount) (hhas : ((workers w).store key).has .strings = true) :
    IsString value (deadline.map (· - now))
      (restored env workerCount now workers (loadTarget env workerCount key) key) := by
  have hentry : ∀ d ∈ deliveries 0 (saveCalls now (allData env workerCount now workers)),
      d.2.key = key → ∀ db : Store env.database,
      (db key = empty ∨ IsString value (deadline.map (· - now)) (db key)) →
      IsString value (deadline.map (· - now)) (loadEntry env now d.2 db key) := by
    intro d hd hdkey db hdb
    obtain ⟨w, hw, c, -, key', value', hvalue', rfl⟩ := h.mem_deliveries.mp hd
    obtain rfl : key' = key := hdkey
    have hc : ((workers w).store key').has c = true := by rw [has, hvalue']; rfl
    obtain ⟨rfl, hvalue, hdeadline⟩ := hkey w hw c hc
    obtain rfl : value = value' := some_inj.mp (hvalue.symm.trans hvalue')
    obtain ⟨hlive, hentry⟩ :=
      entryTtlMs_savedEntry h.clock (h.deadline w hw key') key' .strings value
    rw [hdeadline] at hentry
    rw [← hentry] at hdb ⊢
    exact isString_loadEntry rfl hlive hdb
  obtain ⟨-, hvalue, -⟩ := hkey w hw _ hhas
  have hd := h.mem_deliveries.mpr ⟨w, hw, .strings, by decide, key, value, hvalue, rfl⟩
  exact foldl_of_mem (Q := fun s => s = empty ∨ IsString value (deadline.map (· - now)) s)
    hd rfl (fun d hd hkey db hdb => .inr (hentry d hd hkey db hdb)) (hentry _ hd rfl)
    (fun d hd hkey db hdb => hentry d hd hkey db (.inr hdb)) (.inl rfl)

end

end

section

variable {V : Type} {cfg : ServerConfig V} {now : Int64} {workers : ℕ → ListedStore env.database}

theorem Snapshotable.restorable (h : Snapshotable env cfg.workerCount now workers)
    (hsame : ∀ w < cfg.workerCount, ∀ key c, ((workers w).store key).has c →
      Stored.SameKey ((workers w).store key)
        (restored env cfg.workerCount now workers (cfg.routeToWorker w key) key)) :
    Restorable env cfg now workers := by
  have htarget : ∀ w < cfg.workerCount, ∀ key c, ((workers w).store key).has c →
      loadTarget env cfg.workerCount key = cfg.routeToWorker w key := by
    intro w hw key c hc
    by_contra htarget
    -- the key would not have come to the worker
    have htype := (hsame w hw key c hc).type
    rw [restored, foldl_of_ne (Ne.symm htarget), (h.oneType w hw key).type hc] at htype
    cases htype
  have hsame : ∀ w < cfg.workerCount, ∀ key c, ((workers w).store key).has c →
      Stored.SameKey ((workers w).store key)
        (restored env cfg.workerCount now workers (loadTarget env cfg.workerCount key) key) := by
    intro w hw key c hc
    rw [htarget w hw key c hc]
    exact hsame w hw key c hc
  have hstring : ∀ w < cfg.workerCount, ∀ key c, ((workers w).store key).has c → c = .strings :=
    fun w hw key c hc => h.eq_strings hw hc (hsame w hw key c hc)
  have hdata : ∀ w < cfg.workerCount, ∀ key c, ((workers w).store key).has c →
      ((workers w).store key).data .strings =
        (restored env cfg.workerCount now workers (loadTarget env cfg.workerCount key)
          key).data .strings := by
    intro w hw key c hc
    obtain rfl := hstring w hw key c hc
    obtain ⟨value, hvalue⟩ := isSome_iff_exists.mp hc
    obtain ⟨value', hvalue', helements⟩ := (hsame w hw key _ hc).elements _ value hvalue
    rw [hvalue, hvalue']
    exact congrArg some helements
  refine ⟨hstring, ?_, htarget, fun w hw w' hw' key c hc hc' => ⟨?_, ?_⟩⟩
  · by_cases hzero : now = 0
    · exact .inl hzero
    refine .inr fun w hw key c hc => ?_
    obtain rfl := hstring w hw key c hc
    obtain ⟨value, hvalue⟩ := isSome_iff_exists.mp hc
    cases hd : ((workers w).store key).metadata.bind (·.expireTimeMs) with
    | none => rfl
    | some d =>
      -- all workers with the key have the same string
      have hall : ∀ w' < cfg.workerCount, ∀ c', ((workers w').store key).has c' →
          c' = .strings ∧ ((workers w').store key).data .strings = some value ∧
          ((workers w').store key).metadata.bind (·.expireTimeMs) = some d := by
        intro w' hw' c' hc'
        refine ⟨hstring w' hw' key c' hc', ?_, ?_⟩
        · rw [hdata w' hw' key c' hc', ← hdata w hw key _ hc, hvalue]
        · rw [← (hsame w' hw' key c' hc').deadline, (hsame w hw key _ hc).deadline, hd]
      have hdeadline := (hsame w hw key _ hc).deadline
      rw [(h.isString_restored hall hw hc).deadline, hd] at hdeadline
      have hsub : d - now = d := some_inj.mp hdeadline
      exact absurd (by grind) hzero
  · rw [hdata w hw key c hc, hdata w' hw' key c hc']
  · rw [← (hsame w hw key c hc).deadline, (hsame w' hw' key c hc').deadline]

theorem Restorable.sameKey (hrest : Restorable env cfg now workers)
    (h : Snapshotable env cfg.workerCount now workers) {w : ℕ} (hw : w < cfg.workerCount)
    {key : Bytes} {c : Container} (hc : ((workers w).store key).has c = true) :
    Stored.SameKey ((workers w).store key)
      (restored env cfg.workerCount now workers (cfg.routeToWorker w key) key) := by
  obtain rfl := hrest.string w hw key c hc
  obtain ⟨value, hvalue⟩ := isSome_iff_exists.mp hc
  have hall : ∀ w' < cfg.workerCount, ∀ c', ((workers w').store key).has c' →
      c' = .strings ∧ ((workers w').store key).data .strings = some value ∧
      ((workers w').store key).metadata.bind (·.expireTimeMs) =
        ((workers w).store key).metadata.bind (·.expireTimeMs) := by
    intro w' hw' c' hc'
    obtain rfl := hrest.string w' hw' key c' hc'
    obtain ⟨hdata, hdeadline⟩ := hrest.agree w' hw' w hw key _ hc' hc
    exact ⟨rfl, hdata.trans hvalue, hdeadline⟩
  have hrestored := h.isString_restored hall hw hc
  rw [hrest.target w hw key _ hc] at hrestored
  refine ⟨?_, ?_, fun c value' hvalue' => ?_, fun c hc' => ?_⟩
  · rw [hrestored.type, (h.oneType w hw key).type hc]
    rfl
  · rw [hrestored.deadline]
    obtain rfl | hnone := hrest.deadline
    · simp
    · rw [hnone w hw key _ hc]
      rfl
  · have hc' : ((workers w).store key).has c = true := by rw [has, hvalue']; rfl
    obtain rfl := hrest.string w hw key c hc'
    obtain rfl : value = value' := some_inj.mp (hvalue.symm.trans hvalue')
    exact ⟨value, hrestored.value, rfl⟩
  · by_cases hstring : c = .strings
    · rw [hstring, hc]
    · rw [has, hrestored.only c hstring] at hc'
      cases hc'

theorem Snapshotable.restorable_of_restores (h : Snapshotable env cfg.workerCount now workers)
    (henv : env.rdb.WritesDecimal) (hrestores : Restores env cfg now workers) :
    Restorable env cfg now workers := by
  obtain ⟨n, hload⟩ := h.loadRdb_eq henv
  obtain ⟨n', hrestores⟩ := hrestores
  obtain ⟨workers', hworkers', hsame⟩ := hrestores (max n n') (Nat.le_max_right n n') []
  rw [hload _ (Nat.le_max_left n n') []] at hworkers'
  cases hworkers'
  exact h.restorable hsame

/-- When a snapshot is restored. -/
theorem saveRdb_loadRdb_iff (h : Snapshotable env cfg.workerCount now workers)
    (henv : env.rdb.WritesDecimal) :
    Restores env cfg now workers ↔ Restorable env cfg now workers := by
  refine ⟨h.restorable_of_restores henv, fun hrest => ?_⟩
  obtain ⟨n, hload⟩ := h.loadRdb_eq henv
  exact ⟨n, fun fuel hfuel stale => ⟨_, hload fuel hfuel stale,
    fun w hw key c hc => hrest.sameKey h hw hc⟩⟩

end

/-! ### One key -/

def singleKey {env : DatabaseEnv} (key : Bytes) (c : Container) (s : Stored env)
    (h : ∀ c', s.has c' = decide (c' = c)) : ListedStore env where
  store := update Store.empty key s
  keys c' := if c' = c then [key] else []
  nodup c' := by split <;> simp
  mem_keys c' key' := by
    by_cases hkey : key' = key
    · subst hkey
      rw [update_self, h c', decide_eq_true_iff]
      split <;> simp [*]
    · rw [update_of_ne hkey]
      split <;> simp [hkey, Store.empty, Stored.empty, Stored.has]

section

variable {key key' : Bytes} {c c' : Container} {s : Stored env.database}
  {h : ∀ c', s.has c' = decide (c' = c)}

theorem singleKey_cases (hhas : ((singleKey key c s h).store key').has c' = true) :
    key' = key ∧ c' = c ∧ (singleKey key c s h).store key' = s := by
  have hmem := ((singleKey key c s h).mem_keys c' key').mpr hhas
  rw [singleKey] at hmem
  dsimp only at hmem
  split at hmem
  · next hc =>
    obtain rfl := List.mem_singleton.mp hmem
    exact ⟨rfl, hc, update_self ..⟩
  · cases hmem

theorem singleKey_eq_or (key' : Bytes) :
    (singleKey key c s h).store key' = s ∨ (singleKey key c s h).store key' = empty := by
  by_cases hkey : key' = key
  · rw [hkey]
    exact .inl (update_self ..)
  · exact .inr (update_of_ne hkey ..)

theorem snapshotable_singleKey {now : Int64} (hnow : 0 ≤ now)
    (htype : s.metadata.map (·.type) = some c.keyType)
    (hc : c ∈ savedContainers) (hkey : Readable key)
    (hvalue : ∀ value, s.data c = some value → Readable (valueText env c value))
    (hdeadline : ∀ m d, s.metadata = some m → m.expireTimeMs = some d → now < d)
    (hcount : (allData env 1 now fun _ => singleKey key c s h).length < 16384) :
    Snapshotable env 1 now fun _ => singleKey key c s h where
  clock := hnow
  oneType _ _ key' := by
    obtain hs | hempty := singleKey_eq_or (h := h) key'
    · have hhas : ∀ {c'}, s.has c' → c' = c := fun hc' => of_decide_eq_true ((h _).symm.trans hc')
      rw [hs]
      exact ⟨fun hc hc' => (hhas hc).trans (hhas hc').symm, fun hc => hhas hc ▸ htype⟩
    · rw [hempty]
      exact oneType_empty
  container _ _ _ _ hhas := (singleKey_cases hhas).2.1 ▸ hc
  key _ _ _ _ hhas := (singleKey_cases hhas).1 ▸ hkey
  value _ _ key' c' value hdata := by
    have hhas : ((singleKey key c s h).store key').has c' = true := by
      rw [has, hdata]
      rfl
    obtain ⟨-, rfl, hs⟩ := singleKey_cases hhas
    exact hvalue value (hs ▸ hdata)
  deadline _ _ key' m d hm hd := by
    obtain hs | hempty := singleKey_eq_or (h := h) key'
    · exact hdeadline m d (hs ▸ hm) hd
    · rw [hempty] at hm
      cases hm
  count := hcount

end

/-- A string with a deadline, or without one for 0. -/
def savedString (ms : Int64) : Stored simpleSnapshot.database :=
  (((Store.empty.set (ascii "k") (ascii "v") []) (ascii "k")).setExpireMs ms).2

theorem has_savedString (ms : Int64) (c : Container) :
    (savedString ms).has c = decide (c = .strings) := by cases c <;> rfl

def stringWorker (ms : Int64) : ListedStore simpleSnapshot.database :=
  singleKey (ascii "k") .strings (savedString ms) (has_savedString ms)

theorem snapshotable_stringWorker {ms : Int64} (hnow : 0 ≤ now) (hms : 0 < ms → now < ms) :
    Snapshotable simpleSnapshot 1 now fun _ => stringWorker ms := by
  refine snapshotable_singleKey hnow rfl (by decide) (by decide) ?_ ?_ (?_ : 1 < 16384)
  · intro value hvalue
    cases hvalue
    decide
  · intro m d hm hd
    cases hm
    have hd : (if ms ≤ 0 then none else some ms) = some d := hd
    split at hd
    · cases hd
    · next hms' =>
      cases hd
      exact hms (Int64.not_le.mp hms')
  · decide

def savedHash : Stored simpleSnapshot.database :=
  (Store.empty.hSet (ascii "k") (ascii "f") (ascii "v") []).2 (ascii "k")

theorem has_savedHash (c : Container) : savedHash.has c = decide (c = .hashes) := by
  cases c <;> rfl

def hashWorker : ListedStore simpleSnapshot.database :=
  singleKey (ascii "k") .hashes savedHash has_savedHash

theorem snapshotable_hashWorker : Snapshotable simpleSnapshot 1 1000 fun _ => hashWorker := by
  refine snapshotable_singleKey (by decide) rfl (by decide) (by decide) ?_ ?_ (?_ : 1 < 16384)
  · intro value hvalue
    cases hvalue
    decide
  · intro m d hm hd
    cases hm
    cases hd
  · decide

theorem saveRdb_loadRdb_iff_string :
    Restores simpleSnapshot (sampleConfig 1) 1000 (fun _ => stringWorker 0) ↔
      Restorable simpleSnapshot (sampleConfig 1) 1000 fun _ => stringWorker 0 :=
  saveRdb_loadRdb_iff
    (snapshotable_stringWorker (by decide) fun h => absurd h (by decide)) fun _ => rfl

/-- A hash does not come back, and a deadline comes back as an earlier one. -/
theorem not_restores :
    ¬ Restores simpleSnapshot (sampleConfig 1) 1000 (fun _ => hashWorker) ∧
    ¬ Restores simpleSnapshot (sampleConfig 1) 1000 (fun _ => stringWorker 5000) := by
  refine ⟨fun h => ?_, fun h => ?_⟩
  · have hrest := snapshotable_hashWorker.restorable_of_restores (fun _ => rfl) h
    have hstring := hrest.string 0 (by decide) (ascii "k") .hashes (by decide)
    cases hstring
  · have hsnap : Snapshotable simpleSnapshot 1 1000 fun _ => stringWorker 5000 :=
      snapshotable_stringWorker (by decide) fun _ => by decide
    have hrest := hsnap.restorable_of_restores (fun _ => rfl) h
    obtain hzero | hnone := hrest.deadline
    · exact absurd hzero (by decide)
    · have hdeadline := hnone 0 (by decide) (ascii "k") .strings (by decide)
      cases hdeadline

end PersistenceManager
