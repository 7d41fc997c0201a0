/-
Eviction in the middle of a write.

`SAdd`, `HSet` and `ZAdd` create the container if there is none, then evict keys, and only then
insert the element.  They hold on to the container, which may no longer be in its map.

* `visible_iff` — an element that was reported as added is found if and only if the key was not
  evicted and was not expired before.
-/
import AstraDB.Deletion

open Stored

variable {env : DatabaseEnv}

namespace Stored

def sIsMember (member : Bytes) (now : Int64) (s : Stored env) : Bool × Stored env :=
  s.checkedRead .sets false (fun set : DashSet => set.contains member) now

def zScore (member : Bytes) (now : Int64) (s : Stored env) : Option Double × Stored env :=
  s.checkedRead .zsets none (fun zset : DashMap Double => zset.lookup member) now

/-- `EvictionManager::ExecuteEviction`: a key is only evicted if it has a type. -/
def executeEviction (now : Int64) (key : Bytes) (s : Stored env) : Stored env :=
  match s.getKeyType now with
  | (none, s) => s
  | (some type, s) => s.evictKey key type

theorem metadata_evictKey {s : Stored env} {c : Container} (h : s.has c = true) (key : Bytes)
    (type : KeyType) : (s.evictKey key type).metadata = none := by
  have hpersist : (s.persistKey key type).has c = true := by
    rw [has, (data_persistKey key type s).1]
    exact h
  rw [evictKey]
  dsimp only
  rw [if_pos ((removeData_fst _).mpr ⟨c, hpersist⟩)]
  rfl

theorem isValid_executeEviction {now : Int64} {s : Stored env} (key : Bytes)
    (h : (∃ c, s.has c = true) ∨ (s.isValid now).1 = false) :
    ((s.executeEviction now key).isValid now).1 = false := by
  rw [isValid_fst] at h
  rw [executeEviction, getKeyType, validMetadata, isValid_fst]
  cases hmetadata : s.metadata with
  | none => simp [hmetadata]
  | some m =>
    dsimp only
    by_cases hexpired : m.isExpired now = true
    · rw [if_pos hexpired]
      rfl
    · rw [if_neg hexpired]
      rcases h with ⟨c, hc⟩ | h
      · simp [metadata_evictKey hc]
      · rw [hmetadata, Option.any_some, Bool.not_eq_false'] at h
        exact absurd h hexpired

end Stored

namespace Store

/-- The keys that `CheckAndEvict` evicts out of those that `SelectVictim` returns one after the
other; an empty key means that there is none left. -/
def chosen (victims : List Bytes) : List Bytes := (victims.take 100).takeWhile fun key => key ≠ []

def evictOne (now : Int64) (db : Store env) (victim : Bytes) : Store env :=
  db.modify victim (Stored.executeEviction now victim)

def checkAndEvict (now : Int64) (victims : List Bytes) (db : Store env) : Store env :=
  (chosen victims).foldl (evictOne now) db

/-- The writes of `extend`, with any way to evict keys. -/
def extendWith {α : Type} (evictions : Store env → Store env) (c : Container)
    (new : Value env.toValueTypes c)
    (edit : Value env.toValueTypes c → α × Value env.toValueTypes c) (persists : α → Bool)
    (key : Bytes) (db : Store env) : α × Store env :=
  let (value, s) := (db key).orCreate c new
  let (result, value) := edit value
  let db := evictions (db.modify key fun _ => s)
  let db := db.modify key fun s => if s.has c then s.put c value else s
  (result, if persists result then db.modify key (Stored.persistInMode key c.keyType) else db)

theorem extend_eq_extendWith {α : Type} (c : Container) (new : Value env.toValueTypes c)
    (edit : Value env.toValueTypes c → α × Value env.toValueTypes c) (persists : α → Bool)
    (key : Bytes) (victims : List (Bytes × KeyType)) (db : Store env) :
    db.extend c new edit persists key victims =
      db.extendWith (fun db => db.evict victims) c new edit persists key := rfl

section

variable {now : Int64} {key : Bytes} {victims : List Bytes} {db : Store env}

theorem evictOne_of_ne {victim : Bytes} (h : key ≠ victim) : db.evictOne now victim key = db key :=
  modify_of_ne h ..

theorem foldl_evictOne_of_not_mem (h : key ∉ victims) :
    victims.foldl (evictOne now) db key = db key := by
  induction victims generalizing db with
  | nil => rfl
  | cons victim victims ih =>
    rw [List.mem_cons, not_or] at h
    rw [List.foldl_cons, ih h.2, evictOne_of_ne h.1]

theorem isValid_foldl_evictOne (h : ((db key).isValid now).1 = false) :
    ((victims.foldl (evictOne now) db key).isValid now).1 = false := by
  induction victims generalizing db with
  | nil => exact h
  | cons victim victims ih =>
    refine ih ?_
    by_cases hvictim : key = victim
    · subst hvictim
      rw [evictOne, modify_self]
      exact isValid_executeEviction key (.inr h)
    · rwa [evictOne_of_ne hvictim]

theorem isValid_foldl_evictOne_of_mem (hmem : key ∈ victims) {c : Container}
    (h : (db key).has c = true) :
    ((victims.foldl (evictOne now) db key).isValid now).1 = false := by
  induction victims generalizing db with
  | nil => cases hmem
  | cons victim victims ih =>
    by_cases hvictim : key = victim
    · subst hvictim
      rw [List.foldl_cons]
      refine isValid_foldl_evictOne ?_
      rw [evictOne, modify_self]
      exact isValid_executeEviction key (.inl ⟨c, h⟩)
    · refine ih ((List.mem_cons.mp hmem).resolve_left hvictim) ?_
      rwa [evictOne_of_ne hvictim]

variable {α : Type} {c : Container} {new : Value env.toValueTypes c}
  {edit : Value env.toValueTypes c → α × Value env.toValueTypes c} {persists : α → Bool}

theorem isValid_orCreate (now : Int64) (s : Stored env) (c : Container)
    (new : Value env.toValueTypes c) :
    ((s.orCreate c new).2.isValid now).1 = (!s.has c || (s.isValid now).1) := by
  rw [Stored.orCreate, Stored.has]
  split
  · next value hdata => rw [hdata]; rfl
  · next hdata => rw [hdata]; rfl

/-- With the container, which is a new one if there was none. -/
def created (c : Container) (new : Value env.toValueTypes c) (key : Bytes) (db : Store env) :
    Store env :=
  db.modify key fun _ => ((db key).orCreate c new).2

theorem extendWith_self (evictions : Store env → Store env) :
    ((db.extendWith evictions c new edit persists key).2 key).metadata =
        (evictions (db.created c new key) key).metadata ∧
      ((db.extendWith evictions c new edit persists key).2 key).data =
        (if (evictions (db.created c new key) key).has c then
          (evictions (db.created c new key) key).put c (edit (((db key).data c).getD new)).2
        else evictions (db.created c new key) key).data := by
  rw [← orCreate_fst, extendWith]
  dsimp only
  split
  · rw [modify_self, modify_self]
    refine ⟨(data_persistInMode ..).2.trans ?_, (data_persistInMode ..).1⟩
    show Stored.metadata (if _ then _ else _) = _
    split <;> rfl
  · rw [modify_self]
    refine ⟨?_, rfl⟩
    show Stored.metadata (if _ then _ else _) = _
    split <;> rfl

theorem isValid_write (now : Int64) (victims : List Bytes) (new : Value env.toValueTypes c)
    (edit : Value env.toValueTypes c → α × Value env.toValueTypes c) (persists : α → Bool)
    (key : Bytes) (db : Store env) :
    (((db.extendWith (checkAndEvict now victims) c new edit persists key).2 key).isValid
        now).1 = true ↔
      key ∉ chosen victims ∧ ((db key).has c = false ∨ ((db key).isValid now).1 = true) := by
  have hcreated : (db.created c new key) key = ((db key).orCreate c new).2 := modify_self ..
  rw [isValid_fst, (extendWith_self _).1, ← isValid_fst, checkAndEvict]
  by_cases hmem : key ∈ chosen victims
  · rw [isValid_foldl_evictOne_of_mem hmem (c := c) (by rw [hcreated, has_orCreate])]
    exact iff_of_false (by decide) fun h => h.1 hmem
  · rw [foldl_evictOne_of_not_mem hmem, hcreated, isValid_orCreate, and_iff_right hmem,
      Bool.or_eq_true, Bool.not_eq_true']

theorem data_write (h : key ∉ chosen victims) :
    ((db.extendWith (checkAndEvict now victims) c new edit persists key).2 key).data c =
      some (edit (((db key).data c).getD new)).2 := by
  have hcreated : (db.created c new key) key = ((db key).orCreate c new).2 := modify_self ..
  rw [(extendWith_self _).2, checkAndEvict, foldl_evictOne_of_not_mem h, hcreated,
    has_orCreate, if_pos rfl, data_put]

theorem added_iff {edit : Value env.toValueTypes c → Bool × Value env.toValueTypes c}
    {persists : Bool → Bool} {β : Type} {missing found : β} {answer : Value env.toValueTypes c → β}
    (hmissing : missing ≠ found) (hfound : ∀ value, (edit value).1 = true →
      answer (edit value).2 = found) :
    ((db.extendWith (checkAndEvict now victims) c new edit persists key).1 = true →
      (((db.extendWith (checkAndEvict now victims) c new edit persists key).2 key).checkedRead c
        missing answer now).1 = found) ↔
      (edit (((db key).data c).getD new)).1 = false ∨
        key ∉ chosen victims ∧ ((db key).has c = false ∨ ((db key).isValid now).1 = true) := by
  have hadded : (db.extendWith (checkAndEvict now victims) c new edit persists key).1 =
      (edit (((db key).data c).getD new)).1 := by
    rw [← orCreate_fst]
    rfl
  rw [hadded, ← isValid_write now victims new edit persists key db]
  cases hedit : (edit (((db key).data c).getD new)).1 with
  | false => exact iff_of_true (fun h => absurd h (by decide)) (.inl rfl)
  | true =>
    rw [or_iff_right (by decide)]
    constructor
    · intro hread
      by_contra hvalid
      have hmissed := hread rfl
      rw [checkedRead_of_not_valid (Bool.eq_false_iff.mpr hvalid)] at hmissed
      exact hmissing hmissed
    · intro hvalid _
      rw [checkedRead]
      dsimp only
      rw [hvalid, if_pos rfl, data_isValid,
        data_write ((isValid_write now victims new edit persists key db).mp hvalid).1]
      exact hfound _ hedit

end

/-! ### The three writes -/

inductive ElementWrite where
  | sAdd (member : Bytes)
  | hSet (field value : Bytes)
  | zAdd (score : Double) (member : Bytes)

namespace ElementWrite

def container : ElementWrite → Container
  | .sAdd _ => .sets
  | .hSet .. => .hashes
  | .zAdd .. => .zsets

/-- Whether the element was added.  `victims` are the keys that are selected meanwhile. -/
def run (now : Int64) (victims : List Bytes) (key : Bytes) (db : Store env) :
    ElementWrite → Bool × Store env
  | .sAdd member => db.extendWith (checkAndEvict now victims) .sets DashSet.empty
      (fun set : DashSet => (!set.contains member, set.insert member)) id key
  | .hSet field value => db.extendWith (checkAndEvict now victims) .hashes (∅ : DashMap Bytes)
      (fun hash : DashMap Bytes => (decide (field ∉ hash), hash.insert field value)) id key
  | .zAdd score member => db.extendWith (checkAndEvict now victims) .zsets (∅ : DashMap Double)
      (zsetAdd env member score) (fun _ => false) key

/-- `SIsMember`, `HGet` or `ZScore` finds the element. -/
def Found (now : Int64) (s : Stored env) : ElementWrite → Prop
  | .sAdd member => (s.sIsMember member now).1 = true
  | .hSet field value => (s.hGet field now).1 = some value
  | .zAdd score member => (s.zScore member now).1 = some score

/-- The element is in the container, whether the key is valid or not. -/
def Present (s : Stored env) : ElementWrite → Prop
  | .sAdd member => ∃ set : DashSet, s.data .sets = some set ∧ set.contains member = true
  | .hSet field _ => ∃ hash : DashMap Bytes, s.data .hashes = some hash ∧ field ∈ hash
  | .zAdd _ member => ∃ zset : DashMap Double, s.data .zsets = some zset ∧ member ∈ zset

theorem zsetAdd_fst (member : Bytes) (score : Double) (zset : DashMap Double) :
    (zsetAdd env member score zset).1 = false ↔ member ∈ zset := by
  rw [zsetAdd, ← AList.lookup_isSome]
  cases AList.lookup member zset <;> simp

theorem lookup_zsetAdd {member : Bytes} {score : Double} {zset : DashMap Double}
    (h : (zsetAdd env member score zset).1 = true) :
    (zsetAdd env member score zset).2.lookup member = some score := by
  rw [zsetAdd] at h ⊢
  split at h
  · exact AList.lookup_insert zset
  · cases h

theorem getD_iff {α : Type} {o : Option α} {new : α} {p : α → Prop} (hnew : ¬ p new) :
    p (o.getD new) ↔ ∃ value, o = some value ∧ p value := by
  cases o with
  | none => exact iff_of_false hnew (by simp)
  | some value => simp

/-- An element that was reported as added is found, unless the key was evicted meanwhile, or the
container was there and the key was not valid. -/
theorem visible_iff (now : Int64) (victims : List Bytes) (key : Bytes) (db : Store env)
    (write : ElementWrite) :
    ((write.run now victims key db).1 = true →
        write.Found now ((write.run now victims key db).2 key)) ↔
      write.Present (db key) ∨ key ∉ chosen victims ∧
        ((db key).has write.container = false ∨ ((db key).isValid now).1 = true) := by
  cases write with
  | sAdd member =>
    refine (added_iff Bool.false_ne_true fun set _ => ?_).trans (or_congr_left ?_)
    · exact List.contains_iff_mem.mpr (List.mem_insert_self ..)
    · dsimp only
      rw [Bool.not_eq_false']
      exact getD_iff (p := fun set : DashSet => set.contains member = true) Bool.false_ne_true
  | hSet field value =>
    refine (added_iff (Option.some_ne_none value).symm fun hash _ => ?_).trans (or_congr_left ?_)
    · exact AList.lookup_insert hash
    · dsimp only
      rw [decide_eq_false_iff_not, not_not]
      exact getD_iff (p := fun hash : DashMap Bytes => field ∈ hash) (AList.notMem_empty field)
  | zAdd score member =>
    refine (added_iff (Option.some_ne_none score).symm fun zset => lookup_zsetAdd).trans
      (or_congr_left ?_)
    refine (zsetAdd_fst member score _).trans ?_
    exact getD_iff (p := fun zset : DashMap Double => member ∈ zset) (AList.notMem_empty member)

/-- The set is created and evicted before the member is inserted.  The other set is there, but its
key is expired. -/
theorem not_visible_sAdd :
    ((sAdd [109]).run 5 [[107]] [107] (empty : Store simpleDatabase)).1 = true ∧
      ¬ (sAdd [109]).Found 5
        (((sAdd [109]).run 5 [[107]] [107] (empty : Store simpleDatabase)).2 [107]) ∧
    let db : Store simpleDatabase := empty.modify [107] fun s =>
      (((s.put .sets DashSet.empty).registerKey .kSet).setExpireMs 3).2
    ((sAdd [109]).run 5 [] [107] db).1 = true ∧
      ¬ (sAdd [109]).Found 5 (((sAdd [109]).run 5 [] [107] db).2 [107]) := by
  unfold Found
  decide

end ElementWrite

end Store
