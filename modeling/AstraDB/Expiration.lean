/-
Keys whose deadline has passed.

Expiry is lazy: most methods ask `IsValid` first, which removes the metadata of an expired key
but not its value.  Strings, streams, vectors and documents are read without asking, so is the
first key of an intersection or a difference, no write asks, and `GetAllKeys` lists what was
not asked for.

* `Store.observed_iff` — when such a key is treated as missing.
-/
import AstraDB.Deletion

open Stored List Store

namespace Stored

variable {env : DatabaseEnv}

/-- The metadata has the deadline, or was removed when it had passed. -/
def Due (deadline : Int64) (s : Stored env) : Prop :=
  ∀ m, s.metadata = some m → m.expireTimeMs = some deadline

/-- There is no metadata, no value that is read without asking for it, and no element in the
values that are written without asking for it. -/
structure Gone (s : Stored env) : Prop where
  metadata : s.metadata = none
  blank : Blank s
  hash : ∀ hash : DashMap Bytes, s.data .hashes = some hash → hash = ∅
  set : ∀ set : DashSet, s.data .sets = some set → set = DashSet.empty
  zset : ∀ zset : DashMap Double, s.data .zsets = some zset → zset = ∅
  list : ∀ list : List Bytes, s.data .lists = some list → list = []

theorem isValid_of_due {deadline now : Int64} {s : Stored env} (hdue : s.Due deadline)
    (hpos : 0 < deadline) (hnow : deadline < now) : (s.isValid now).1 = false := by
  rw [isValid_fst]
  cases hm : s.metadata with
  | none => rfl
  | some m =>
    rw [Option.any_some, KeyMetadata.isExpired, hdue m hm]
    exact congrArg (! ·) (decide_eq_true ⟨hpos, hnow⟩)

theorem isValid_isValid (now : Int64) (s : Stored env) :
    ((s.isValid now).2.isValid now).1 = (s.isValid now).1 := by
  cases hmetadata : s.metadata with
  | none => simp [isValid, validMetadata, hmetadata]
  | some m =>
    cases hexpired : m.isExpired now with
    | true => simp [isValid, validMetadata, hmetadata, hexpired, unregisterKey]
    | false => simp [isValid, validMetadata, hmetadata, hexpired]

end Stored

namespace Store

variable {env : DatabaseEnv}

def forget (key : Bytes) (db : Store env) : Store env := Function.update db key Stored.empty

/-- The reads answer as if the key were missing. -/
structure ReadsMissing (now : Int64) (key : Bytes) (db : Store env) : Prop where
  findsNothing : (db key).FindsNothing now
  checkedRead : ∀ {α : Type} (c : Container) (missing : α)
    (answer : Value env.toValueTypes c → α),
    ((db key).checkedRead c missing answer now).1 = missing
  getKeyType : ((db key).getKeyType now).1 = none
  getTtlMs : (db key).getTtlMs now = -2
  isListed : db.isListed key = false
  sInterLocal : ∀ keys, (db.sInterLocal keys now).1 = ((db.forget key).sInterLocal keys now).1
  sUnion : ∀ keys, (db.sUnion keys now).1 = ((db.forget key).sUnion keys now).1
  sDiff : ∀ keys, (db.sDiff keys now).1 = ((db.forget key).sDiff keys now).1
  zDiff : ∀ keys, (db.zDiff keys now).1 = ((db.forget key).zDiff keys now).1

/-- A write gives the same answer and the same value as without the key. -/
def StartsEmpty {α : Type} (c : Container) (key : Bytes) (write : Store env → α × Store env)
    (db : Store env) : Prop :=
  (write db).1 = (write (db.forget key)).1 ∧
    ((write db).2 key).data c = ((write (db.forget key)).2 key).data c

/-- The writes start from the empty value, unless memory pressure evicts it. -/
structure WritesFresh (key : Bytes) (db : Store env) (victims : List (Bytes × KeyType)) :
    Prop where
  hSet : ∀ field value, StartsEmpty .hashes key (Store.hSet key field value victims) db
  sAdd : ∀ member, StartsEmpty .sets key (Store.sAdd key member victims) db
  zAdd : ∀ score member, StartsEmpty .zsets key (Store.zAdd key score member victims) db
  lPush : ∀ value, StartsEmpty .lists key (Store.lPush key value victims) db
  append : ∀ value, StartsEmpty .strings key (Store.append key value victims) db
  incr : StartsEmpty .strings key (Store.incr key victims) db

def Observed (now : Int64) (key : Bytes) (db : Store env) : Prop :=
  db.ReadsMissing now key ∧ ∀ victims, key ∉ victims.map Prod.fst → db.WritesFresh key victims

/-- Stores that only differ in a key that is not valid in either. -/
structure Alike (now : Int64) (key : Bytes) (db db' : Store env) : Prop where
  others : ∀ other, other ≠ key → db other = db' other
  left : ((db key).isValid now).1 = false
  right : ((db' key).isValid now).1 = false

variable {now : Int64} {key : Bytes} {db db' : Store env} {α : Type} {c : Container}
  {victims : List (Bytes × KeyType)}

theorem alike_forget (h : ((db key).isValid now).1 = false) : Alike now key db (db.forget key) where
  others _ hother := (Function.update_of_ne hother _ _).symm
  left := h
  right := by
    rw [forget, Function.update_self]
    rfl

section

variable (h : Alike now key db db')
include h

theorem Alike.validRead (c : Container) (other : Bytes) :
    (db.validRead c other now).1 = (db'.validRead c other now).1 ∧
      Alike now key (db.validRead c other now).2 (db'.validRead c other now).2 := by
  rw [Store.validRead, Store.validRead, onKey, onKey]
  dsimp only
  simp only [checkedRead_snd]
  by_cases hother : other = key
  · subst hother
    refine ⟨?_, fun k hk => ?_, ?_, ?_⟩
    · rw [checkedRead_of_not_valid h.left, checkedRead_of_not_valid h.right]
    · rw [modify_of_ne hk, modify_of_ne hk, h.others k hk]
    · rw [modify_self, isValid_isValid, h.left]
    · rw [modify_self, isValid_isValid, h.right]
  · have hne : key ≠ other := Ne.symm hother
    refine ⟨?_, fun k hk => ?_, ?_, ?_⟩
    · rw [h.others other hother]
    · by_cases hk' : k = other
      · rw [hk', modify_self, modify_self, h.others other hother]
      · rw [modify_of_ne hk', modify_of_ne hk', h.others k hk]
    · rw [modify_of_ne hne, h.left]
    · rw [modify_of_ne hne, h.right]

theorem Alike.exists_validRead (c : Container) (other : Bytes) :
    ∃ value after after', db.validRead c other now = (value, after) ∧
      db'.validRead c other now = (value, after') ∧ Alike now key after after' := by
  obtain ⟨hvalue, halike⟩ := h.validRead c other
  exact ⟨_, _, (db'.validRead c other now).2, rfl, Prod.ext hvalue.symm rfl, halike⟩

theorem Alike.intersect (result keys : List Bytes) :
    (intersect now result keys db).1 = (intersect now result keys db').1 := by
  induction keys generalizing result db db' with
  | nil => rfl
  | cons other keys ih =>
    obtain ⟨value, after, after', hread, hread', halike⟩ := h.exists_validRead .sets other
    rw [intersect, intersect, hread, hread']
    cases value with
    | none => rfl
    | some set =>
      dsimp only
      split
      · rfl
      · exact ih halike _

theorem Alike.unite (result keys : List Bytes) :
    (unite now result keys db).1 = (unite now result keys db').1 := by
  induction keys generalizing result db db' with
  | nil => rfl
  | cons other keys ih =>
    obtain ⟨value, after, after', hread, hread', halike⟩ := h.exists_validRead .sets other
    rw [unite, unite, hread, hread']
    cases value <;> exact ih halike _

theorem Alike.subtract (c : Container) (members : Value env.toValueTypes c → List α)
    (name : α → Bytes) (result : List α) (keys : List Bytes) :
    (subtract c members name now result keys db).1 =
      (subtract c members name now result keys db').1 := by
  induction keys generalizing result db db' with
  | nil => rfl
  | cons other keys ih =>
    obtain ⟨value, after, after', hread, hread', halike⟩ := h.exists_validRead c other
    rw [subtract, subtract, hread, hread']
    cases value <;> exact ih halike _

end

theorem intersect_nil (now : Int64) (keys : List Bytes) (db : Store env) :
    (intersect now [] keys db).1 = [] := by
  cases keys with
  | nil => rfl
  | cons key keys =>
    rw [intersect]
    split <;> rfl

theorem subtract_nil (c : Container) (members : Value env.toValueTypes c → List α)
    (name : α → Bytes) (now : Int64) (keys : List Bytes) (db : Store env) :
    (subtract c members name now [] keys db).1 = [] := by
  induction keys generalizing db with
  | nil => rfl
  | cons key keys ih =>
    rw [subtract]
    split <;> exact ih _

theorem data_forget (key : Bytes) (db : Store env) (c : Container) :
    (db.forget key key).data c = none := by
  rw [forget, Function.update_self]
  rfl

theorem sInterLocal_forget (h : ((db key).isValid now).1 = false)
    (hset : ∀ set : DashSet, (db key).data .sets = some set → set = DashSet.empty)
    (keys : List Bytes) :
    (db.sInterLocal keys now).1 = ((db.forget key).sInterLocal keys now).1 := by
  cases keys with
  | nil => rfl
  | cons first keys =>
    rw [sInterLocal, sInterLocal]
    by_cases hfirst : first = key
    · rw [hfirst, data_forget]
      split
      · rfl
      · next set hdata =>
        rw [hset set hdata]
        exact intersect_nil now keys db
    · rw [← (alike_forget h).others first hfirst]
      split
      · rfl
      · exact (alike_forget h).intersect _ keys

theorem difference_forget (h : ((db key).isValid now).1 = false)
    {members : Value env.toValueTypes c → List α} (name : α → Bytes)
    (hempty : ∀ value, (db key).data c = some value → members value = []) (keys : List Bytes) :
    (db.difference c members name keys now).1 =
      ((db.forget key).difference c members name keys now).1 := by
  cases keys with
  | nil => rfl
  | cons first keys =>
    rw [difference, difference]
    by_cases hfirst : first = key
    · rw [hfirst, data_forget]
      split
      · rfl
      · next value hdata =>
        rw [hempty value hdata]
        exact subtract_nil c members name now keys db
    · rw [← (alike_forget h).others first hfirst]
      split
      · rfl
      · exact (alike_forget h).subtract c members name _ keys

theorem startsEmpty_extend {new : Value env.toValueTypes c}
    {edit : Value env.toValueTypes c → α × Value env.toValueTypes c} {persists : α → Bool}
    (h : key ∉ victims.map Prod.fst) :
    StartsEmpty c key (extend c new edit persists key victims) db ↔
      edit (((db key).data c).getD new) = edit new := by
  rw [StartsEmpty, extend_fst, extend_fst, data_extend h, data_extend h, data_forget,
    Option.getD_none, Option.some_inj, Prod.ext_iff]

theorem startsEmpty_of_new {new : Value env.toValueTypes c}
    {edit : Value env.toValueTypes c → α × Value env.toValueTypes c} {persists : α → Bool}
    (h : key ∉ victims.map Prod.fst) (hnew : ∀ value, (db key).data c = some value → value = new) :
    StartsEmpty c key (extend c new edit persists key victims) db := by
  rw [startsEmpty_extend h]
  cases hdata : (db key).data c with
  | none => rfl
  | some value => rw [Option.getD_some, hnew value hdata]

theorem startsEmpty_of_missing {write : Store env → α × Store env} (result : α) (value : Bytes)
    (h : ∀ db : Store env, (db key).get.1 = none →
      (write db).1 = result ∧ ((write db).2 key).data .strings = some value)
    (hget : (db key).get.1 = none) : StartsEmpty .strings key write db := by
  have hforget : (db.forget key key).get.1 = none := by
    rw [forget, Function.update_self]
    exact readThrough_eq_none.mpr ⟨rfl, fun _ => rfl⟩
  have hleft := h db hget
  have hright := h (db.forget key) hforget
  exact ⟨hleft.1.trans hright.1.symm, hleft.2.trans hright.2.symm⟩

section

variable (h : key ∉ victims.map Prod.fst) (hget : (db key).get.1 = none)
include h hget

theorem startsEmpty_append
    (value : Bytes) : StartsEmpty .strings key (append key value victims) db := by
  refine startsEmpty_of_missing value.length value (fun db' hnone => ?_) hget
  rw [append, onKey]
  dsimp only
  rw [hnone]
  exact ⟨rfl, data_set h _ _⟩

theorem startsEmpty_incr :
    StartsEmpty .strings key (incr key victims) db := by
  refine startsEmpty_of_missing (some 1) (env.strCat 1) (fun db' hnone => ?_) hget
  rw [incr, incrBy, onKey]
  dsimp only
  rw [hnone]
  exact ⟨rfl, data_set h _ _⟩

end

theorem eq_empty_of_notMem {β : Type} {map : DashMap β} (h : ∀ name, name ∉ map) : map = ∅ := by
  refine AList.ext ?_
  by_contra hentries
  obtain ⟨entry, hentry⟩ := exists_mem_of_ne_nil _ hentries
  exact h entry.1 (AList.mem_keys.mpr (mem_map_of_mem hentry))

theorem Observed.gone (h : db.Observed now key) : (db key).Gone := by
  obtain ⟨hreads, hwrites⟩ := h
  have hwrites := hwrites [] not_mem_nil
  refine ⟨?_, (findsNothing_iff.mp hreads.findsNothing).2, ?_, ?_, ?_, ?_⟩
  · exact Option.isNone_iff_eq_none.mp (Option.isSome_eq_false_iff.mp hreads.isListed)
  · intro hash hdata
    refine eq_empty_of_notMem fun field => ?_
    have hsame := (startsEmpty_extend not_mem_nil).mp (hwrites.hSet field [])
    rw [hdata] at hsame
    have hnew : decide (field ∉ hash) = decide (field ∉ (∅ : DashMap Bytes)) :=
      congrArg Prod.fst hsame
    exact (decide_eq_decide.mp hnew).mpr (AList.notMem_empty field)
  · intro set hdata
    have hnone : ∀ member, member ∉ set.members := by
      intro member
      have hsame := (startsEmpty_extend not_mem_nil).mp (hwrites.sAdd member)
      rw [hdata] at hsame
      have hnew : (!set.contains member) = true := congrArg Prod.fst hsame
      simpa [DashSet.contains] using hnew
    obtain ⟨members, hnodup⟩ := set
    obtain rfl : members = [] := eq_nil_iff_forall_not_mem.mpr hnone
    rfl
  · intro zset hdata
    refine eq_empty_of_notMem fun member => ?_
    have hsame := (startsEmpty_extend not_mem_nil).mp (hwrites.zAdd 0 member)
    rw [hdata] at hsame
    have hnew : (zsetAdd env member 0 zset).1 = true := congrArg Prod.fst hsame
    rw [zsetAdd] at hnew
    split at hnew
    · next hlookup => exact AList.lookup_eq_none.mp hlookup
    · cases hnew
  · intro list hdata
    have hsame := (startsEmpty_extend not_mem_nil).mp (hwrites.lPush [])
    rw [hdata] at hsame
    have hvalue : [] :: list = [[]] := congrArg Prod.snd hsame
    exact tail_eq_of_cons_eq hvalue

theorem observed_of_gone (hgone : (db key).Gone) (now : Int64) : db.Observed now key := by
  have hvalid : ((db key).isValid now).1 = false := by
    rw [Stored.isValid, Stored.validMetadata, hgone.metadata]
    rfl
  have hnothing : (db key).FindsNothing now := findsNothing_iff.mpr ⟨hvalid, hgone.blank⟩
  refine ⟨{
    findsNothing := hnothing
    checkedRead := fun c missing answer => checkedRead_of_not_valid hvalid c missing answer
    getKeyType := by rw [Stored.getKeyType, Stored.validMetadata, hgone.metadata]; rfl
    getTtlMs := by rw [Stored.getTtlMs, hgone.metadata]
    isListed := by rw [isListed, hgone.metadata]; rfl
    sInterLocal := sInterLocal_forget hvalid hgone.set
    sUnion := (alike_forget hvalid).unite []
    sDiff := difference_forget hvalid id fun set hset => by rw [hgone.set set hset]; rfl
    zDiff := difference_forget hvalid Prod.fst fun zset hzset => by
      rw [hgone.zset zset hzset, env.ranked_empty] }, fun victims hvictims => ?_⟩
  exact {
    hSet := fun _ _ => startsEmpty_of_new hvictims hgone.hash
    sAdd := fun _ => startsEmpty_of_new hvictims hgone.set
    zAdd := fun _ _ => startsEmpty_of_new hvictims hgone.zset
    lPush := fun _ => startsEmpty_of_new hvictims hgone.list
    append := startsEmpty_append hvictims hnothing.get
    incr := startsEmpty_incr hvictims hnothing.get }

/-- When an expired key is treated as missing; the methods that ask for the metadata always
do. -/
theorem observed_iff {deadline now : Int64} {key : Bytes} {db : Store env}
    (hdue : (db key).Due deadline) (hpos : 0 < deadline) (hnow : deadline < now) :
    (∀ (α : Type) (c : Container) (missing : α) (answer : Value env.toValueTypes c → α),
      ((db key).checkedRead c missing answer now).1 = missing) ∧
    (db.Observed now key ↔ (db key).Gone) :=
  ⟨fun _ => checkedRead_of_not_valid (isValid_of_due hdue hpos hnow),
    Observed.gone, fun hgone => observed_of_gone hgone now⟩

def expiringString : Store simpleDatabase :=
  (empty.set (ascii "k") (ascii "v") []).modify (ascii "k") fun s => (s.setExpireMs 5).2

def expiringSet : Store simpleDatabase :=
  (empty.sAdd (ascii "k") (ascii "m") []).2.modify (ascii "k") fun s => (s.setExpireMs 5).2

theorem due_expiringString : (expiringString (ascii "k")).Due 5 := by
  intro m hm
  cases hm
  rfl

theorem observed_iff_expiringString : ((expiringString (ascii "k")).lRange 0 (-1) 10).1 = [] ∧
    (expiringString.Observed 10 (ascii "k") ↔ (expiringString (ascii "k")).Gone) := by
  have hnow : (5 : Int64) < 10 := by decide
  have h := observed_iff due_expiringString (by decide) hnow
  exact ⟨h.1 _ _ _ _, h.2⟩

/-- The string is still read, and the set is still extended. -/
theorem not_observed :
    ¬ expiringString.Observed 10 (ascii "k") ∧ ¬ expiringSet.Observed 10 (ascii "k") := by
  refine ⟨fun h => ?_, fun h => ?_⟩
  · have hget := h.1.findsNothing.get
    cases hget
  · have hdata := ((h.2 [] not_mem_nil).sAdd (ascii "n")).2
    cases hdata

end Store
