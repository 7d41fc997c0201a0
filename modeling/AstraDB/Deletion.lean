/-
What `Del` leaves behind.

`Del` removes the key from the first map that has it, and stops there.  RocksDB loses the
key only in the mode that writes everything to RocksDB, and only if some map had it.

* `Store.delCompletes_iff` — when nothing is found under a deleted key.
-/
import AstraDB.OneType

open Option Container

namespace Stored

variable {env : DatabaseEnv}

structure FindsNothing (now : Int64) (s : Stored env) : Prop where
  get : s.get.1 = none
  hGet : ∀ field, (s.hGet field now).1 = none
  hGetAll : (s.hGetAll now).1 = []
  sMembers : (s.sMembers now).1 = []
  zRange : ∀ start stop reverse withScores, (s.zRange start stop reverse withScores now).1 = []
  lRange : ∀ start stop, (s.lRange start stop now).1 = []
  getStream : s.getStream = none
  vecGet : s.vecGet.1 = none
  jsonGet : ∀ path, s.jsonGet path = none
  isValid : (s.isValid now).1 = false

/-- A value that shows nothing when it is listed. -/
def Shows (env : DatabaseEnv) : (c : Container) × Value env.toValueTypes c → Prop
  | ⟨.hashes, hash⟩ => AList.entries (β := fun _ => Bytes) hash ≠ []
  | ⟨.sets, set⟩ => DashSet.members set ≠ []
  | _ => False

/-- What the reads that do not look at the metadata see: the maps without a check, and
RocksDB. -/
structure Blank (s : Stored env) : Prop where
  data : ∀ c ∈ [Container.strings, .streams, .vectors, .jsons], s.has c = false
  string : env.rocksdbAdapter → s.rocksdb.bind env.deserializeString = none
  vector : env.rocksdbAdapter → s.rocksdb.bind env.deserializeVector = none
  loaded : env.rocksdbMode → env.rocksdbAdapter → ∀ c ∈ [Container.hashes, .sets],
    s.has c = false → ∀ value, s.rocksdb.bind (recovered env) = some ⟨c, value⟩ →
      ¬ Shows env ⟨c, value⟩

variable {α : Type} {now : Int64} {s : Stored env}

section

variable (h : (s.isValid now).1 = false)
include h

theorem checkedRead_of_not_valid (c : Container) (missing : α)
    (answer : Value env.toValueTypes c → α) : (s.checkedRead c missing answer now).1 = missing := by
  rw [checkedRead]
  dsimp only
  rw [h]
  rfl

theorem checkedRead_loadFromRocksDB {c : Container}
    (hc : s.has c = false) (missing : α) (answer : Value env.toValueTypes c → α) :
    (s.loadFromRocksDB.checkedRead c missing answer now).1 = missing ↔
      (env.rocksdbAdapter → ∀ value, s.rocksdb.bind (recovered env) = some ⟨c, value⟩ →
        answer value = missing) := by
  rw [loadFromRocksDB]
  split
  · next hadapter =>
    split
    · next hnone =>
      rw [hnone]
      exact ⟨fun _ _ _ hvalue => absurd hvalue.symm (some_ne_none _),
        fun _ => checkedRead_of_not_valid h ..⟩
    · next c' value hfound =>
      rw [hfound, checkedRead,
        show (s.load c' (some value)).isValid now = (true, s.load c' (some value)) from rfl]
      by_cases hc' : c' = c
      · subst hc'
        have hdata : (s.load c' (some value)).data c' = some value := s.data_put c' value
        dsimp only
        rw [hdata]
        refine ⟨fun hanswer _ value' hvalue' => ?_, fun hanswer => hanswer hadapter value rfl⟩
        cases hvalue'
        exact hanswer
      · have hdata : (s.load c' (some value)).data c = none :=
          (Function.update_of_ne (Ne.symm hc') _ _).trans (has_eq_false.mp hc)
        dsimp only
        rw [hdata]
        refine ⟨fun _ _ value' hvalue' => ?_, fun _ => rfl⟩
        cases hvalue'
        exact absurd rfl hc'
  · next hadapter =>
    exact ⟨fun _ h => absurd h hadapter, fun _ => checkedRead_of_not_valid h ..⟩

theorem checkedRead_loadInMode (c : Container) (missing : α) (answer : Value env.toValueTypes c → α)
    : ((s.loadInMode c).checkedRead c missing answer now).1 = missing ↔
      (env.rocksdbMode → env.rocksdbAdapter → s.has c = false → ∀ value,
        s.rocksdb.bind (recovered env) = some ⟨c, value⟩ → answer value = missing) := by
  rw [loadInMode]
  split
  · next hmode =>
    rw [Bool.and_eq_true_iff, Bool.not_eq_true'] at hmode
    rw [checkedRead_loadFromRocksDB h hmode.2]
    exact ⟨fun hread _ hadapter _ => hread hadapter, fun hread hadapter =>
      hread hmode.1 hadapter hmode.2⟩
  · next hmode =>
    refine ⟨fun _ hon _ hhas => ?_, fun _ => checkedRead_of_not_valid h ..⟩
    rw [hon, hhas] at hmode
    exact absurd rfl hmode

end

theorem readThrough_eq_none {c : Container}
    {deserialize : Bytes → Option (Value env.toValueTypes c)} :
    (s.readThrough c deserialize).1 = none ↔
      s.has c = false ∧ (env.rocksdbAdapter → s.rocksdb.bind deserialize = none) := by
  rw [readThrough, has]
  split
  · next value hvalue => simp [hvalue]
  · next hnone =>
    rw [hnone]
    split
    · next hadapter => simp [hadapter]
    · next hadapter => simp [hadapter]

theorem jsonGet_eq_none : (∀ path, s.jsonGet path = none) ↔ s.has .jsons = false := by
  rw [has_eq_false]
  refine ⟨fun h => ?_, fun h path => ?_⟩
  · -- the whole document has a text
    have hroot := h (ascii "$")
    rw [jsonGet, bind_eq_none_iff] at hroot
    exact eq_none_iff_forall_ne_some.mpr fun doc hdoc => nomatch hroot doc hdoc
  · rw [jsonGet, h]
    rfl

theorem findsNothing_iff : FindsNothing now s ↔ (s.isValid now).1 = false ∧ Blank s := by
  constructor
  · intro h
    have hget := readThrough_eq_none.mp h.get
    have hvecGet := readThrough_eq_none.mp h.vecGet
    have hhash := (checkedRead_loadInMode h.isValid _ _ _).mp h.hGetAll
    have hset := (checkedRead_loadInMode h.isValid _ _ _).mp h.sMembers
    refine ⟨h.isValid, ?_, hget.2, hvecGet.2, ?_⟩
    · intro c hc
      simp only [List.mem_cons, List.not_mem_nil, or_false] at hc
      obtain rfl | rfl | rfl | rfl := hc
      · exact hget.1
      · exact has_eq_false.mpr h.getStream
      · exact hvecGet.1
      · exact jsonGet_eq_none.mp h.jsonGet
    · intro hmode hadapter c hc hhas value hvalue
      simp only [List.mem_cons, List.not_mem_nil, or_false] at hc
      obtain rfl | rfl := hc
      · have hempty := hhash hmode hadapter hhas value hvalue
        exact not_not_intro (List.map_eq_nil_iff.mp hempty)
      · exact not_not_intro (hset hmode hadapter hhas value hvalue)
  · rintro ⟨hvalid, hdata, hstring, hvector, hloaded⟩
    exact {
      get := readThrough_eq_none.mpr ⟨hdata _ (by decide), hstring⟩
      hGet := fun field => checkedRead_of_not_valid hvalid ..
      hGetAll := (checkedRead_loadInMode hvalid _ _ _).mpr fun hmode hadapter hhas value hvalue =>
        List.map_eq_nil_iff.mpr
          (not_not.mp (hloaded hmode hadapter _ (by decide) hhas value hvalue))
      sMembers := (checkedRead_loadInMode hvalid _ _ _).mpr fun hmode hadapter hhas value hvalue =>
        not_not.mp (hloaded hmode hadapter _ (by decide) hhas value hvalue)
      zRange := fun _ _ _ _ => checkedRead_of_not_valid hvalid ..
      lRange := fun _ _ => checkedRead_of_not_valid hvalid ..
      getStream := has_eq_false.mp (hdata .streams (by decide))
      vecGet := readThrough_eq_none.mpr ⟨hdata _ (by decide), hvector⟩
      jsonGet := jsonGet_eq_none.mpr (hdata _ (by decide))
      isValid := hvalid }

/-- A stream, a vector or a document is in the first map that has the key, and RocksDB has
nothing to be read or loses the key. -/
structure Removable (s : Stored env) : Prop where
  first : ∀ c ∈ [Container.streams, .vectors, .jsons], s.has c →
    Container.all.find? s.has = some c
  rocksdb : env.rocksdbAdapter → (env.rocksdbMode = true ∧ ∃ c, s.has c = true) ∨
    (s.rocksdb.bind env.deserializeString = none ∧ s.rocksdb.bind env.deserializeVector = none ∧
      (env.rocksdbMode → ∀ found, s.rocksdb.bind (recovered env) = some found →
        ¬ Shows env found))

theorem data_removeData (s : Stored env) (c : Container) :
    s.removeData.2.data c = if all.find? s.has = some c then none else s.data c := by
  rw [removeData]
  cases all.find? s.has with
  | none => exact (if_neg (some_ne_none c).symm).symm
  | some first =>
    by_cases h : first = c
    · subst h
      rw [if_pos rfl]
      exact Function.update_self first none s.data
    · rw [if_neg fun heq => h (Option.some.inj heq)]
      exact Function.update_of_ne (Ne.symm h) none s.data

theorem removeData_fst (s : Stored env) : s.removeData.1 = true ↔ ∃ c, s.has c = true := by
  rw [removeData]
  split
  · next hfind =>
    have hnone := List.find?_eq_none.mp hfind
    refine ⟨fun h => absurd h Bool.false_ne_true, fun h => ?_⟩
    obtain ⟨c, hc⟩ := h
    exact absurd hc (hnone c (mem_all c))
  · next c hfind => exact ⟨fun _ => ⟨c, List.find?_some hfind⟩, fun _ => rfl⟩

theorem rocksdb_removeData (s : Stored env) : s.removeData.2.rocksdb = s.rocksdb := by
  rw [removeData]
  split <;> rfl

theorem isValid_del (now : Int64) (s : Stored env) : (s.del.2.isValid now).1 = false := by
  rw [del]
  dsimp only
  split <;> rfl

theorem data_del (s : Stored env) (c : Container) :
    s.del.2.data c = if all.find? s.has = some c then none else s.data c := by
  rw [← data_removeData, del]
  dsimp only
  split <;> rfl

theorem has_del_eq_false {c : Container} :
    s.del.2.has c = false ↔ (s.has c = true → all.find? s.has = some c) := by
  rw [has_eq_false, data_del, ite_eq_left_iff, ← has_eq_false, ← Bool.not_eq_true, not_imp_not]

theorem rocksdb_del (s : Stored env) : s.del.2.rocksdb =
    if s.removeData.1 && env.rocksdbMode && env.rocksdbAdapter then none else s.rocksdb := by
  rw [del]
  dsimp only
  split
  · rfl
  · exact rocksdb_removeData s

theorem blank_del_iff : Blank s.del.2 ↔ Removable s := by
  constructor
  · rintro ⟨hdata, hstring, hvector, hloaded⟩
    refine ⟨fun c hc => has_del_eq_false.mp (hdata c (List.mem_cons_of_mem _ hc)),
      fun hadapter => ?_⟩
    · by_cases hremoved : env.rocksdbMode = true ∧ ∃ c, s.has c = true
      · exact .inl hremoved
      · have hkept : s.del.2.rocksdb = s.rocksdb := by
          rw [rocksdb_del, if_neg]
          rw [hadapter, Bool.and_true, Bool.and_eq_true_iff, removeData_fst, and_comm]
          exact hremoved
        rw [hkept] at hstring hvector hloaded
        refine .inr ⟨hstring hadapter, hvector hadapter, fun hmode found hfound hshows => ?_⟩
        -- no map has the key, so that the value is loaded
        have hnone : ∀ c, s.del.2.has c = false := fun c =>
          has_del_eq_false.mpr fun hhas => absurd ⟨hmode, c, hhas⟩ hremoved
        obtain ⟨c, value⟩ := found
        have hc : c ∈ [hashes, .sets] := by
          cases c <;> first | exact hshows.elim | decide
        exact hloaded hmode hadapter c hc (hnone c) value hfound hshows
  · rintro ⟨hfirst, hrocksdb⟩
    have hread : env.rocksdbAdapter → s.del.2.rocksdb = none ∨ s.del.2.rocksdb = s.rocksdb ∧
        s.rocksdb.bind env.deserializeString = none ∧ s.rocksdb.bind env.deserializeVector = none ∧
        (env.rocksdbMode → ∀ found, s.rocksdb.bind (recovered env) = some found →
          ¬ Shows env found) := by
      intro hadapter
      rw [rocksdb_del]
      split
      · exact .inl rfl
      · next hkept =>
        obtain ⟨hmode, hhas⟩ | hunreadable := hrocksdb hadapter
        · rw [hadapter, hmode, (removeData_fst s).mpr hhas] at hkept
          exact absurd rfl hkept
        · exact .inr ⟨rfl, hunreadable⟩
    refine ⟨fun c hc => ?_, fun hadapter => ?_, fun hadapter => ?_, fun hmode hadapter => ?_⟩
    · obtain rfl | hc := List.mem_cons.mp hc
      · -- strings are looked at first
        exact has_del_eq_false.mpr List.find?_cons_of_pos
      · exact has_del_eq_false.mpr (hfirst c hc)
    · obtain hnone | ⟨hkept, hstring, -, -⟩ := hread hadapter
      · rw [hnone, bind_none]
      · rw [hkept, hstring]
    · obtain hnone | ⟨hkept, -, hvector, -⟩ := hread hadapter
      · rw [hnone, bind_none]
      · rw [hkept, hvector]
    · intro c _ _ value hvalue
      obtain hnone | ⟨hkept, -, -, hshows⟩ := hread hadapter
      · rw [hnone, bind_none] at hvalue
        exact absurd hvalue.symm (some_ne_none _)
      · exact hshows hmode _ (hkept ▸ hvalue)

end Stored

namespace Store

open Runs

variable {env : DatabaseEnv}

theorem del_self (key : Bytes) (db : Store env) : (db.del key).2 key = (db key).del.2 :=
  db.modify_self key fun s => s.del.2

theorem del_of_ne {other key : Bytes} (h : other ≠ key) (db : Store env) :
    (db.del key).2 other = db other := modify_of_ne h db fun s => s.del.2

/-- Nothing is found under the key, and the other keys are as they were. -/
structure DelCompletes (db : Store env) (key : Bytes) : Prop where
  findsNothing : ∀ now, ((db.del key).2 key).FindsNothing now
  others : ∀ other, other ≠ key → (db.del key).2 other = db other

/-- When `Del` is complete. -/
theorem delCompletes_iff (db : Store env) (key : Bytes) :
    DelCompletes db key ↔ (db key).Removable := by
  rw [← Stored.blank_del_iff, ← del_self]
  refine ⟨fun h => (Stored.findsNothing_iff.mp (h.findsNothing 0)).2, fun h => ⟨fun now => ?_, ?_⟩⟩
  · refine Stored.findsNothing_iff.mpr ⟨?_, h⟩
    rw [del_self]
    exact Stored.isValid_del now (db key)
  · exact fun other hother => del_of_ne hother db

/-- A stream that was there before the string. -/
theorem not_delCompletes :
    ¬ DelCompletes (after Call.run (empty : Store simpleDatabase)
      [.getOrCreateStream (ascii "k"), .set (ascii "k") (ascii "v") []]) (ascii "k") := by
  intro h
  have hstream := (h.findsNothing 0).getStream
  cases hstream

end Store
