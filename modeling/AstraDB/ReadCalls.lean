/-
What reads leave behind.

The methods of `Database` that only answer a question may still drop the metadata of an expired
key, and load a value from RocksDB.  A database is looked at through the contents of its maps,
and through the types and deadlines of the keys that are not expired.

* `Access.run_cases` — a read keeps what is seen of a key, or loads a value;
* `Access.foldl_same_iff` — several reads keep what is seen only if each of them does;
* `unchanged_runCalls_iff` — the same for the reads of several keys.
-/
import AstraDB.AofReplay

open List Stored

namespace ReadOnly

/-! ### What is seen of a database -/

/-- What a value has in it, without the order of members. -/
def Content (T : ValueTypes) : Container → Type
  | .strings => Bytes
  | .hashes => Bytes → Option Bytes
  | .sets => Bytes → Bool
  | .zsets => Bytes → Option Double
  | .lists => List Bytes
  | .streams => T.Stream
  | .vectors => T.VectorEntry
  | .jsons => T.Json

def content {T : ValueTypes} : (c : Container) → Value T c → Content T c
  | .strings => id
  | .hashes => fun hash : DashMap Bytes => fun field => hash.lookup field
  | .sets => fun set : DashSet => set.contains
  | .zsets => fun zset : DashMap Double => fun member => zset.lookup member
  | .lists => id
  | .streams => id
  | .vectors => id
  | .jsons => id

variable {env : DatabaseEnv}

def contents (s : Stored env) (c : Container) : Option (Content env.toValueTypes c) :=
  (s.data c).map (content c)

/-- The type and the deadline of a key that is not expired. -/
def signature (now : Int64) (s : Stored env) : Option (KeyType × Option Int64) :=
  (s.validMetadata now).1.map fun m => (m.type, m.expireTimeMs)

/-- The values, the type and the deadline are the same. -/
structure Same (now : Int64) (s s' : Stored env) : Prop where
  contents : contents s' = contents s
  signature : signature now s' = signature now s

/-- The keys, their values, types and deadlines are as they were. -/
def Unchanged (now : Int64) (db db' : Store env) : Prop := ∀ key, Same now (db key) (db' key)

theorem Same.refl (now : Int64) (s : Stored env) : Same now s s := ⟨rfl, rfl⟩

variable {now : Int64} {s : Stored env} {c : Container}

theorem Same.trans {s' s'' : Stored env} (h : Same now s s') (h' : Same now s' s'') :
    Same now s s'' :=
  ⟨h'.contents.trans h.contents, h'.signature.trans h.signature⟩

theorem signature_eq (now : Int64) (s : Stored env) :
    signature now s = s.metadata.bind fun m =>
      if m.isExpired now then none else some (m.type, m.expireTimeMs) := by
  unfold signature validMetadata
  cases s.metadata with
  | none => rfl
  | some m =>
    dsimp only [Option.bind_some]
    split <;> rfl

theorem signature_congr {s' : Stored env} (h : s'.metadata = s.metadata) :
    signature now s' = signature now s := by rw [signature_eq, signature_eq, h]

theorem signature_incrementKeyVersion (now : Int64) (s : Stored env) :
    signature now s.incrementKeyVersion = signature now s := by
  rw [signature_eq, signature_eq, incrementKeyVersion]
  cases s.metadata <;> rfl

theorem contents_eq_none_iff :
    contents s c = none ↔ s.data c = none := Option.map_eq_none_iff

/-! ### The reads -/

inductive Access
  | get
  | vecGet
  /-- `HGetAll` and `SMembers`, which load a value in the mode for that -/
  | load (c : Container)
  /-- those that look at the metadata first -/
  | isValid
  /-- those that only look -/
  | look
  deriving DecidableEq, Repr

namespace Access

def run (now : Int64) (s : Stored env) : Access → Stored env
  | get => s.get.2
  | vecGet => s.vecGet.2
  | load c => ((s.loadInMode c).isValid now).2
  | isValid => (s.isValid now).2
  | look => s

/-- Nothing is loaded, or what is there already. -/
def Quiet (now : Int64) (s : Stored env) : Access → Prop
  | get => s.Settled .strings env.deserializeString
  | vecGet => s.Settled .vectors env.deserializeVector
  | load c => env.rocksdbMode = true → env.rocksdbAdapter = true → s.data c = none →
    ∀ found, s.rocksdb.bind (Stored.recovered env) = some found →
      contents s found.1 = some (content found.1 found.2) ∧
        signature now s = some (found.1.keyType, none)
  | isValid => True
  | look => True

end Access

/-! ### One read -/

theorem same_isValid (now : Int64) (s : Stored env) : Same now s (s.isValid now).2 := by
  have hcases : s.isValid now = ((s.isValid now).1, s) ∨
      s.isValid now = (false, s.unregisterKey) ∧ (s.validMetadata now).1 = none := by
    unfold isValid validMetadata
    cases s.metadata with
    | none => exact .inl rfl
    | some m =>
      dsimp only
      split
      · exact .inr ⟨rfl, rfl⟩
      · exact .inl rfl
  rcases hcases with h | ⟨h, hnone⟩
  · rw [h]
    exact Same.refl now s
  · rw [h]
    refine ⟨rfl, ?_⟩
    rw [signature, signature, hnone]
    rfl

theorem signature_load (now : Int64) (s : Stored env) (c : Container)
    (value : Value env.toValueTypes c) :
    signature now (s.load c (some value)) = some (c.keyType, none) := rfl

theorem contents_load_self (s : Stored env) (c : Container) (value : Value env.toValueTypes c) :
    contents (s.load c (some value)) c = some (content c value) :=
  congrArg (Option.map (content c)) (s.data_put c value)

theorem contents_load_of_ne {c' : Container} (h : c' ≠ c) (s : Stored env)
    (value : Value env.toValueTypes c) : contents (s.load c (some value)) c' = contents s c' :=
  congrArg (Option.map (content c')) (s.data_put_of_ne h value)

theorem same_load {value : Value env.toValueTypes c}
    (hcontent : contents s c = some (content c value))
    (hsignature : signature now s = some (c.keyType, none)) :
    Same now s (s.load c (some value)) := by
  refine ⟨funext fun c' => ?_, hsignature.symm⟩
  by_cases h : c' = c
  · subst h
    rw [contents_load_self, hcontent]
  · exact contents_load_of_ne h s value

theorem readThrough_snd_cases (c : Container)
    (deserialize : Bytes → Option (Value env.toValueTypes c)) (s : Stored env) :
    (s.Settled c deserialize ∧ (s.readThrough c deserialize).2 = s) ∨
      (¬ s.Settled c deserialize ∧ s.data c = none ∧
        ∃ value, (s.readThrough c deserialize).2 = s.load c (some value)) := by
  by_cases hsettled : s.Settled c deserialize
  · exact .inl ⟨hsettled, readThrough_snd hsettled⟩
  · have hnone : s.data c = none := by
      by_contra hdata
      exact hsettled fun _ h => absurd h hdata
    refine .inr ⟨hsettled, hnone, ?_⟩
    rcases readThrough_of_none hnone deserialize with h | ⟨value, h⟩
    · refine absurd (fun hadapter _ => ?_) hsettled
      have hfst := congrArg Prod.fst h
      unfold readThrough at hfst
      rw [hnone, hadapter] at hfst
      exact hfst
    · exact ⟨value, congrArg Prod.snd h⟩

theorem loadInMode_cases (c : Container) (s : Stored env) :
    (s.loadInMode c = s ∧ ¬ (env.rocksdbMode = true ∧ env.rocksdbAdapter = true ∧
      s.data c = none ∧ s.rocksdb.bind (recovered env) ≠ none)) ∨
      (env.rocksdbMode = true ∧ env.rocksdbAdapter = true ∧ s.data c = none ∧
        ∃ found, s.rocksdb.bind (recovered env) = some found ∧
          s.loadInMode c = s.load found.1 (some found.2)) := by
  by_cases hload : env.rocksdbMode = true ∧ env.rocksdbAdapter = true ∧ s.data c = none ∧
      s.rocksdb.bind (recovered env) ≠ none
  · obtain ⟨hmode, hadapter, hdata, hne⟩ := hload
    obtain ⟨found, hfound⟩ := Option.ne_none_iff_exists'.mp hne
    refine .inr ⟨hmode, hadapter, hdata, found, hfound, ?_⟩
    rw [loadInMode, hmode, has, hdata, loadFromRocksDB, hadapter, hfound]
    rfl
  · refine .inl ⟨loadInMode_eq fun hmode hadapter hdata => ?_, hload⟩
    by_contra hne
    exact hload ⟨hmode, hadapter, hdata, hne⟩

namespace Access

/-- What RocksDB has is not what is seen. -/
def Stale (now : Int64) (s : Stored env) (c : Container) (value : Value env.toValueTypes c) :
    Prop :=
  s.rocksdb.bind (Stored.recovered env) = some ⟨c, value⟩ ∧
    ¬ (contents s c = some (content c value) ∧ signature now s = some (c.keyType, none))

theorem readThrough_same (now : Int64) (c : Container)
    (deserialize : Bytes → Option (Value env.toValueTypes c)) (s : Stored env) :
    (s.Settled c deserialize ∧ Same now s (s.readThrough c deserialize).2) ∨
      (¬ s.Settled c deserialize ∧ ∃ c' value,
        Same now (s.load c' (some value)) (s.readThrough c deserialize).2 ∧
          (s.data c' = none ∨ Stale now s c' value)) := by
  rcases readThrough_snd_cases c deserialize s with ⟨h, hsame⟩ | ⟨h, hnone, value, hload⟩
  · rw [hsame]
    exact .inl ⟨h, Same.refl now s⟩
  · rw [hload]
    exact .inr ⟨h, c, value, Same.refl now _, .inl hnone⟩

theorem run_cases (now : Int64) (s : Stored env) (access : Access) :
    (access.Quiet now s ∧ Same now s (access.run now s)) ∨
      (¬ access.Quiet now s ∧ ∃ c value, Same now (s.load c (some value)) (access.run now s) ∧
        (s.data c = none ∨ Stale now s c value)) := by
  cases access with
  | get => exact readThrough_same now .strings env.deserializeString s
  | vecGet => exact readThrough_same now .vectors env.deserializeVector s
  | load c =>
    have hvalid := same_isValid now (s.loadInMode c)
    rcases loadInMode_cases c s with ⟨hsame, hnone⟩ | ⟨hmode, hadapter, hdata, found, hfound, hload⟩
    · refine .inl ⟨fun hmode hadapter hdata found hfound => ?_, ?_⟩
      · refine absurd ⟨hmode, hadapter, hdata, ?_⟩ hnone
        rw [hfound]
        exact Option.some_ne_none found
      · rw [hsame] at hvalid
        exact (congrArg (fun s' => Same now s (s'.isValid now).2) hsame).mpr hvalid
    · rw [hload] at hvalid
      have hrun : Same now (s.load found.1 (some found.2)) ((Access.load c).run now s) := by
        change Same now _ ((s.loadInMode c).isValid now).2
        rw [hload]
        exact hvalid
      by_cases hquiet : contents s found.1 = some (content found.1 found.2) ∧
          signature now s = some (found.1.keyType, none)
      · refine .inl ⟨fun _ _ _ found' hfound' => ?_, (same_load hquiet.1 hquiet.2).trans hrun⟩
        rw [Option.some.inj (hfound'.symm.trans hfound)]
        exact hquiet
      · refine .inr ⟨fun h => hquiet (h hmode hadapter hdata found hfound), found.1, found.2, hrun,
          .inr ⟨hfound, hquiet⟩⟩
  | isValid => exact .inl ⟨trivial, same_isValid now s⟩
  | look => exact .inl ⟨trivial, Same.refl now s⟩

theorem rocksdb_readThrough (c : Container)
    (deserialize : Bytes → Option (Value env.toValueTypes c)) (s : Stored env) :
    (s.readThrough c deserialize).2.rocksdb = s.rocksdb := by
  rcases readThrough_snd_cases c deserialize s with ⟨-, h⟩ | ⟨-, -, value, h⟩
  · rw [h]
  · rw [h]
    rfl

theorem rocksdb_run (now : Int64) (s : Stored env) (access : Access) :
    (access.run now s).rocksdb = s.rocksdb := by
  cases access with
  | get => exact rocksdb_readThrough .strings env.deserializeString s
  | vecGet => exact rocksdb_readThrough .vectors env.deserializeVector s
  | load c =>
    rw [Access.run, isValid_snd]
    rcases loadInMode_cases c s with ⟨h, -⟩ | ⟨-, -, -, found, -, h⟩
    · rw [h]
    · rw [h]
      rfl
  | isValid => rw [Access.run, isValid_snd]
  | look => rfl

/-! ### Several reads of a key -/

theorem quiet_congr {now : Int64} {s s' : Stored env} (h : Same now s s')
    (hrocksdb : s'.rocksdb = s.rocksdb) (access : Access) :
    access.Quiet now s' ↔ access.Quiet now s := by
  have hnone : ∀ c, s'.data c = none ↔ s.data c = none := fun c => by
    rw [← contents_eq_none_iff, ← contents_eq_none_iff, h.contents]
  cases access with
  | get | vecGet => rw [Quiet, Quiet, Stored.Settled, Stored.Settled, hnone, hrocksdb]
  | load c => simp only [Quiet, hnone, hrocksdb, h.contents, h.signature]
  | isValid | look => exact Iff.rfl

/-- A value was loaded that was not there at first. -/
def Spoiled (now : Int64) (s s' : Stored env) : Prop :=
  (∃ c, s.data c = none ∧ s'.data c ≠ none) ∨
    ∃ c value, Stale now s c value ∧ contents s' c = some (content c value) ∧
      signature now s' = some (c.keyType, none)

theorem Spoiled.not_same {now : Int64} {s s' : Stored env} (h : Spoiled now s s') :
    ¬ Same now s s' := by
  intro hsame
  rcases h with ⟨c, hnone, hsome⟩ | ⟨c, value, hstale, hcontent, hsignature⟩
  · refine hsome (contents_eq_none_iff.mp ?_)
    rw [hsame.contents, contents_eq_none_iff, hnone]
  · exact hstale.2 ⟨hsame.contents ▸ hcontent, hsame.signature ▸ hsignature⟩

/-- What holds of a key that was read several times. -/
structure Reads (s s' : Stored env) : Prop where
  rocksdb : s'.rocksdb = s.rocksdb
  kept : ∀ c, s'.data c = none → s.data c = none

section

variable {now : Int64} {s s' : Stored env}

theorem data_eq_none_of_same (h : Same now s s') {c : Container} :
    s'.data c = none ↔ s.data c = none := by
  rw [← contents_eq_none_iff, ← contents_eq_none_iff, h.contents]

theorem data_load_ne_none (s : Stored env) (c : Container) (value : Value env.toValueTypes c) :
    (s.load c (some value)).data c ≠ none := by
  rw [ne_eq, ← contents_eq_none_iff, contents_load_self]
  exact Option.some_ne_none _

theorem data_load_eq_none {c c' : Container} {value : Value env.toValueTypes c}
    (h : (s.load c (some value)).data c' = none) : s.data c' = none := by
  by_cases hc : c' = c
  · subst hc
    exact absurd h (data_load_ne_none s c' value)
  · rw [← contents_eq_none_iff] at h ⊢
    rwa [contents_load_of_ne hc] at h

theorem Reads.run (h : Reads s s') (access : Access) : Reads s (access.run now s') := by
  refine ⟨(rocksdb_run now s' access).trans h.rocksdb, fun c hnone => h.kept c ?_⟩
  rcases run_cases now s' access with ⟨-, hsame⟩ | ⟨-, c', value, hload, -⟩
  · exact (data_eq_none_of_same hsame).mp hnone
  · exact data_load_eq_none ((data_eq_none_of_same hload).mp hnone)

theorem Spoiled.run (hs : Spoiled now s s') (h : Reads s s') (access : Access) :
    Spoiled now s (access.run now s') := by
  rcases run_cases now s' access with ⟨-, hsame⟩ | ⟨-, c, value, hload, hnew⟩
  · rcases hs with ⟨c, hnone, hsome⟩ | ⟨c, value, hstale, hcontent, hsignature⟩
    · exact .inl ⟨c, hnone, fun h => hsome ((data_eq_none_of_same hsame).mp h)⟩
    · refine .inr ⟨c, value, hstale, ?_, ?_⟩
      · rw [hsame.contents, hcontent]
      · rw [hsame.signature, hsignature]
  · have hdata : (access.run now s').data c ≠ none := fun h =>
      data_load_ne_none s' c value ((data_eq_none_of_same hload).mp h)
    rcases hnew with hnone | ⟨hfound, -⟩
    · exact .inl ⟨c, h.kept c hnone, hdata⟩
    · rcases hs with ⟨c', hnone, hsome⟩ | ⟨c', value', hstale, -, -⟩
      · refine .inl ⟨c', hnone, fun h => hsome ?_⟩
        exact data_load_eq_none ((data_eq_none_of_same hload).mp h)
      · -- RocksDB has one value only, which is loaded again
        rw [h.rocksdb] at hfound
        cases Option.some.inj (hfound.symm.trans hstale.1)
        refine .inr ⟨c, value, hstale, ?_, ?_⟩
        · rw [hload.contents, contents_load_self]
        · rw [hload.signature, signature_load]

theorem run_same (hs : Same now s s') (h : Reads s s') (access : Access) :
    (access.Quiet now s ∧ Same now s (access.run now s')) ∨
      (¬ access.Quiet now s ∧ Spoiled now s (access.run now s')) := by
  rw [← quiet_congr hs h.rocksdb access]
  rcases run_cases now s' access with ⟨hquiet, hsame⟩ | ⟨hquiet, c, value, hload, hnew⟩
  · exact .inl ⟨hquiet, hs.trans hsame⟩
  · refine .inr ⟨hquiet, ?_⟩
    rcases hnew with hnone | ⟨hfound, hstale⟩
    · refine .inl ⟨c, h.kept c hnone, fun h => ?_⟩
      exact data_load_ne_none s' c value ((data_eq_none_of_same hload).mp h)
    · refine .inr ⟨c, value, ⟨h.rocksdb ▸ hfound, ?_⟩, ?_, ?_⟩
      · rw [← hs.contents, ← hs.signature]
        exact hstale
      · rw [hload.contents, contents_load_self]
      · rw [hload.signature, signature_load]

theorem Spoiled.foldl (hs : Spoiled now s s') (h : Reads s s') (accesses : List Access) :
    Spoiled now s (accesses.foldl (Access.run now) s') := by
  induction accesses generalizing s' with
  | nil => exact hs
  | cons access accesses ih => exact ih (hs.run h access) (h.run access)

theorem foldl_same_iff (hs : Same now s s') (h : Reads s s') (accesses : List Access) :
    Same now s (accesses.foldl (run now) s') ↔ ∀ access ∈ accesses, access.Quiet now s := by
  induction accesses generalizing s' with
  | nil => simp [hs]
  | cons access accesses ih =>
    rw [foldl_cons, forall_mem_cons]
    rcases run_same hs h access with ⟨hquiet, hsame⟩ | ⟨hquiet, hspoiled⟩
    · rw [ih hsame (h.run access), and_iff_right hquiet]
    · exact iff_of_false ((hspoiled.foldl (h.run access) accesses).not_same)
        fun hall => hquiet hall.1

end

end Access

/-! ### The reads of several keys -/

/-- The reads of a command, one after the other. -/
def runCalls (now : Int64) (calls : List (Access × Bytes)) (db : Store env) : Store env :=
  calls.foldl (fun db call => db.modify call.2 fun s => call.1.run now s) db

theorem runCalls_apply (now : Int64) (calls : List (Access × Bytes)) (db : Store env)
    (key : Bytes) :
    runCalls now calls db key =
      ((calls.filter fun call => call.2 = key).map Prod.fst).foldl (Access.run now) (db key) := by
  induction calls generalizing db with
  | nil => rfl
  | cons call calls ih =>
    rw [runCalls, foldl_cons, filter_cons]
    refine (ih _).trans ?_
    by_cases hkey : call.2 = key
    · rw [if_pos (decide_eq_true hkey), map_cons, foldl_cons, ← hkey, Store.modify_self]
    · rw [if_neg (mt of_decide_eq_true hkey), Store.modify_of_ne (Ne.symm hkey)]

theorem unchanged_runCalls_iff (now : Int64) (calls : List (Access × Bytes)) (db : Store env) :
    Unchanged now db (runCalls now calls db) ↔
      ∀ call ∈ calls, call.1.Quiet now (db call.2) := by
  have hkey : ∀ key, Same now (db key) (runCalls now calls db key) ↔
      ∀ access ∈ (calls.filter fun call => call.2 = key).map Prod.fst,
        access.Quiet now (db key) := by
    intro key
    rw [runCalls_apply]
    exact Access.foldl_same_iff (Same.refl now _) ⟨rfl, fun _ => id⟩ _
  rw [Unchanged, forall_congr' hkey]
  constructor
  · intro h call hcall
    refine h call.2 call.1 (mem_map.mpr ⟨call, mem_filter.mpr ⟨hcall, ?_⟩, rfl⟩)
    exact decide_eq_true rfl
  · intro h key access haccess
    obtain ⟨call, hcall, rfl⟩ := mem_map.mp haccess
    obtain ⟨hmem, hkey⟩ := mem_filter.mp hcall
    rw [← of_decide_eq_true hkey]
    exact h call hmem

end ReadOnly
