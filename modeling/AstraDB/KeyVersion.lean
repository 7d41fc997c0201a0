/-
The versions of keys.

`RegisterKey` and `IncrementKeyVersion` count a version up; a key without metadata has the
version zero.  A version is only of use to tell that a key was changed if every change counts,
and if the count does not come back to where it was.

* `Stored.StampedAll.version` — changes of this kind leave another version;
* `Store.stamped_call` — the calls of the methods that are of this kind;
* `Store.same_of_getKeyVersion_eq` — after such calls, the same version is the same value.
-/
import AstraDB.OneType
import Mathlib.Logic.Relation

namespace Stored

variable {env : DatabaseEnv}

/-- The same value, of the same type, or none. -/
def Same (s s' : Stored env) : Prop :=
  s'.data = s.data ∧ s'.metadata.map (·.type) = s.metadata.map (·.type)

/-- A change that leaves another version than `v`, or neither the version nor the value nor the
type: a key is registered, its version is counted up, it is removed, or only its deadline and
what RocksDB has of it change. -/
inductive Stamped (v : UInt64) (s s' : Stored env) : Prop
  | registers (type : KeyType) (hmetadata : s'.metadata = (s.registerKey type).metadata)
      (hversion : s.getKeyVersion + 1 ≠ v)
  | increments (hregistered : s.metadata.isSome)
      (hmetadata : s'.metadata = s.incrementKeyVersion.metadata)
      (hversion : s.getKeyVersion + 1 ≠ v)
  | unregisters (hmetadata : s'.metadata = none) (hversion : 0 ≠ v)
  | keeps (hdata : s'.data = s.data)
      (hmetadata : s'.metadata.map (fun m => (m.type, m.version)) =
        s.metadata.map fun m => (m.type, m.version))

variable {s s' : Stored env}

theorem getKeyVersion_registerKey (type : KeyType) (s : Stored env) :
    (s.registerKey type).getKeyVersion = s.getKeyVersion + 1 := by
  rw [getKeyVersion, getKeyVersion, registerKey]
  cases s.metadata <;> rfl

theorem getKeyVersion_incrementKeyVersion (h : s.metadata.isSome) :
    s.incrementKeyVersion.getKeyVersion = s.getKeyVersion + 1 := by
  obtain ⟨m, hm⟩ := Option.isSome_iff_exists.mp h
  rw [getKeyVersion, getKeyVersion, incrementKeyVersion, hm]
  rfl

theorem Stamped.version {v : UInt64} (h : Stamped v s s') :
    s'.getKeyVersion ≠ v ∨ Same s s' ∧ s'.getKeyVersion = s.getKeyVersion := by
  cases h with
  | registers type hmetadata hversion =>
    refine .inl ?_
    rwa [getKeyVersion, hmetadata, ← getKeyVersion, getKeyVersion_registerKey]
  | increments hregistered hmetadata hversion =>
    refine .inl ?_
    rwa [getKeyVersion, hmetadata, ← getKeyVersion, getKeyVersion_incrementKeyVersion hregistered]
  | unregisters hmetadata hversion =>
    refine .inl ?_
    rwa [getKeyVersion, hmetadata]
  | keeps hdata hmetadata =>
    have hparts : ∀ {α : Type} (f : KeyType × UInt64 → α),
        s'.metadata.map (fun m => f (m.type, m.version)) =
          s.metadata.map fun m => f (m.type, m.version) := by
      intro α f
      have hmapped := congrArg (Option.map f) hmetadata
      rwa [Option.map_map, Option.map_map] at hmapped
    exact .inr ⟨⟨hdata, hparts Prod.fst⟩, congrArg (·.getD 0) (hparts Prod.snd)⟩

/-- One such change after another. -/
abbrev StampedAll (v : UInt64) : Stored env → Stored env → Prop :=
  Relation.ReflTransGen (Stamped v)

theorem StampedAll.version {v : UInt64} (h : StampedAll v s s') :
    s'.getKeyVersion ≠ v ∨ Same s s' ∧ s'.getKeyVersion = s.getKeyVersion := by
  induction h with
  | refl => exact .inr ⟨⟨rfl, rfl⟩, rfl⟩
  | tail _ hstep ih =>
    obtain hne | ⟨⟨hdata, htype⟩, hversion⟩ := hstep.version
    · exact .inl hne
    · rw [hversion]
      refine ih.imp id fun hsame => ?_
      exact ⟨⟨hdata.trans hsame.1.1, htype.trans hsame.1.2⟩, hsame.2⟩

end Stored

open Runs

namespace Store

variable {env : DatabaseEnv} {v : UInt64} {key : Bytes} {db : Store env}

/-- A write that creates a value and does not evict the key; other keys are free. -/
def Creates (v : UInt64) (key : Bytes) (db : Store env) (c : Container) (written : Bytes)
    (victims : List (Bytes × KeyType)) : Prop :=
  key ∉ victims.map Prod.fst ∧
    (written = key → (db key).data c = none ∧ (db key).getKeyVersion + 1 ≠ v)

/-- The calls that change the key in such a way only.  The writes that change a value in place
are not among them, nor is `Set` for a string without metadata. -/
def Call.Stamps (v : UInt64) (key : Bytes) (db : Store env) : Call env → Prop
  | .set written _ victims => key ∉ victims.map Prod.fst ∧
      (written = key → ((db key).has .strings → (db key).metadata.isSome) ∧
        (db key).getKeyVersion + 1 ≠ v)
  | .hSet written _ _ victims => Creates v key db .hashes written victims
  | .sAdd written _ victims => Creates v key db .sets written victims
  | .zAdd written _ _ victims => Creates v key db .zsets written victims
  | .lPush written _ victims => Creates v key db .lists written victims
  | .rPush written _ victims => Creates v key db .lists written victims
  | .getOrCreateStream written =>
    written = key → (db key).data .streams = none → (db key).getKeyVersion + 1 ≠ v
  | .vecSet written fits _ _ => written = key → fits →
      if (db key).has .vectors then 0 ≠ v ∧ 1 ≠ v else (db key).getKeyVersion + 1 ≠ v
  | .jsonSet written jsonStr =>
    written = key → (env.parseJson jsonStr).isSome → (db key).getKeyVersion + 1 ≠ v
  | .del written => written = key → 0 ≠ v
  | .clear => 0 ≠ v

variable {written : Bytes}

theorem stampedAll_modify {f : Stored env → Stored env}
    (h : written = key → (db key).StampedAll v (f (db key))) :
    (db key).StampedAll v (db.modify written f key) := by
  by_cases hkey : written = key
  · rw [hkey, modify_self]
    exact h hkey
  · rw [modify_of_ne (Ne.symm hkey)]

theorem stampedAll_set {value : Bytes} {victims : List (Bytes × KeyType)}
    (h : (Call.set written value victims).Stamps v key db) :
    (db key).StampedAll v (db.set written value victims key) := by
  obtain ⟨hvictims, h⟩ := h
  by_cases hkey : written = key
  · subst hkey
    obtain ⟨hregistered, hversion⟩ := h rfl
    refine .single ?_
    have hmetadata := (set_self hvictims value db).2
    rw [Stored.insertString] at hmetadata
    split at hmetadata
    · next hstring => exact .increments (hregistered hstring) hmetadata hversion
    · exact .registers .kString hmetadata hversion
  · rw [set_of_ne (Ne.symm hkey) hvictims]

theorem stampedAll_extend {α : Type} {c : Container} {new : Value env.toValueTypes c}
    {edit : Value env.toValueTypes c → α × Value env.toValueTypes c} {persists : α → Bool}
    {victims : List (Bytes × KeyType)} (h : Creates v key db c written victims) :
    (db key).StampedAll v ((db.extend c new edit persists written victims).2 key) := by
  obtain ⟨hvictims, h⟩ := h
  by_cases hkey : written = key
  · subst hkey
    obtain ⟨hdata, hversion⟩ := h rfl
    refine .single (.registers c.keyType ?_ hversion)
    rw [(extend_self hvictims).2, Stored.orCreate, hdata]
    rfl
  · rw [extend_of_ne (Ne.symm hkey) hvictims]

theorem stampedAll_vecSet {s : Stored env} {fits added : Bool} {entry : env.VectorEntry}
    (h : fits → if s.has .vectors then 0 ≠ v ∧ 1 ≠ v else s.getKeyVersion + 1 ≠ v) :
    s.StampedAll v (s.vecSet key fits added entry).2 := by
  rw [Stored.vecSet]
  split
  · exact .refl
  · next hfits =>
    dsimp only
    have hmetadata : ∀ s' : Stored env, (if added then s'.persistInMode key .kVector else s').metadata
        = s'.metadata := by
      intro s'
      split
      · exact (Stored.data_persistInMode ..).2
      · rfl
    have h := h (by simpa using hfits)
    rw [Stored.vecDel]
    split at h
    · next hvector =>
      -- the old vector is removed with its metadata
      rw [if_pos hvector]
      have hremoved : s.Stamped v s.unregisterKey := .unregisters rfl h.1
      refine .tail (.single hremoved) (.registers .kVector ?_ h.2)
      rw [hmetadata]
      dsimp only
      split <;> rfl
    · next hvector =>
      rw [if_neg hvector]
      exact .single (.registers .kVector (hmetadata _) h)

theorem stamped_call {call : Call env} (h : call.Stamps v key db) :
    (db key).StampedAll v (call.run db key) := by
  cases call with
  | set written value victims => exact stampedAll_set h
  | hSet | sAdd | zAdd | lPush | rPush => exact stampedAll_extend h
  | getOrCreateStream written =>
    rw [Call.run]
    refine stampedAll_modify fun hkey => ?_
    rw [Stored.getOrCreateStream]
    split
    · exact .refl
    · next hdata => exact .single (.registers .kString rfl (h hkey hdata))
  | vecSet written fits added entry =>
    rw [Call.run]
    exact stampedAll_modify fun hkey => stampedAll_vecSet (h hkey)
  | jsonSet written jsonStr =>
    rw [Call.run]
    refine stampedAll_modify fun hkey => ?_
    rw [Stored.jsonSet]
    split
    · exact .refl
    · next doc hdoc =>
      refine .single (.registers .kJson ?_ (h hkey (by rw [hdoc]; rfl)))
      exact (Stored.data_persistInMode ..).2
  | del written =>
    rw [Call.run, del, onKey]
    dsimp only
    refine stampedAll_modify fun hkey => .single (.unregisters ?_ (h hkey))
    rw [Stored.del]
    dsimp only
    split <;> rfl
  | clear => exact .single (.unregisters rfl h)

/-- **Versions.**  A key that has the version `v` after any number of such calls had it before
them, and the same value. -/
theorem same_of_getKeyVersion_eq {calls : List (Call env)}
    (h : Along Call.run (Call.Stamps v key) db calls)
    (hversion : (after Call.run db calls key).getKeyVersion = v) :
    (db key).Same (after Call.run db calls key) ∧ (db key).getKeyVersion = v := by
  have hall : (db key).StampedAll v (after Call.run db calls key) :=
    after_invariant (fun db' => (db key).StampedAll v (db' key))
      (fun _ _ hcall hdb => hdb.trans (stamped_call hcall)) h .refl
  obtain hne | ⟨hsame, heq⟩ := hall.version
  · exact absurd hversion hne
  · exact ⟨hsame, heq.symm.trans hversion⟩

/-- Another key is written and deleted. -/
theorem same_of_getKeyVersion_eq_other :
    let db : Store simpleDatabase := empty.set (ascii "a") (ascii "1") []
    let db' := after Call.run db [.set (ascii "b") (ascii "2") [], .del (ascii "b")]
    (db (ascii "a")).Same (db' (ascii "a")) ∧ (db (ascii "a")).getKeyVersion = 1 :=
  have hne : ascii "b" ≠ ascii "a" := by decide
  same_of_getKeyVersion_eq
    ⟨⟨List.not_mem_nil, fun h => absurd h hne⟩, fun h => absurd h hne, trivial⟩ rfl

end Store
