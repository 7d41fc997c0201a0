/-
One type per key.

No write looks at the maps of the other types, `GetOrCreateStream` registers a stream as a
string, and `Clear` leaves three maps as they are.

* `Store.oneType_of_along` — in the runs that avoid this, each key is in one map at most, and
  its metadata has the type of that map.
-/
import AstraDB.Database
import AstraDB.Runs

open Runs

namespace Stored

variable {env : DatabaseEnv}

/-- The key is in one map at most, and has its type. -/
structure OneType (s : Stored env) : Prop where
  unique : ∀ {c c' : Container}, s.has c → s.has c' → c = c'
  type : ∀ {c : Container}, s.has c → s.metadata.map (·.type) = some c.keyType

/-- The key is in no other map. -/
def OnlyIn (c : Container) (s : Stored env) : Prop := ∀ c', s.has c' → c' = c

instance (c : Container) (s : Stored env) : Decidable (OnlyIn c s) :=
  decidable_of_iff (∀ c' ∈ Container.all, s.has c' → c' = c)
    ⟨fun h c' => h c' (Container.mem_all c'), fun h c' _ => h c'⟩

theorem oneType_empty : OneType (empty : Stored env) :=
  ⟨fun h => absurd h Bool.false_ne_true, fun h => absurd h Bool.false_ne_true⟩

variable {s : Stored env} {c : Container}

theorem OneType.congr {s' : Stored env} (h : OneType s) (hhas : ∀ c, s'.has c = s.has c)
    (htype : s'.metadata.map (·.type) = s.metadata.map (·.type)) : OneType s' where
  unique hc hc' := h.unique (hhas _ ▸ hc) (hhas _ ▸ hc')
  type hc := htype.trans (h.type (hhas _ ▸ hc))

theorem oneType_register (h : OnlyIn c s) (value : Value env.toValueTypes c) :
    OneType ((s.put c value).registerKey c.keyType) := by
  have honly : ∀ c', ((s.put c value).registerKey c.keyType).has c' → c' = c := by
    intro c' hc'
    have hc' : (s.put c value).has c' = true := hc'
    rw [has_put, Bool.or_eq_true_iff, decide_eq_true_iff] at hc'
    exact hc'.elim id (h c')
  refine ⟨fun hc hc' => (honly _ hc).trans (honly _ hc').symm, fun hc => ?_⟩
  rw [honly _ hc]
  rfl

theorem OneType.put (h : OneType s) (hc : s.has c) (value : Value env.toValueTypes c) :
    OneType (s.put c value) := by
  refine h.congr (fun c' => ?_) rfl
  rw [has_put]
  by_cases hc' : c' = c
  · rw [hc', hc, Bool.or_true]
  · rw [decide_eq_false hc', Bool.false_or]

theorem OneType.persistKey (h : OneType s) (key : Bytes) (type : KeyType) :
    OneType (s.persistKey key type) := by
  obtain ⟨hdata, hmetadata⟩ := data_persistKey key type s
  refine h.congr (fun c => ?_) (by rw [hmetadata])
  rw [has, has, hdata]

theorem OneType.persistInMode (h : OneType s) (key : Bytes) (type : KeyType) :
    OneType (s.persistInMode key type) := by
  rw [Stored.persistInMode]
  split
  · exact h.persistKey key type
  · exact h

theorem not_has_removeData (h : ∀ {c c' : Container}, s.has c → s.has c' → c = c')
    (c : Container) : s.removeData.2.has c = false := by
  rw [removeData]
  split
  · next hfind =>
    have := List.find?_eq_none.mp hfind c (Container.mem_all c)
    simpa using this
  · next c' hfind =>
    have hc' : s.has c' = true := List.find?_some hfind
    rw [has_remove]
    by_cases hc : s.has c = true
    · rw [h hc hc', decide_eq_true rfl]
      rfl
    · rw [Bool.not_eq_true] at hc
      rw [hc, Bool.and_false]

theorem oneType_of_not_has (h : ∀ c, s.has c = false) : OneType s :=
  ⟨fun {c _} hc => absurd hc (by rw [h c]; decide), fun {c} hc => absurd hc (by rw [h c]; decide)⟩

theorem OneType.evictKey (h : OneType s) (key : Bytes) (type : KeyType) :
    OneType (s.evictKey key type) := by
  have hnot := not_has_removeData (h.persistKey key type).unique
  rw [Stored.evictKey]
  dsimp only
  split <;> exact oneType_of_not_has hnot

theorem OneType.del (h : OneType s) : OneType s.del.2 := by
  have hnot := not_has_removeData h.unique
  rw [Stored.del]
  dsimp only
  split <;> exact oneType_of_not_has hnot

theorem OneType.insertString (h : OneType s) (honly : OnlyIn .strings s) (value : Bytes) :
    OneType (s.insertString value) := by
  rw [Stored.insertString]
  split
  · next hhas =>
    refine (h.put hhas value).congr (fun c => rfl) ?_
    rw [incrementKeyVersion]
    dsimp only
    rw [Option.map_map]
    rfl
  · exact oneType_register honly value

theorem OneType.orCreate (h : OneType s) (honly : OnlyIn c s) (new : Value env.toValueTypes c) :
    OneType (s.orCreate c new).2 := by
  rw [Stored.orCreate]
  split
  · exact h
  · exact oneType_register honly new

theorem has_of_has_vecDel (h : s.vecDel.2.has c) : s.has c := by
  rw [vecDel] at h
  split at h
  · -- neither the metadata nor RocksDB matters
    have h : (s.remove .vectors).has c = true := by
      dsimp only at h
      split at h <;> exact h
    rw [has_remove, Bool.and_eq_true_iff] at h
    exact h.2
  · exact h

theorem OneType.vecSet (h : OneType s) {key : Bytes} {fits added : Bool} {entry : env.VectorEntry}
    (honly : fits → OnlyIn .vectors s) : OneType (s.vecSet key fits added entry).2 := by
  cases fits with
  | false => exact h
  | true =>
    have hput : OneType ((s.vecDel.2.put .vectors entry).registerKey .kVector) :=
      oneType_register (fun c hc => honly rfl c (has_of_has_vecDel hc)) entry
    cases added with
    | false => exact hput
    | true => exact hput.persistInMode key .kVector

theorem OneType.jsonSet (h : OneType s) {key jsonStr : Bytes}
    (honly : (env.parseJson jsonStr).isSome → OnlyIn .jsons s) :
    OneType (s.jsonSet key jsonStr).2 := by
  rw [Stored.jsonSet]
  split
  · exact h
  · next doc hdoc =>
    rw [hdoc] at honly
    exact (oneType_register (honly rfl) doc).persistInMode key .kJson

end Stored

namespace Store

variable {env : DatabaseEnv}

inductive Call (env : DatabaseEnv)
  | set (key value : Bytes) (victims : List (Bytes × KeyType))
  | hSet (key field value : Bytes) (victims : List (Bytes × KeyType))
  | sAdd (key member : Bytes) (victims : List (Bytes × KeyType))
  | zAdd (key : Bytes) (score : Double) (member : Bytes) (victims : List (Bytes × KeyType))
  | lPush (key value : Bytes) (victims : List (Bytes × KeyType))
  | rPush (key value : Bytes) (victims : List (Bytes × KeyType))
  | getOrCreateStream (key : Bytes)
  | vecSet (key : Bytes) (fits added : Bool) (entry : env.VectorEntry)
  | jsonSet (key jsonStr : Bytes)
  | del (key : Bytes)
  | clear

def Call.run (db : Store env) : Call env → Store env
  | .set key value victims => db.set key value victims
  | .hSet key field value victims => (db.hSet key field value victims).2
  | .sAdd key member victims => (db.sAdd key member victims).2
  | .zAdd key score member victims => (db.zAdd key score member victims).2
  | .lPush key value victims => (db.lPush key value victims).2
  | .rPush key value victims => (db.rPush key value victims).2
  | .getOrCreateStream key => db.modify key fun s => s.getOrCreateStream.2
  | .vecSet key fits added entry => db.modify key fun s => (s.vecSet key fits added entry).2
  | .jsonSet key jsonStr => db.modify key fun s => (s.jsonSet key jsonStr).2
  | .del key => (db.del key).2
  | .clear => db.clear

/-- A value is written under a key that has none of another type, no stream is created, and
nothing is cleared while there are streams, vectors or documents. -/
def Call.Keeps (db : Store env) : Call env → Prop
  | .set key _ _ => (db key).OnlyIn .strings
  | .hSet key _ _ _ => (db key).OnlyIn .hashes
  | .sAdd key _ _ => (db key).OnlyIn .sets
  | .zAdd key _ _ _ => (db key).OnlyIn .zsets
  | .lPush key _ _ => (db key).OnlyIn .lists
  | .rPush key _ _ => (db key).OnlyIn .lists
  | .getOrCreateStream key => (db key).has .streams
  | .vecSet key fits _ _ => fits → (db key).OnlyIn .vectors
  | .jsonSet key jsonStr => (env.parseJson jsonStr).isSome → (db key).OnlyIn .jsons
  | .del _ => True
  | .clear => ∀ key c, (db key).has c → c ∈ cleared

def OneType (db : Store env) : Prop := ∀ key, (db key).OneType

variable {db : Store env}

theorem OneType.set (h : OneType db) {key : Bytes} (honly : (db key).OnlyIn .strings)
    (value : Bytes) (victims : List (Bytes × KeyType)) : OneType (db.set key value victims) :=
  have h := forall_evict Stored.OneType.evictKey
    (forall_modify h key _ ((h key).insertString honly value)) victims
  forall_modify h key _ ((h key).persistInMode key .kString)

theorem OneType.extend {α : Type} (h : OneType db) {key : Bytes} {c : Container}
    (honly : (db key).OnlyIn c) (new : Value env.toValueTypes c)
    (edit : Value env.toValueTypes c → α × Value env.toValueTypes c) (persists : α → Bool)
    (victims : List (Bytes × KeyType)) : OneType (db.extend c new edit persists key victims).2 := by
  have hevict := forall_evict Stored.OneType.evictKey
    (forall_modify h key (fun _ => _) ((h key).orCreate honly new)) victims
  have hedit := forall_modify hevict key
    (fun s => if s.has c then s.put c (edit ((db key).orCreate c new).1).2 else s) (by
      split
      · next hhas => exact (hevict key).put hhas _
      · exact hevict key)
  rw [Store.extend]
  dsimp only
  split
  · exact forall_modify hedit key _ ((hedit key).persistInMode key c.keyType)
  · exact hedit

theorem OneType.clear (h : ∀ key c, (db key).has c → c ∈ cleared) : OneType db.clear := by
  intro key
  refine Stored.oneType_of_not_has fun c => ?_
  rw [Store.clear, Stored.has]
  dsimp only
  split
  · rfl
  · next hc =>
    have hnot : ¬ (db key).has c = true := fun hhas => hc (List.contains_iff_mem.mpr (h key c hhas))
    exact Bool.eq_false_iff.mpr hnot

theorem OneType.run (h : OneType db) {call : Call env} (hcall : call.Keeps db) :
    OneType (call.run db) := by
  cases call with
  | set key value victims => exact h.set hcall value victims
  | hSet | sAdd | zAdd | lPush | rPush => exact h.extend hcall _ _ _ _
  | getOrCreateStream key =>
    obtain ⟨stream, hstream⟩ := Option.isSome_iff_exists.mp hcall
    refine forall_modify h key (fun s => s.getOrCreateStream.2) ?_
    rw [Stored.getOrCreateStream, hstream]
    exact h key
  | vecSet key fits added entry =>
    exact forall_modify h key (fun s => (s.vecSet key fits added entry).2) ((h key).vecSet hcall)
  | jsonSet key jsonStr =>
    exact forall_modify h key (fun s => (s.jsonSet key jsonStr).2) ((h key).jsonSet hcall)
  | del key => exact forall_modify h key (fun s => s.del.2) (h key).del
  | clear => exact OneType.clear hcall

theorem oneType_of_along {calls done : List (Call env)}
    (hcalls : Along Call.run Call.Keeps empty calls) (hdone : done <+: calls) :
    OneType (after Call.run empty done) := by
  obtain ⟨later, rfl⟩ := hdone
  exact after_invariant OneType (fun _ _ hcall h => h.run hcall) hcalls.left
    fun _ => Stored.oneType_empty

theorem oneType_of_along_three :
    OneType (after Call.run (empty : Store simpleDatabase)
      [.set (ascii "a") (ascii "1") [], .del (ascii "a"),
        .hSet (ascii "a") (ascii "f") (ascii "v") []]) := by
  have hset : (empty (ascii "a") : Stored simpleDatabase).OnlyIn .strings := by decide
  have hhSet : (after Call.run (empty : Store simpleDatabase)
      [.set (ascii "a") (ascii "1") [], .del (ascii "a")] (ascii "a")).OnlyIn .hashes := by decide
  have hcalls : Along Call.run Call.Keeps (empty : Store simpleDatabase)
      [.set (ascii "a") (ascii "1") [], .del (ascii "a"),
        .hSet (ascii "a") (ascii "f") (ascii "v") []] := ⟨hset, trivial, hhSet, trivial⟩
  exact oneType_of_along hcalls List.prefix_rfl

/-- A string and a hash under one key; a stream; and a document that `Clear` leaves. -/
theorem not_oneType :
    ¬ OneType (after Call.run (empty : Store simpleDatabase)
      [.set (ascii "a") (ascii "1") [], .hSet (ascii "a") (ascii "f") (ascii "v") []]) ∧
    ¬ OneType (after Call.run (empty : Store simpleDatabase) [.getOrCreateStream (ascii "s")]) ∧
    ¬ OneType (after Call.run (empty : Store simpleDatabase)
      [.jsonSet (ascii "d") (ascii "1"), .clear]) := by
  refine ⟨fun h => ?_, fun h => ?_, fun h => ?_⟩
  · have hunique : Container.strings = .hashes := (h (ascii "a")).unique (by decide) (by decide)
    cases hunique
  · have htype : some KeyType.kString = some (Container.keyType .streams) :=
      (h (ascii "s")).type (by decide)
    cases htype
  · have htype : none = some (Container.keyType .jsons) := (h (ascii "d")).type (by decide)
    cases htype

end Store
