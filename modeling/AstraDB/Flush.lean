/-
`FLUSHDB` and `FLUSHALL`.

Both run on the worker of the connection and clear its database only.  `Clear` forgets five of the
eight maps and the metadata: streams, vectors and documents stay, so does what RocksDB has, and
so do the indexes of the vectors and the deadlines of hash fields, which are elsewhere.

* `flushed_iff` — when nothing at all is left.
-/
import AstraDB.HashFields

open Store

namespace Flush

open HashFields

/-- A database with its `VectorIndexManager`: the ids that each index has. -/
structure Shard (env : DatabaseEnv) where
  db : Store env
  indexes : DashMap (List UInt64)

/-- The workers, and the deadlines of hash fields, which they share. -/
structure Server (env : DatabaseEnv) (n : ℕ) where
  shards : Fin n → Shard env
  expires : HashFieldExpireMap

variable {env : DatabaseEnv} {n : ℕ}

/-- `Database::Clear`, on the worker of the connection. -/
def Server.clear (server : Server env n) (here : Fin n) : Server env n :=
  { server with
    shards := Function.update server.shards here
      ⟨(server.shards here).db.clear, (server.shards here).indexes⟩ }

def handleFlushDb (here : Fin n) (server : Server env n) : CommandResult × Server env n :=
  (Aof.replyOk, server.clear here)

/-- No context overrides `GetDatabaseManager`, so there is no manager. -/
def handleFlushAll (here : Fin n) (server : Server env n) : CommandResult × Server env n :=
  (Aof.replyOk, server.clear here)

/-- No key of any worker is read, listed or extended, `VSEARCH` has no ids to answer with, and no
field has a deadline. -/
structure Flushed (now : Int64) (server : Server env n) : Prop where
  keys : ∀ worker key, (server.shards worker).db.Observed now key
  indexes : ∀ worker name ids, (server.shards worker).indexes.lookup name = some ids → ids = []
  fields : ∀ key field, deadlineOf server.expires key field = none

/-- RocksDB has nothing that a read without metadata would show. -/
structure Unread (s : Stored env) : Prop where
  string : env.rocksdbAdapter → s.rocksdb.bind env.deserializeString = none
  vector : env.rocksdbAdapter → s.rocksdb.bind env.deserializeVector = none
  loaded : env.rocksdbMode → env.rocksdbAdapter → ∀ c ∈ [Container.hashes, .sets], ∀ value,
    s.rocksdb.bind (Stored.recovered env) = some ⟨c, value⟩ → ¬ Stored.Shows env ⟨c, value⟩

theorem has_clear (db : Store env) (key : Bytes) (c : Container) :
    (db.clear key).has c = (!cleared.contains c && (db key).has c) := by
  rw [clear, Stored.has, Stored.has]
  dsimp only
  cases cleared.contains c with
  | true => rfl
  | false => rfl

theorem gone_clear_iff (db : Store env) (key : Bytes) : (db.clear key).Gone ↔
      (∀ c, cleared.contains c = false → (db key).has c = false) ∧ Unread (db key) := by
  have hcleared : ∀ c, cleared.contains c = true → (db.clear key).data c = none := by
    intro c hc
    rw [clear]
    exact if_pos hc
  constructor
  · intro h
    refine ⟨fun c hc => ?_, h.blank.string, h.blank.vector, fun hmode hadapter c hmem => ?_⟩
    · have hhas : (db.clear key).has c = false := by
        refine h.blank.data c ?_
        cases c <;> first | decide | cases hc
      rwa [has_clear, hc, Bool.not_false, Bool.true_and] at hhas
    · refine h.blank.loaded hmode hadapter c hmem ?_
      rw [Stored.has, hcleared c (by rcases List.mem_pair.mp hmem with rfl | rfl <;> decide)]
      rfl
  · rintro ⟨hothers, hunread⟩
    refine ⟨rfl, ⟨fun c _ => ?_, hunread.string, hunread.vector, fun hmode hadapter c hmem _ =>
      hunread.loaded hmode hadapter c hmem⟩, ?_, ?_, ?_, ?_⟩
    · rw [has_clear]
      cases hc : cleared.contains c with
      | true => rfl
      | false => rw [hothers c hc, Bool.and_false]
    all_goals
      intro value hdata
      exact absurd ((hcleared _ rfl).symm.trans hdata) (Option.some_ne_none value).symm

/-- Nothing is outside what `Clear` clears: not on another worker, not in another map, not in
RocksDB, not in the indexes and not among the deadlines of fields. -/
structure Reached (here : Fin n) (server : Server env n) : Prop where
  others : ∀ worker, worker ≠ here → ∀ key, ((server.shards worker).db key).Gone
  maps : ∀ key c, Store.cleared.contains c = false → ((server.shards here).db key).has c = false
  rocksdb : ∀ key, Unread ((server.shards here).db key)
  indexes : ∀ worker name ids, (server.shards worker).indexes.lookup name = some ids → ids = []
  fields : ∀ key field, deadlineOf server.expires key field = none

theorem shards_clear_self (here : Fin n) (server : Server env n) : (server.clear here).shards here =
      ⟨(server.shards here).db.clear, (server.shards here).indexes⟩ :=
  Function.update_self ..

theorem shards_clear_of_ne {worker here : Fin n} (h : worker ≠ here) (server : Server env n) :
    (server.clear here).shards worker = server.shards worker :=
  Function.update_of_ne h _ _

theorem indexes_clear (worker here : Fin n) (server : Server env n) :
    ((server.clear here).shards worker).indexes = (server.shards worker).indexes := by
  by_cases h : worker = here
  · subst h
    rw [shards_clear_self]
  · rw [shards_clear_of_ne h]

theorem flushed_clear_iff (now : Int64) (here : Fin n) (server : Server env n) :
    Flushed now (server.clear here) ↔ Reached here server := by
  constructor
  · intro h
    have hgone : ∀ key, ((server.shards here).db.clear key).Gone := by
      intro key
      have hkey := (h.keys here key).gone
      rwa [shards_clear_self] at hkey
    have hown := fun key => (gone_clear_iff _ key).mp (hgone key)
    refine ⟨fun worker hne key => ?_, fun key => (hown key).1, fun key => (hown key).2, ?_,
      h.fields⟩
    · exact shards_clear_of_ne hne server ▸ (h.keys worker key).gone
    · intro worker
      rw [← indexes_clear worker here]
      exact h.indexes worker
  · intro h
    refine ⟨fun worker key => observed_of_gone ?_ now, fun worker => ?_, h.fields⟩
    · by_cases hhere : worker = here
      · subst hhere
        rw [shards_clear_self]
        exact (gone_clear_iff _ key).mpr ⟨h.maps key, h.rocksdb key⟩
      · rw [shards_clear_of_ne hhere]
        exact h.others worker hhere key
    · rw [indexes_clear]
      exact h.indexes worker

/-- When nothing is left, at any later time; both commands reply `OK` in any case. -/
theorem flushed_iff (now : Int64) (here : Fin n) (server : Server env n) :
    ((handleFlushDb here server).1 = Aof.replyOk ∧
      (Flushed now (handleFlushDb here server).2 ↔ Reached here server)) ∧
    (handleFlushAll here server).1 = Aof.replyOk ∧
      (Flushed now (handleFlushAll here server).2 ↔ Reached here server) :=
  ⟨⟨rfl, flushed_clear_iff now here server⟩, rfl, flushed_clear_iff now here server⟩

def withString : Server simpleDatabase 2 where
  shards worker :=
    if worker = 1 then ⟨Store.empty.set (ascii "k") (ascii "v") [], ∅⟩ else ⟨Store.empty, ∅⟩
  expires := ∅

def withStream : Server simpleDatabase 2 where
  shards worker :=
    if worker = 0 then ⟨Store.empty.modify (ascii "s") fun s => s.getOrCreateStream.2, ∅⟩
    else ⟨Store.empty, ∅⟩
  expires := ∅

def withFieldDeadline : Server simpleDatabase 2 where
  shards _ := ⟨Store.empty, ∅⟩
  expires := setDeadline ∅ (ascii "h") (ascii "f") 1000

/-- `FLUSHALL` on the first worker leaves the string, the stream and the deadline. -/
theorem flushAll_fails :
    ¬ Flushed 10 (handleFlushAll 0 withString).2 ∧ ¬ Flushed 10 (handleFlushAll 0 withStream).2 ∧
      ¬ Flushed 10 (handleFlushAll 0 withFieldDeadline).2 := by
  refine ⟨fun h => ?_, fun h => ?_, fun h => ?_⟩
  · have hget := (h.keys 1 (ascii "k")).1.findsNothing.get
    cases hget
  · have hstream := (h.keys 0 (ascii "s")).1.findsNothing.getStream
    cases hstream
  · have hdeadline := h.fields (ascii "h") (ascii "f")
    revert hdeadline
    decide +kernel

end Flush
