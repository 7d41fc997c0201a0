/-
Keys on several workers: `SINTER`, `SUNION` and `SDIFF`.

With several workers, each of them is asked for every key, and the answers are put together
by key.  A worker only answers from its own database, so the order in which they do is left
out, as are the clients that they serve in between.

* `setAlgebra` — the three commands reply with the intersection, the union and the difference
  of the sets, wherever these are stored, as the methods of a single database do.
-/
import AstraDB.Aof

open List Store

abbrev Shards (env : DatabaseEnv) (n : ℕ) := Fin n → Store env

/-- A database with each key on one worker. -/
def Store.split {env : DatabaseEnv} {n : ℕ} (db : Store env) (owner : Bytes → Fin n) :
    Shards env n :=
  fun worker key => if owner key = worker then db key else Stored.empty

theorem Store.split_owner {env : DatabaseEnv} {n : ℕ} (db : Store env) (owner : Bytes → Fin n)
    (key : Bytes) : db.split owner (owner key) key = db key := if_pos rfl

theorem Store.split_of_ne {env : DatabaseEnv} {n : ℕ} {owner : Bytes → Fin n} {worker : Fin n}
    {key : Bytes} (h : owner key ≠ worker) (db : Store env) :
    db.split owner worker key = Stored.empty := if_neg h

namespace CrossShard

variable {env : DatabaseEnv} {n : ℕ}

/-! ### The commands -/

/-- What a worker answers: the members of each of the keys. -/
def workerSets (now : Int64) : List Bytes → Store env → List (Bytes × List Bytes) × Store env
  | [], db => ([], db)
  | key :: keys, db =>
    let (members, db) := db.onKey key (Stored.sMembers now)
    let (sets, db) := workerSets now keys db
    ((key, members) :: sets, db)

def answersOf (now : Fin n → Int64) (keys : List Bytes) (shards : Shards env n) :
    List (Bytes × List Bytes) :=
  (finRange n).flatMap fun u => (workerSets (now u) keys (shards u)).1

/-- `all_sets`: the members by key. -/
def collect (answers : List (Bytes × List Bytes)) : DashMap (List Bytes) :=
  answers.foldl
    (fun sets answer => sets.insert answer.1 ((sets.lookup answer.1).getD [] ∪ answer.2)) ∅

/-- `all_sets[key]`. -/
def setAt (sets : DashMap (List Bytes)) (key : Bytes) : List Bytes := (sets.lookup key).getD []

/-- The loops of `SINTER` and `SDIFF`: the members of the first set that are in the other
ones, or that are not. -/
def restrict (kept : Bool) (answers : List (Bytes × List Bytes)) (keys : List Bytes) :
    List Bytes :=
  let sets := collect answers
  if sets.entries = [] then []
  else
    match keys with
    | [] => []
    | key :: keys =>
      keys.foldl (fun result key => result.filter fun m => (setAt sets key).contains m == kept)
        (setAt sets key)

/-- The loop of `SUNION`. -/
def uniteAll (answers : List (Bytes × List Bytes)) : List Bytes :=
  answers.foldl (fun result answer => result ∪ answer.2) []

def replyArray (members : List Bytes) : CommandResult :=
  .ofResponse (.ofArray (members.map fun m => .ofString m .kBulkString))

/-- The commands on the keys of several workers, of which `self` is asked; `combine` puts the
answers together, and `alone` is the method for one worker. -/
def handleSets (name : Bytes) (combine : List (Bytes × List Bytes) → List Bytes → List Bytes)
    (alone : List Bytes → Int64 → Store env → List Bytes × Store env) (args : List CommandArg)
    (self : Fin n) (now : Fin n → Int64) (shards : Shards env n) :
    CommandResult × Shards env n :=
  if args = [] then (.ofError (Aof.wrongNumber name), shards)
  else if args.any (!·.isBulkString) then
    (.ofError (ascii "ERR wrong type of key argument"), shards)
  else
    let keys := args.map CommandArg.value
    if 1 < n then
      (replyArray (combine (answersOf now keys shards) keys),
        fun u => (workerSets (now u) keys (shards u)).2)
    else
      let (members, db) := alone keys (now self) (shards self)
      (replyArray members, Function.update shards self db)

def handleSInter : List CommandArg → Fin n → (Fin n → Int64) → Shards env n →
    CommandResult × Shards env n :=
  handleSets (ascii "SINTER") (restrict true) Store.sInterLocal

def handleSUnion : List CommandArg → Fin n → (Fin n → Int64) → Shards env n →
    CommandResult × Shards env n :=
  handleSets (ascii "SUNION") (fun answers _ => uniteAll answers) Store.sUnion

def handleSDiff : List CommandArg → Fin n → (Fin n → Int64) → Shards env n →
    CommandResult × Shards env n :=
  handleSets (ascii "SDIFF") (restrict false) Store.sDiff

/-! ### Sets that do not expire -/

/-- A set without a deadline, or a key that has no set, neither in memory nor in RocksDB. -/
structure Lasting (s : Stored env) : Prop where
  unexpiring : ∀ m, s.metadata = some m → m.expireTimeMs = none
  registered : s.data .sets ≠ none → s.metadata ≠ none
  missing : s.data .sets = none → s.rocksdb = none

theorem lasting_empty : Lasting (Stored.empty : Stored env) where
  unexpiring _ hm := absurd hm (Option.some_ne_none _).symm
  registered h := absurd rfl h
  missing _ := rfl

def membersOf (s : Stored env) : List Bytes := (s.data .sets).elim [] DashSet.members

theorem nodup_membersOf (s : Stored env) : (membersOf s).Nodup := by
  rw [membersOf]
  cases s.data .sets with
  | none => exact nodup_nil
  | some set => exact DashSet.nodup set

theorem Lasting.checkedRead {α : Type} {s : Stored env} (h : Lasting s) (missing : α)
    (answer : DashSet → α) (now : Int64) :
    s.checkedRead .sets missing answer now = ((s.data .sets).elim missing answer, s) :=
  Stored.checkedRead_of_unexpiring h.unexpiring h.registered missing answer now

theorem Lasting.sMembers {s : Stored env} (h : Lasting s) (now : Int64) :
    s.sMembers now = (membersOf s, s) := by
  have hload : s.loadInMode .sets = s := Stored.loadInMode_eq fun _ _ hnone => by
    rw [h.missing hnone, Option.bind_none]
  rw [Stored.sMembers, hload]
  exact h.checkedRead [] DashSet.members now

variable {db : Store env} {keys : List Bytes} {answers : List (Bytes × List Bytes)}

theorem Lasting.validRead {key : Bytes} (h : Lasting (db key)) (now : Int64) :
    db.validRead .sets key now = ((db key).data .sets, db) := by
  refine onKey_eq ((h.checkedRead none some now).trans ?_)
  exact congrArg (·, db key) (Option.elim_none_some id ((db key).data .sets))

/-! ### The answers -/

section

variable (h : ∀ key ∈ keys, Lasting (db key))
include h

theorem workerSets_eq (now : Int64) :
    workerSets now keys db = (keys.map fun key => (key, membersOf (db key)), db) := by
  induction keys with
  | nil => rfl
  | cons key keys ih =>
    rw [workerSets, onKey_eq ((h key mem_cons_self).sMembers now)]
    dsimp only
    rw [ih fun k hk => h k (mem_cons_of_mem key hk)]
    rfl

theorem mem_answersOf_iff (owner : Bytes → Fin n) (now : Fin n → Int64) (key : Bytes)
    (members : List Bytes) : (key, members) ∈ answersOf now keys (db.split owner) ↔
      ∃ worker, key ∈ keys ∧ members = membersOf (db.split owner worker key) := by
  have hshard : ∀ worker, ∀ key ∈ keys, Lasting (db.split owner worker key) := by
    intro worker key hkey
    rw [split]
    split
    · exact h key hkey
    · exact lasting_empty
  rw [answersOf, mem_flatMap]
  refine exists_congr fun worker => ?_
  rw [workerSets_eq (hshard worker)]
  constructor
  · rintro ⟨-, hmem⟩
    obtain ⟨key', hkey, heq⟩ := mem_map.mp hmem
    obtain ⟨rfl, rfl⟩ := Prod.mk.inj heq
    exact ⟨hkey, rfl⟩
  · rintro ⟨hkey, rfl⟩
    exact ⟨mem_finRange worker, mem_map.mpr ⟨key, hkey, rfl⟩⟩

theorem mem_membersOf_answersOf_iff (owner : Bytes → Fin n) (now : Fin n → Int64) (key m : Bytes) :
    (∃ members, (key, members) ∈ answersOf now keys (db.split owner) ∧ m ∈ members) ↔
      key ∈ keys ∧ m ∈ membersOf (db key) := by
  constructor
  · rintro ⟨members, hmem, hm⟩
    obtain ⟨worker, hkey, rfl⟩ := (mem_answersOf_iff h owner now _ _).mp hmem
    refine ⟨hkey, ?_⟩
    by_cases howner : owner key = worker
    · rwa [← howner, split_owner] at hm
    · rw [split_of_ne howner] at hm
      exact absurd hm not_mem_nil
  · rintro ⟨hkey, hm⟩
    refine ⟨membersOf (db key), ?_, hm⟩
    refine (mem_answersOf_iff h owner now _ _).mpr ⟨owner key, hkey, ?_⟩
    rw [split_owner]

theorem nodup_of_mem_answersOf (owner : Bytes → Fin n)
    (now : Fin n → Int64) : ∀ answer ∈ answersOf now keys (db.split owner), answer.2.Nodup := by
  rintro ⟨key, members⟩ hmem
  obtain ⟨worker, -, rfl⟩ := (mem_answersOf_iff h owner now key members).mp hmem
  exact nodup_membersOf _

end

/-! ### Putting them together -/

theorem setAt_insert (sets : DashMap (List Bytes)) (key key' : Bytes) (members : List Bytes) :
    setAt (sets.insert key members) key' = if key' = key then members else setAt sets key' := by
  rw [setAt]
  split
  · next heq => rw [heq, AList.lookup_insert, Option.getD_some]
  · next hne => rw [AList.lookup_insert_ne hne, setAt]

theorem mem_collect_iff (answers : List (Bytes × List Bytes)) (key m : Bytes) :
    m ∈ setAt (collect answers) key ↔ ∃ members, (key, members) ∈ answers ∧ m ∈ members := by
  have hloop : ∀ sets : DashMap (List Bytes), m ∈ setAt (answers.foldl (fun sets answer =>
      sets.insert answer.1 ((sets.lookup answer.1).getD [] ∪ answer.2)) sets) key ↔
      m ∈ setAt sets key ∨ ∃ members, (key, members) ∈ answers ∧ m ∈ members := by
    induction answers with
    | nil => simp
    | cons answer answers ih =>
      intro sets
      rw [foldl_cons, ih, setAt_insert]
      split
      · next heq =>
        subst heq
        rw [mem_union_iff, or_assoc]
        refine or_congr Iff.rfl ?_
        constructor
        · rintro (hm | ⟨members, hmem, hm⟩)
          · exact ⟨answer.2, mem_cons_self, hm⟩
          · exact ⟨members, mem_cons_of_mem _ hmem, hm⟩
        · rintro ⟨members, hmem, hm⟩
          rcases mem_cons.mp hmem with heq | hmem
          · exact .inl (heq ▸ hm)
          · exact .inr ⟨members, hmem, hm⟩
      · next hne =>
        refine or_congr Iff.rfl (exists_congr fun members => and_congr_left fun _ => ?_)
        rw [mem_cons, or_iff_right fun heq => hne (congrArg Prod.fst heq)]
  refine (hloop ∅).trans (or_iff_right ?_)
  rw [setAt, AList.lookup_empty]
  exact not_mem_nil

theorem nodup_setAt_collect (h : ∀ answer ∈ answers, answer.2.Nodup) (key : Bytes) :
    (setAt (collect answers) key).Nodup := by
  have hloop : ∀ sets : DashMap (List Bytes), (setAt sets key).Nodup →
      (setAt (answers.foldl (fun sets answer =>
        sets.insert answer.1 ((sets.lookup answer.1).getD [] ∪ answer.2)) sets) key).Nodup := by
    induction answers with
    | nil => exact fun _ => id
    | cons answer answers ih =>
      intro sets hsets
      refine ih (fun a ha => h a (mem_cons_of_mem answer ha)) _ ?_
      rw [setAt_insert]
      split
      · exact (h answer mem_cons_self).union _
      · exact hsets
  refine hloop ∅ ?_
  rw [setAt, AList.lookup_empty]
  exact nodup_nil

theorem mem_uniteAll_iff (answers : List (Bytes × List Bytes)) (m : Bytes) :
    m ∈ uniteAll answers ↔ ∃ answer ∈ answers, m ∈ answer.2 := by
  have hloop : ∀ result : List Bytes, m ∈ answers.foldl (fun result answer =>
      result ∪ answer.2) result ↔ m ∈ result ∨ ∃ answer ∈ answers, m ∈ answer.2 := by
    induction answers with
    | nil => simp
    | cons answer answers ih =>
      intro result
      rw [foldl_cons, ih, mem_union_iff, exists_mem_cons_iff, or_assoc]
  exact (hloop []).trans (or_iff_right not_mem_nil)

theorem nodup_uniteAll (h : ∀ answer ∈ answers, answer.2.Nodup) : (uniteAll answers).Nodup := by
  refine List.foldlRecOn answers _ nodup_nil ?_
  intro result _ answer hanswer
  exact (h answer hanswer).union result

theorem mem_foldl_filter_iff (p : Bytes → Bytes → Bool) (keys result : List Bytes) (m : Bytes) :
    m ∈ keys.foldl (fun result key => result.filter (p key)) result ↔
      m ∈ result ∧ ∀ key ∈ keys, p key m = true := by
  induction keys generalizing result with
  | nil => simp
  | cons key keys ih => rw [foldl_cons, ih, mem_filter, forall_mem_cons, and_assoc]

theorem mem_restrict_iff (kept : Bool) (answers : List (Bytes × List Bytes)) (key : Bytes)
    (keys : List Bytes) (m : Bytes) :
    m ∈ restrict kept answers (key :: keys) ↔ m ∈ setAt (collect answers) key ∧
      ∀ k ∈ keys, (m ∈ setAt (collect answers) k ↔ kept = true) := by
  rw [restrict]
  split
  · next hempty =>
    have hsets : collect answers = ∅ := AList.ext hempty
    rw [hsets, setAt, AList.lookup_empty]
    simp
  · rw [mem_foldl_filter_iff]
    refine and_congr_right fun _ => forall₂_congr fun k _ => ?_
    rw [beq_iff_eq, Bool.eq_iff_iff, contains_iff_mem]

theorem nodup_restrict (h : ∀ answer ∈ answers, answer.2.Nodup) (kept : Bool) (key : Bytes)
    (keys : List Bytes) : (restrict kept answers (key :: keys)).Nodup := by
  rw [restrict]
  split
  · exact nodup_nil
  · refine List.foldlRecOn keys _ (nodup_setAt_collect h key) ?_
    intro result hresult k _
    exact hresult.filter _

/-! ### One database -/

section

variable {db : Store env} {now : Int64}

theorem membersOf_of_data {s : Stored env} {set : DashSet} (h : s.data .sets = some set) :
    membersOf s = set.members := by
  rw [membersOf, h]
  rfl

theorem membersOf_of_none {s : Stored env} (h : s.data .sets = none) : membersOf s = [] := by
  rw [membersOf, h]
  rfl

variable {keys : List Bytes} {key : Bytes}

theorem mem_intersect_iff (h : ∀ key ∈ keys, Lasting (db key)) (result : List Bytes) (m : Bytes) :
    m ∈ (intersect now result keys db).1 ↔
      m ∈ result ∧ ∀ key ∈ keys, m ∈ membersOf (db key) := by
  induction keys generalizing result with
  | nil => simp [intersect]
  | cons key keys ih =>
    obtain ⟨hkey, hkeys⟩ := forall_mem_cons.mp h
    rw [intersect, hkey.validRead now, forall_mem_cons]
    cases hdata : (db key).data .sets with
    | none => simp [membersOf_of_none hdata]
    | some set =>
      have hfilter : m ∈ result.filter (DashSet.contains set) ↔
          m ∈ result ∧ m ∈ membersOf (db key) := by
        rw [membersOf_of_data hdata, mem_filter]
        exact and_congr_right fun _ => contains_iff_mem
      rw [← and_assoc, ← hfilter]
      dsimp only
      split
      · next hnil => simp [hnil]
      · exact ih hkeys _

theorem mem_sInterLocal_iff (h : ∀ k ∈ keys, Lasting (db k)) (m : Bytes) :
    m ∈ (db.sInterLocal (key :: keys) now).1 ↔
      ∀ k ∈ key :: keys, m ∈ membersOf (db k) := by
  rw [sInterLocal, forall_mem_cons]
  cases hdata : (db key).data .sets with
  | none => simp [membersOf_of_none hdata]
  | some set =>
    rw [membersOf_of_data hdata]
    exact mem_intersect_iff h _ m

theorem mem_unite_iff (h : ∀ key ∈ keys, Lasting (db key)) (result : List Bytes) (m : Bytes) :
    m ∈ (unite now result keys db).1 ↔
      m ∈ result ∨ ∃ key ∈ keys, m ∈ membersOf (db key) := by
  induction keys generalizing result with
  | nil => simp [unite]
  | cons key keys ih =>
    obtain ⟨hkey, hkeys⟩ := forall_mem_cons.mp h
    rw [unite, hkey.validRead now, exists_mem_cons_iff, ← or_assoc]
    cases hdata : (db key).data .sets with
    | none => simp [membersOf_of_none hdata, ih hkeys]
    | some set =>
      rw [membersOf_of_data hdata, ← mem_union_iff]
      exact ih hkeys _

theorem mem_subtract_iff {α : Type} {c : Container} {members : Value env.toValueTypes c → List α}
    {name : α → Bytes} (h : ∀ key ∈ keys, db.validRead c key now = ((db key).data c, db))
    (result : List α) (m : α) :
    m ∈ (subtract c members name now result keys db).1 ↔ m ∈ result ∧
      ∀ key ∈ keys, ∀ value, (db key).data c = some value → name m ∉ (members value).map name := by
  induction keys generalizing result with
  | nil => simp [subtract]
  | cons key keys ih =>
    obtain ⟨hkey, hkeys⟩ := forall_mem_cons.mp h
    rw [subtract, hkey, forall_mem_cons, ← and_assoc]
    cases (db key).data c with
    | none => simp [ih hkeys]
    | some value =>
      refine (ih hkeys _).trans (and_congr_left fun _ => ?_)
      rw [mem_filter, Bool.not_eq_true', ← Bool.not_eq_true, contains_iff_mem]
      simp

theorem mem_sDiff_iff (h : ∀ k ∈ keys, Lasting (db k)) (m : Bytes) :
    m ∈ (db.sDiff (key :: keys) now).1 ↔
      m ∈ membersOf (db key) ∧ ∀ k ∈ keys, m ∉ membersOf (db k) := by
  unfold sDiff difference
  dsimp only
  split
  · next hnone => simp [membersOf_of_none hnone]
  · next set hset =>
    rw [membersOf_of_data hset]
    refine (mem_subtract_iff (fun k hk => (h k hk).validRead now) _ m).trans
      (and_congr_right fun _ => forall₂_congr fun k _ => ?_)
    cases hdata : (db k).data .sets with
    | none => simp [membersOf_of_none hdata]
    | some set =>
      rw [membersOf_of_data hdata]
      simp

end

/-! ### The answers of the commands -/

/-- The members with a property, each of them once. -/
def Replies (result : CommandResult) (p : Bytes → Prop) : Prop :=
  ∃ members : List Bytes, result = replyArray members ∧ members.Nodup ∧ ∀ m, m ∈ members ↔ p m

def keyArgs (keys : List Bytes) : List CommandArg := keys.map (.ofString · .kBulkString)

theorem handleSets_fst (hn : 1 < n) (hkeys : keys ≠ []) (name : Bytes)
    (combine : List (Bytes × List Bytes) → List Bytes → List Bytes)
    (alone : List Bytes → Int64 → Store env → List Bytes × Store env) (self : Fin n)
    (now : Fin n → Int64) (shards : Shards env n) :
    (handleSets name combine alone (keyArgs keys) self now shards).1 =
      replyArray (combine (answersOf now keys shards) keys) := by
  have hvalues : (keyArgs keys).map CommandArg.value = keys := by
    rw [keyArgs, map_map]
    exact map_id keys
  have hbulk : (keyArgs keys).any (!·.isBulkString) = false := by
    rw [keyArgs, any_map]
    exact any_eq_false.mpr fun _ _ => Bool.false_ne_true
  have hne : keyArgs keys ≠ [] := mt map_eq_nil_iff.mp hkeys
  rw [handleSets, if_neg hne, hbulk, hvalues, if_neg Bool.false_ne_true, if_pos hn]

section

variable {db : Store env} {key : Bytes} {keys : List Bytes}
  (h : ∀ k ∈ key :: keys, Lasting (db k)) (owner : Bytes → Fin n) (times : Fin n → Int64)

include h

theorem mem_setAt_answersOf_iff {k : Bytes} (hk : k ∈ key :: keys) (m : Bytes) :
    m ∈ setAt (collect (answersOf times (key :: keys) (db.split owner))) k ↔
      m ∈ membersOf (db k) := by
  rw [mem_collect_iff, mem_membersOf_answersOf_iff h owner times, and_iff_right hk]

variable (hn : 1 < n) (self : Fin n)

include hn

theorem replies_sInter :
    Replies (handleSInter (keyArgs (key :: keys)) self times (db.split owner)).1
      fun m => ∀ k ∈ key :: keys, m ∈ membersOf (db k) := by
  refine ⟨_, handleSets_fst hn (cons_ne_nil key keys) .., nodup_restrict
    (nodup_of_mem_answersOf h owner times) true key keys, fun m => ?_⟩
  rw [mem_restrict_iff, mem_setAt_answersOf_iff h owner times mem_cons_self]
  refine Iff.trans ?_ (forall_mem_cons (p := fun k => m ∈ membersOf (db k))).symm
  refine and_congr_right fun _ => forall₂_congr fun k hk => ?_
  rw [mem_setAt_answersOf_iff h owner times (mem_cons_of_mem key hk), iff_true_right rfl]

theorem replies_sUnion :
    Replies (handleSUnion (keyArgs (key :: keys)) self times (db.split owner)).1
      fun m => ∃ k ∈ key :: keys, m ∈ membersOf (db k) := by
  refine ⟨_, handleSets_fst hn (cons_ne_nil key keys) .., nodup_uniteAll
    (nodup_of_mem_answersOf h owner times), fun m => ?_⟩
  rw [mem_uniteAll_iff]
  constructor
  · rintro ⟨⟨k, members⟩, hmem, hm⟩
    exact ⟨k, (mem_membersOf_answersOf_iff h owner times k m).mp ⟨members, hmem, hm⟩⟩
  · rintro ⟨k, hk⟩
    obtain ⟨members, hmem, hm⟩ := (mem_membersOf_answersOf_iff h owner times k m).mpr hk
    exact ⟨(k, members), hmem, hm⟩

theorem replies_sDiff :
    Replies (handleSDiff (keyArgs (key :: keys)) self times (db.split owner)).1
      fun m => m ∈ membersOf (db key) ∧ ∀ k ∈ keys, m ∉ membersOf (db k) := by
  refine ⟨_, handleSets_fst hn (cons_ne_nil key keys) .., nodup_restrict
    (nodup_of_mem_answersOf h owner times) false key keys, fun m => ?_⟩
  rw [mem_restrict_iff, mem_setAt_answersOf_iff h owner times mem_cons_self]
  refine and_congr_right fun _ => forall₂_congr fun k hk => ?_
  rw [mem_setAt_answersOf_iff h owner times (mem_cons_of_mem key hk),
    iff_false_right Bool.false_ne_true]

end

/-- Sets without deadlines, on any workers. -/
theorem setAlgebra (env : DatabaseEnv) (n : ℕ) (hn : 2 ≤ n) (owner : Bytes → Fin n) (db : Store env)
    (key : Bytes) (keys : List Bytes) (h : ∀ k ∈ key :: keys, Lasting (db k)) (self : Fin n)
    (times : Fin n → Int64) (now : Int64) :
    let shards := db.split owner
    let args := keyArgs (key :: keys)
    let inAll := fun m => ∀ k ∈ key :: keys, m ∈ membersOf (db k)
    let inSome := fun m => ∃ k ∈ key :: keys, m ∈ membersOf (db k)
    let inFirst := fun m => m ∈ membersOf (db key) ∧ ∀ k ∈ keys, m ∉ membersOf (db k)
    Replies (handleSInter args self times shards).1 inAll ∧
      (∀ m, m ∈ (db.sInterLocal (key :: keys) now).1 ↔ inAll m) ∧
      Replies (handleSUnion args self times shards).1 inSome ∧
      (∀ m, m ∈ (db.sUnion (key :: keys) now).1 ↔ inSome m) ∧
      Replies (handleSDiff args self times shards).1 inFirst ∧
      ∀ m, m ∈ (db.sDiff (key :: keys) now).1 ↔ inFirst m := by
  intro shards args inAll inSome inFirst
  have hkeys : ∀ k ∈ keys, Lasting (db k) := (forall_mem_cons.mp h).2
  exact ⟨replies_sInter h owner times hn self, mem_sInterLocal_iff hkeys,
    replies_sUnion h owner times hn self,
    fun m => (mem_unite_iff h [] m).trans (or_iff_right not_mem_nil),
    replies_sDiff h owner times hn self, mem_sDiff_iff hkeys⟩

def twoSets : Store simpleDatabase :=
  ((Store.empty.sAdd (ascii "a") (ascii "x") []).2.sAdd (ascii "b") (ascii "x") []).2

theorem lasting_twoSets : ∀ k ∈ [ascii "a", ascii "b", ascii "c"], Lasting (twoSets k) := by
  have hset : ∀ k, (twoSets k).metadata = some ⟨.kSet, none, 1⟩ → (twoSets k).has .sets = true →
      Lasting (twoSets k) := by
    intro k hm hhas
    refine ⟨fun m h => ?_, fun _ => ?_, fun h => ?_⟩
    · rw [← Option.some.inj (hm.symm.trans h)]
    · rw [hm]
      exact Option.some_ne_none _
    · rw [Stored.has, h] at hhas
      cases hhas
  refine forall_mem_cons.mpr ⟨hset _ (by decide) (by decide), ?_⟩
  refine forall_mem_cons.mpr ⟨hset _ (by decide) (by decide), ?_⟩
  exact forall_mem_singleton.mpr lasting_empty

theorem setAlgebra_twoSets :
    Replies (handleSInter (keyArgs [ascii "a", ascii "b", ascii "c"]) (0 : Fin 2) (fun _ => 0)
      (twoSets.split fun key => if key = ascii "a" then 0 else 1)).1
      fun m => ∀ k ∈ [ascii "a", ascii "b", ascii "c"], m ∈ membersOf (twoSets k) :=
  (setAlgebra simpleDatabase 2 le_rfl (fun key => if key = ascii "a" then 0 else 1) twoSets
    (ascii "a") [ascii "b", ascii "c"] lasting_twoSets 0 (fun _ => 0) 0).1

end CrossShard
