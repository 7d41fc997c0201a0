/-
Several strings at once: `MSET` and `MGET`.

With several workers, the indexes of the arguments are grouped by the worker of their key.  Each
group is a task for that worker, which only uses its own database and the places of its own indexes,
so the tasks are run here one after another, in any order.  Each `Set` may evict keys.

* `mGet_mSet` — what `MGET` replies after `MSET`.
-/
import AstraDB.CrossShard
import AstraDB.Worker
import Mathlib.Data.List.GetD

open List Function CommandArg

namespace ServerConfig

variable {V : Type}

theorem routeToWorker_eq (cfg : ServerConfig V) (hcount : 0 < cfg.workerCount) {key : Bytes}
    (hkey : key ≠ []) (w : ℕ) :
    cfg.routeToWorker w key = HashSlotCalculator.calculateWithTag key % cfg.workerCount := by
  rw [routeToWorker, if_neg hkey]
  dsimp only
  split
  · next hmask =>
    obtain ⟨k, hk⟩ := (Nat.and_sub_one_eq_zero_iff_isPowerOfTwo hcount.ne').mp hmask
    rw [hk]
    exact Nat.and_two_pow_sub_one_eq_mod _ k
  · rfl

end ServerConfig

namespace MultiKey

variable {env : DatabaseEnv} {n : ℕ}

/-! ### The commands -/

/-- `CalculateWithTag(key) % all_workers.size()`. -/
def workerOf (self : Fin n) (key : Bytes) : Fin n :=
  ⟨HashSlotCalculator.calculateWithTag key % n, Nat.mod_lt _ self.pos⟩

def indexesOf (self u : Fin n) (keys : List Bytes) : List ℕ :=
  (range keys.length).filter fun i => workerOf self (keys.getD i []) = u

/-- What a worker does for `MGET`; the results are in the places of the keys. -/
def getTask (keys : List Bytes) :
    List ℕ → List (Option Bytes) × Store env → List (Option Bytes) × Store env
  | [], s => s
  | i :: indexes, (results, db) =>
    let (value, db) := db.get (keys.getD i [])
    getTask keys indexes (results.set i value, db)

def getTasks (self : Fin n) (keys : List Bytes) :
    List (Fin n) → List (Option Bytes) × Shards env n → List (Option Bytes) × Shards env n
  | [], s => s
  | u :: order, (results, shards) =>
    let (results, db) := getTask keys (indexesOf self u keys) (results, shards u)
    getTasks self keys order (results, update shards u db)

def mGet : List Bytes → Store env → List (Option Bytes) × Store env
  | [], db => ([], db)
  | key :: keys, db =>
    let (value, db) := db.get key
    let (results, db) := mGet keys db
    (value :: results, db)

def replyStrings (results : List (Option Bytes)) : CommandResult :=
  .ofResponse (.ofArray (results.map fun result =>
    result.elim (.ofType .kNullBulkString) fun value => .ofString value .kBulkString))

def handleMGet (self : Fin n) (order : List (Fin n)) (args : List CommandArg)
    (shards : Shards env n) : CommandResult × Shards env n :=
  if args = [] then (.ofError (Aof.wrongNumber (ascii "MGET")), shards)
  else if args.any (!·.isBulkString) then
    (.ofError (ascii "ERR wrong type of key argument"), shards)
  else
    let keys := args.map CommandArg.value
    if 1 < n then
      let (results, shards) := getTasks self keys order (replicate args.length none, shards)
      (replyStrings results, shards)
    else
      let (results, db) := mGet keys (shards self)
      (replyStrings results, update shards self db)

/-- What a worker does for `MSET`. -/
def setTask (pairs : List (Bytes × Bytes)) (evictions : Evictions) :
    List ℕ → Store env → Store env
  | [], db => db
  | i :: indexes, db =>
    let pair := pairs.getD i ([], [])
    setTask pairs evictions indexes (db.set pair.1 pair.2 (evictions i))

def setTasks (self : Fin n) (pairs : List (Bytes × Bytes)) (evictions : Fin n → Evictions) :
    List (Fin n) → Shards env n → Shards env n
  | [], shards => shards
  | u :: order, shards =>
    let db := setTask pairs (evictions u) (indexesOf self u (pairs.map Prod.fst)) (shards u)
    setTasks self pairs evictions order (update shards u db)

/-- With one worker, the types are looked at while the keys are set. -/
def handleMSet (self : Fin n) (order : List (Fin n)) (evictions : Fin n → Evictions)
    (args : List CommandArg) (shards : Shards env n) : CommandResult × Shards env n :=
  let typeError := CommandResult.ofError (ascii "ERR wrong type of key or value argument")
  if args.length = 0 ∨ args.length % 2 ≠ 0 then
    (.ofError (Aof.wrongNumber (ascii "MSET")), shards)
  else if 1 < n then
    if args.any (!·.isBulkString) then (typeError, shards)
    else
      let pairs := (keyValuePairs args).map fun pair => (pair.1.value, pair.2.value)
      (Aof.replyOk, setTasks self pairs evictions order shards)
  else
    let (done, db) := (shards self).mSet (keyValuePairs args) (evictions self)
    (if done then Aof.replyOk else typeError, update shards self db)

/-! ### `MGET` -/

theorem get_get (key key' : Bytes) (db : Store env) :
    ((db.get key).2.get key').1 = (db.get key').1 := Store.get_get key key' db

theorem length_getTask (keys : List Bytes) (indexes : List ℕ) (results : List (Option Bytes))
    (db : Store env) : (getTask keys indexes (results, db)).1.length = results.length := by
  induction indexes generalizing results db with
  | nil => rfl
  | cons i indexes ih => exact (ih _ _).trans length_set

variable {i : ℕ} {self u : Fin n} {keys : List Bytes} {order : List (Fin n)} {key : Bytes}
  {pairs : List (Bytes × Bytes)} {s : Stored env}

theorem getTask_of_notMem {indexes : List ℕ} (h : i ∉ indexes) (keys : List Bytes)
    (results : List (Option Bytes)) (db : Store env) :
    (getTask keys indexes (results, db)).1[i]? = results[i]? := by
  induction indexes generalizing results db with
  | nil => rfl
  | cons j indexes ih =>
    rw [mem_cons, not_or] at h
    exact (ih h.2 _ _).trans (List.getElem?_set_ne (Ne.symm h.1))

theorem getTask_of_mem {indexes : List ℕ} (h : i ∈ indexes) (keys : List Bytes)
    {results : List (Option Bytes)} (hi : i < results.length) (db : Store env) :
    (getTask keys indexes (results, db)).1[i]? = some (db.get (keys.getD i [])).1 := by
  induction indexes generalizing results db with
  | nil => cases h
  | cons j indexes ih =>
    rw [getTask]
    by_cases hmem : i ∈ indexes
    · rw [ih hmem (by rwa [length_set]), get_get]
    · obtain rfl : i = j := (mem_cons.mp h).resolve_right hmem
      rw [getTask_of_notMem hmem, List.getElem?_set_self hi]

theorem mem_indexesOf :
    i ∈ indexesOf self u keys ↔ i < keys.length ∧ workerOf self (keys.getD i []) = u := by
  rw [indexesOf, mem_filter, mem_range, decide_eq_true_eq]

theorem getTasks_of_notMem (h : ∀ u ∈ order, i ∉ indexesOf self u keys)
    (results : List (Option Bytes)) (shards : Shards env n) :
    (getTasks self keys order (results, shards)).1[i]? = results[i]? := by
  induction order generalizing results shards with
  | nil => rfl
  | cons u order ih =>
    obtain ⟨hu, horder⟩ := forall_mem_cons.mp h
    exact (ih horder _ _).trans (getTask_of_notMem hu _ _ _)

theorem getTasks_of_mem (hi : i < keys.length) (hnodup : order.Nodup)
    (h : workerOf self (keys.getD i []) ∈ order) {results : List (Option Bytes)}
    (hresults : results.length = keys.length) (shards : Shards env n) :
    (getTasks self keys order (results, shards)).1[i]? =
      some ((shards (workerOf self (keys.getD i []))).get (keys.getD i [])).1 := by
  induction order generalizing results shards with
  | nil => cases h
  | cons u order ih =>
    obtain ⟨hu, hnodup⟩ := nodup_cons.mp hnodup
    rw [getTasks]
    by_cases hown : workerOf self (keys.getD i []) = u
    · -- the later tasks are those of other workers
      have hlater : ∀ v ∈ order, i ∉ indexesOf self v keys := by
        intro v hv hmem
        rw [← (mem_indexesOf.mp hmem).2, hown] at hv
        exact hu hv
      rw [getTasks_of_notMem hlater, getTask_of_mem (mem_indexesOf.mpr ⟨hi, hown⟩) _
        (hresults ▸ hi), hown]
    · rw [ih hnodup ((mem_cons.mp h).resolve_left hown)
        ((length_getTask ..).trans hresults), update_of_ne hown]

theorem getTasks_spec (horder : order.Perm (finRange n)) (self : Fin n) (keys : List Bytes)
    (shards : Shards env n) : (getTasks self keys order (replicate keys.length none, shards)).1 =
      keys.map fun key => ((shards (workerOf self key)).get key).1 := by
  refine ext_getElem? fun i => ?_
  rw [List.getElem?_map]
  by_cases hi : i < keys.length
  · have hmem : workerOf self (keys.getD i []) ∈ order := horder.mem_iff.mpr (mem_finRange _)
    have hnodup : order.Nodup := horder.nodup_iff.mpr (nodup_finRange n)
    rw [getTasks_of_mem hi hnodup hmem length_replicate, List.getElem?_eq_getElem hi,
      Option.map_some, getD_eq_getElem _ _ hi]
  · have hnone : ∀ u ∈ order, i ∉ indexesOf self u keys := fun u _ hmem =>
      hi (mem_indexesOf.mp hmem).1
    rw [getTasks_of_notMem hnone, List.getElem?_eq_none (Nat.not_lt.mp hi), Option.map_none,
      List.getElem?_eq_none]
    rw [length_replicate]
    exact Nat.not_lt.mp hi

theorem mGet_spec (keys : List Bytes) (db : Store env) :
    (mGet keys db).1 = keys.map fun key => (db.get key).1 := by
  induction keys generalizing db with
  | nil => rfl
  | cons key keys ih =>
    rw [mGet, map_cons]
    dsimp only
    rw [ih]
    exact congrArg _ (map_congr_left fun key' _ => get_get key key' db)

def bulk (value : Bytes) : CommandArg := .ofString value .kBulkString

theorem eq_of_not_lt (h : ¬ 1 < n) (u v : Fin n) : u = v := Fin.ext (by
  have hu := u.isLt
  have hv := v.isLt
  omega)

theorem handleMGet_fst (horder : order.Perm (finRange n)) (self : Fin n) (hkeys : keys ≠ [])
    (shards : Shards env n) : (handleMGet self order (keys.map bulk) shards).1 =
      replyStrings (keys.map fun key => ((shards (workerOf self key)).get key).1) := by
  have hne : keys.map bulk ≠ [] := fun h => hkeys (map_eq_nil_iff.mp h)
  have hvalues : (keys.map bulk).map value = keys := (map_map ..).trans (map_id _)
  rw [handleMGet, if_neg hne, if_neg (by simp [bulk, ofString, isBulkString]), hvalues]
  dsimp only
  split
  · rw [length_map]
    exact congrArg replyStrings (getTasks_spec horder self keys shards)
  · next hn =>
    simp only [eq_of_not_lt hn _ self]
    exact congrArg replyStrings (mGet_spec keys (shards self))

/-! ### `MSET` -/

/-- The last value that is given for the key. -/
def lastValue (pairs : List (Bytes × Bytes)) (key : Bytes) : Option Bytes :=
  pairs.reverse.lookup key

theorem lastValue_cons (name value key : Bytes) (pairs : List (Bytes × Bytes)) :
    lastValue ((name, value) :: pairs) key =
      (lastValue pairs key).or (if key = name then some value else none) := by
  rw [lastValue, reverse_cons, lookup_append, lookup_cons, lookup_nil,
    lastValue]
  by_cases h : key = name
  · rw [beq_iff_eq.mpr h, if_pos h]
  · rw [beq_false_of_ne h, if_neg h]

theorem lastValue_filter (test : Bytes → Bool) (pairs : List (Bytes × Bytes)) (key : Bytes) :
    lastValue (pairs.filter fun pair => test pair.1) key =
      if test key then lastValue pairs key else none := by
  induction pairs with
  | nil => rw [filter_nil, lastValue, reverse_nil, lookup_nil, ite_self]
  | cons pair pairs ih =>
    obtain ⟨name, value⟩ := pair
    rw [filter_cons, lastValue_cons]
    by_cases hkey : key = name
    · subst hkey
      cases htest : test key with
      | true => rw [if_pos rfl, lastValue_cons, ih, htest, if_pos rfl, if_pos rfl, if_pos rfl]
      | false =>
        rw [if_neg Bool.false_ne_true, ih, htest, if_neg Bool.false_ne_true,
          if_neg Bool.false_ne_true]
    · rw [if_neg hkey, Option.or_none]
      split
      · rw [lastValue_cons, ih, if_neg hkey, Option.or_none]
      · exact ih

/-- What is stored under the key, before and after. -/
def Written (pairs : List (Bytes × Bytes)) (key : Bytes) (s s' : Stored env) : Prop :=
  match lastValue pairs key with
  | none => s' = s
  | some value => s'.data .strings = some value

theorem written_cons {name value : Bytes} {victims : List (Bytes × KeyType)}
    (hkept : key ∉ victims.map Prod.fst) {db : Store env}
    (h : Written pairs key (db.set name value victims key) s) :
    Written ((name, value) :: pairs) key (db key) s := by
  rw [Written] at h ⊢
  rw [lastValue_cons]
  cases hlast : lastValue pairs key with
  | some last =>
    rw [hlast] at h
    exact h
  | none =>
    rw [hlast] at h
    dsimp only at h
    rw [Option.none_or, h]
    by_cases hkey : key = name
    · subst hkey
      rw [if_pos rfl]
      exact Store.data_set hkept value db
    · rw [if_neg hkey]
      exact Store.set_of_ne hkey hkept value db

theorem setTask_spec {evictions : Evictions} (hkept : ∀ i, key ∉ (evictions i).map Prod.fst)
    (pairs : List (Bytes × Bytes)) (indexes : List ℕ) (db : Store env) :
    Written (indexes.map fun i => pairs.getD i ([], [])) key (db key)
      (setTask pairs evictions indexes db key) := by
  induction indexes generalizing db with
  | nil => rfl
  | cons i indexes ih => exact written_cons (hkept i) (ih _)

theorem map_indexesOf (self u : Fin n) (pairs : List (Bytes × Bytes)) :
    (indexesOf self u (pairs.map Prod.fst)).map (fun i => pairs.getD i ([], [])) =
      pairs.filter fun pair => workerOf self pair.1 = u := by
  have hpairs : (range pairs.length).map (fun i => pairs.getD i ([], [])) = pairs := by
    refine ext_getElem (by rw [length_map, length_range]) fun i h _ => ?_
    rw [length_map, length_range] at h
    rw [getElem_map, getElem_range, getD_eq_getElem _ _ h]
  have hkey : ∀ i, (pairs.map Prod.fst).getD i [] = (pairs.getD i ([], [])).1 := fun i =>
    getD_map pairs ([], []) Prod.fst
  conv_rhs => rw [← hpairs]
  rw [filter_map, indexesOf, length_map]
  simp only [hkey]
  rfl

theorem setTasks_of_notMem (h : u ∉ order) (self : Fin n) (pairs : List (Bytes × Bytes))
    (evictions : Fin n → Evictions) (shards : Shards env n) :
    setTasks self pairs evictions order shards u = shards u := by
  induction order generalizing shards with
  | nil => rfl
  | cons v order ih =>
    rw [mem_cons, not_or] at h
    exact (ih h.2 _).trans (update_of_ne h.1 ..)

theorem setTasks_spec (hmem : u ∈ order) (hnodup : order.Nodup) {evictions : Fin n → Evictions}
    (hkept : ∀ i, key ∉ (evictions u i).map Prod.fst) (self : Fin n) (pairs : List (Bytes × Bytes))
    (shards : Shards env n) :
    Written (pairs.filter fun pair => workerOf self pair.1 = u) key (shards u key)
      (setTasks self pairs evictions order shards u key) := by
  induction order generalizing shards with
  | nil => cases hmem
  | cons v order ih =>
    obtain ⟨hv, hnodup⟩ := nodup_cons.mp hnodup
    rw [setTasks]
    by_cases huv : u = v
    · subst huv
      rw [setTasks_of_notMem hv, update_self, ← map_indexesOf]
      exact setTask_spec hkept pairs _ (shards u)
    · have hrest := ih ((mem_cons.mp hmem).resolve_left huv) hnodup
        (update shards v
          (setTask pairs (evictions v) (indexesOf self v (pairs.map Prod.fst)) (shards v)))
      rwa [update_of_ne huv] at hrest

theorem mSet_fst (pairs : List (Bytes × Bytes)) (evictions : Evictions) (db : Store env) :
    (db.mSet (pairs.map fun pair => (bulk pair.1, bulk pair.2)) evictions).1 = true := by
  induction pairs generalizing db evictions with
  | nil => rfl
  | cons pair pairs ih => exact ih _ _

theorem mSet_spec {evictions : Evictions} (hkept : ∀ i, key ∉ (evictions i).map Prod.fst)
    (pairs : List (Bytes × Bytes)) (db : Store env) :
    Written pairs key (db key)
      ((db.mSet (pairs.map fun pair => (bulk pair.1, bulk pair.2)) evictions).2 key) := by
  induction pairs generalizing db evictions with
  | nil => rfl
  | cons pair pairs ih => exact written_cons (hkept 0) (ih (fun i => hkept (i + 1)) _)

def pairArgs (pairs : List (Bytes × Bytes)) : List CommandArg :=
  pairs.flatMap fun pair => [bulk pair.1, bulk pair.2]

theorem keyValuePairs_pairArgs (pairs : List (Bytes × Bytes)) :
    keyValuePairs (pairArgs pairs) = pairs.map fun pair => (bulk pair.1, bulk pair.2) := by
  induction pairs with
  | nil => rfl
  | cons pair pairs ih => exact congrArg _ ih

theorem handleMSet_spec (horder : order.Perm (finRange n)) (self : Fin n) (hpairs : pairs ≠ [])
    (evictions : Fin n → Evictions) (shards : Shards env n) :
    ∃ shards', handleMSet self order evictions (pairArgs pairs) shards = (Aof.replyOk, shards') ∧
      ∀ u key, (∀ i, key ∉ (evictions u i).map Prod.fst) →
        Written (pairs.filter fun pair => workerOf self pair.1 = u) key (shards u key)
          (shards' u key) := by
  have hlength : (pairArgs pairs).length = 2 * pairs.length := by simp [pairArgs, Nat.mul_comm]
  have hpos := length_pos_iff.mpr hpairs
  have harity : ¬ ((pairArgs pairs).length = 0 ∨ (pairArgs pairs).length % 2 ≠ 0) := by omega
  rw [handleMSet]
  dsimp only
  have hbulk : ¬ (pairArgs pairs).any (!·.isBulkString) = true := by
    simp [pairArgs, bulk, ofString, isBulkString]
  rw [if_neg harity, if_neg hbulk, keyValuePairs_pairArgs]
  split
  · have hvalues : (pairs.map fun pair => (bulk pair.1, bulk pair.2)).map
        (fun pair => (pair.1.value, pair.2.value)) = pairs :=
      (map_map ..).trans (map_id _)
    refine ⟨_, rfl, fun u key hkept => ?_⟩
    rw [hvalues]
    exact setTasks_spec (horder.mem_iff.mpr (mem_finRange u))
      (horder.nodup_iff.mpr (nodup_finRange n)) hkept self pairs shards
  · next hn =>
    refine ⟨_, Prod.ext (if_pos (mSet_fst pairs (evictions self) (shards self))) rfl,
      fun u key hkept => ?_⟩
    obtain rfl := eq_of_not_lt hn u self
    have hall : pairs.filter (fun pair => workerOf u pair.1 = u) = pairs :=
      filter_eq_self.mpr fun pair _ => decide_eq_true (eq_of_not_lt hn _ u)
    rw [hall, update_self]
    exact mSet_spec hkept pairs (shards u)

/-! ### One after the other -/

theorem exists_lastValue {pair : Bytes × Bytes} (h : pair ∈ pairs) :
    ∃ value, lastValue pairs pair.1 = some value := by
  rw [← Option.isSome_iff_exists, ← Option.ne_none_iff_isSome, lastValue, ne_eq,
    lookup_eq_none_iff]
  intro hnone
  exact absurd rfl (bne_iff_ne.mp (hnone pair (mem_reverse.mpr h)))

theorem Written.get {s' : Stored env} (h : Written pairs key s s') :
    s'.get.1 = (lastValue pairs key).or s.get.1 := by
  rw [Written] at h
  cases hlast : lastValue pairs key with
  | none =>
    rw [hlast] at h
    dsimp only at h
    rw [h, Option.none_or]
  | some value =>
    rw [hlast] at h
    exact congrArg Prod.fst (Stored.readThrough_of_data h _)

theorem written_filter {s' : Stored env}
    (h : Written (pairs.filter fun pair => workerOf self pair.1 = u) key s s') :
    if workerOf self key = u then Written pairs key s s' else s' = s := by
  rw [Written, lastValue_filter fun name => decide (workerOf self name = u)] at h
  split
  · next hu =>
    rwa [if_pos (decide_eq_true hu)] at h
  · next hu =>
    rwa [if_neg (ne_true_of_eq_false (decide_eq_false hu))] at h

/-- `MGET` after `MSET` replies with the last value of each key, or with what was there before;
each key is on the worker that `RouteToWorker` selects. -/
theorem mGet_mSet {V : Type} (cfg : ServerConfig V) (w : ℕ) {n : ℕ}
    (hcount : cfg.workerCount = n) {route : Bytes → Fin n}
    (hroute : ∀ key, key ≠ [] → (route key : ℕ) = cfg.routeToWorker w key)
    (self self' : Fin n) {order order' : List (Fin n)} (horder : order.Perm (finRange n))
    (horder' : order'.Perm (finRange n)) {pairs : List (Bytes × Bytes)} (hpairs : pairs ≠ [])
    (hnames : ∀ pair ∈ pairs, pair.1 ≠ []) {keys : List Bytes} (hkeys : keys ≠ [])
    (hne : ∀ key ∈ keys, key ≠ []) {evictions : Fin n → Evictions}
    (hkept : ∀ u i key, key ∈ pairs.map Prod.fst ∨ key ∈ keys →
      key ∉ (evictions u i).map Prod.fst)
    (shards : Shards env n) :
    ∃ shards', handleMSet self order evictions (pairArgs pairs) shards = (Aof.replyOk, shards') ∧
      (handleMGet self' order' (keys.map bulk) shards').1 = replyStrings
        (keys.map fun key => (lastValue pairs key).or (shards (route key) key).get.1) ∧
      ∀ pair ∈ pairs, (shards' (route pair.1) pair.1).data .strings = lastValue pairs pair.1 ∧
        ∀ u, u ≠ route pair.1 → shards' u pair.1 = shards u pair.1 := by
  have hworker : ∀ (v : Fin n) key, key ≠ [] → workerOf v key = route key := by
    intro v key hkey
    have hslot := cfg.routeToWorker_eq (hcount ▸ self.pos) hkey w
    rw [hcount] at hslot
    exact Fin.ext ((hroute key hkey).trans hslot).symm
  obtain ⟨shards', hset, hwritten⟩ := handleMSet_spec horder self hpairs evictions shards
  have hfilter := fun u key hkey => written_filter (hwritten u key fun i => hkept u i key hkey)
  refine ⟨shards', hset, ?_, fun pair hpair => ?_⟩
  · rw [handleMGet_fst horder' self' hkeys]
    refine congrArg replyStrings (map_congr_left fun key hkey => ?_)
    have hkey' := hfilter (route key) key (.inr hkey)
    rw [if_pos (hworker self key (hne key hkey))] at hkey'
    rw [hworker self' key (hne key hkey)]
    exact hkey'.get
  · have hname : pair.1 ∈ pairs.map Prod.fst := mem_map_of_mem hpair
    have hown := hworker self pair.1 (hnames pair hpair)
    refine ⟨?_, fun u hu => ?_⟩
    · have hkey := hfilter (route pair.1) pair.1 (.inl hname)
      obtain ⟨value, hvalue⟩ := exists_lastValue hpair
      rw [if_pos hown, Written, hvalue] at hkey
      exact hkey.trans hvalue.symm
    · have hkey := hfilter u pair.1 (.inl hname)
      rwa [if_neg fun h => hu (h.symm.trans hown)] at hkey

def twice : List (Bytes × Bytes) :=
  [(ascii "a", ascii "1"), (ascii "b", ascii "2"), (ascii "a", ascii "3")]

theorem mGet_mSet_twice :
    ∃ shards', handleMSet 0 [1, 0] (fun _ _ => []) (pairArgs twice)
        (fun _ => Store.empty : Shards simpleDatabase 2) = (Aof.replyOk, shards') ∧
      (handleMGet 1 [0, 1] ([ascii "c", ascii "a"].map bulk) shards').1 =
        replyStrings [none, some (ascii "3")] := by
  have hroute : ∀ key, key ≠ [] →
      (workerOf (0 : Fin 2) key : ℕ) = (sampleConfig 2).routeToWorker 0 key := fun key hkey =>
    ((sampleConfig 2).routeToWorker_eq (by decide) hkey 0).symm
  obtain ⟨shards', hset, hget, -⟩ := @mGet_mSet simpleDatabase Bytes (sampleConfig 2) 0 2 rfl
    (workerOf 0) hroute 0 1 [1, 0] [0, 1] (by decide) (by decide) twice (by decide) (by decide)
    [ascii "c", ascii "a"] (by decide) (by decide) (fun _ _ => []) (fun _ _ _ _ => not_mem_nil)
    (fun _ => Store.empty)
  exact ⟨shards', hset, hget⟩

end MultiKey
