/-
`BITOP`: bitwise operations on several strings.

With several workers, each of them is asked for the value of every source, and answers with an
empty string for those it does not have.  The answers are gone through in the order of the
workers, and a later one replaces an earlier one: what is left is that of the last worker.

* `agrees_iff` — on which sources the command does the same as on a single database.
-/
import AstraDB.CrossShard
import Mathlib.Data.List.GetD

open List CrossShard

namespace BitOp

variable {env : DatabaseEnv} {n : ℕ}

/-! ### The operations -/

/-- The loop over the sources at a position; a source that is too short counts as zero. -/
def opAt (op : UInt8 → UInt8 → UInt8) (start : UInt8) (sources : List Bytes) (i : ℕ) : UInt8 :=
  (sources.map (·.getD i 0)).foldl op start

def opBytes (op : UInt8 → UInt8 → UInt8) (start : UInt8) (sources : List Bytes) (maxLen : ℕ) :
    Bytes :=
  (range maxLen).map (opAt op start sources)

/-- There is a null behind the end of a string, and nothing may be read behind that one. -/
def notBytes (source : Bytes) (maxLen : ℕ) : Option Bytes :=
  if maxLen ≤ source.length + 1 then some ((range maxLen).map fun i => ~~~source.getD i 0)
  else none

/-- The bytes of the result, or an error; nothing if the behaviour is undefined. -/
def perform (operation : Bytes) (sources : List Bytes) (maxLen : ℕ) :
    Option (Except Bytes Bytes) :=
  if operation = ascii "AND" then some (.ok (opBytes (· &&& ·) 0xFF sources maxLen))
  else if operation = ascii "OR" then some (.ok (opBytes (· ||| ·) 0 sources maxLen))
  else if operation = ascii "XOR" then some (.ok (opBytes (· ^^^ ·) 0 sources maxLen))
  else if operation = ascii "NOT" then
    match sources with
    | [source] => (notBytes source maxLen).map .ok
    | _ => some (.error (ascii "ERR BITOP NOT must be called with a single source key"))
  else some (.error (ascii "ERR syntax error, unknown BITOP operation"))

/-! ### The command -/

/-- What a worker answers: the value of each of the keys, or an empty string. -/
def workerValues : List Bytes → Store env → List (Bytes × Bytes) × Store env
  | [], db => ([], db)
  | key :: keys, db =>
    let (value, db) := db.onKey key Stored.get
    let (values, db) := workerValues keys db
    ((key, value.getD []) :: values, db)

/-- The answer of a worker replaces the sources so far. -/
def merge (keys : List Bytes) (state : List Bytes × ℕ) (values : List (Bytes × Bytes)) :
    List Bytes × ℕ :=
  let found := keys.map fun key => (values.find? fun value => value.1 == key).map Prod.snd
  (List.zipWith Option.getD found state.1,
    found.foldl (fun maxLen value => max maxLen (value.elim 0 List.length)) state.2)

def mergeAll (keys : List Bytes) (answers : List (List (Bytes × Bytes))) : List Bytes × ℕ :=
  answers.foldl (merge keys) (replicate keys.length [], 0)

def longest (sources : List Bytes) : ℕ :=
  sources.foldl (fun maxLen source => max maxLen source.length) 0

/-- `worker` is the one that stores the result, and `victims` are the keys that are evicted. -/
def finish (result : Except Bytes Bytes) (destkey : Bytes) (worker : Fin n)
    (victims : List (Bytes × KeyType)) (shards : Shards env n) : CommandResult × Shards env n :=
  match result with
  | .error err => (.ofError err, shards)
  | .ok result =>
    (Aof.replyInteger (Int64.ofNat result.length),
      Function.update shards worker ((shards worker).set destkey result victims))

def workerOf (n : ℕ) (key : Bytes) : Fin (n + 1) :=
  ⟨HashSlotCalculator.calculateWithTag key % (n + 1), Nat.mod_lt _ n.succ_pos⟩

/-- On the worker `self` of `n + 1`; nothing if the behaviour is undefined. -/
def bitOp (operation destkey : Bytes) (keys : List Bytes) (self : Fin (n + 1))
    (victims : List (Bytes × KeyType)) (shards : Shards env (n + 1)) :
    Option (CommandResult × Shards env (n + 1)) :=
  if 0 < n then
    let (sources, maxLen) :=
      mergeAll keys ((finRange (n + 1)).map fun u => (workerValues keys (shards u)).1)
    (perform operation sources maxLen).map fun result =>
      finish result destkey (workerOf n destkey) victims
        fun u => (workerValues keys (shards u)).2
  else
    let (values, db) := workerValues keys (shards self)
    let sources := values.map Prod.snd
    (perform operation sources (longest sources)).map fun result =>
      finish result destkey self victims (Function.update shards self db)

def handleBitOp (args : List CommandArg) (self : Fin (n + 1)) (victims : List (Bytes × KeyType))
    (shards : Shards env (n + 1)) : Option (CommandResult × Shards env (n + 1)) :=
  match args with
  | operation :: destkey :: key :: keys =>
    bitOp operation.value destkey.value ((key :: keys).map CommandArg.value) self victims shards
  | _ => some (.ofError (Aof.wrongNumber (ascii "bitop")), shards)

/-! ### The values -/

/-- The value that `Get` finds, or an empty string. -/
def valueAt (db : Store env) (key : Bytes) : Bytes := ((db.onKey key Stored.get).1).getD []

theorem workerValues_fst (keys : List Bytes) (db : Store env) :
    (workerValues keys db).1 = keys.map fun key => (key, valueAt db key) := by
  induction keys generalizing db with
  | nil => rfl
  | cons key keys ih =>
    have hsame : ∀ k, valueAt (db.onKey key Stored.get).2 k = valueAt db k := fun k => by
      rw [valueAt, Store.get_get, valueAt]
    rw [workerValues]
    dsimp only
    rw [ih, map_cons]
    simp only [hsame]
    rfl

theorem valueAt_split {owner : Bytes → Fin n} (db : Store env) (worker : Fin n) (key : Bytes) :
    valueAt (db.split owner worker) key = if owner key = worker then valueAt db key else [] := by
  split
  · next heq =>
    rw [valueAt, Store.onKey, ← heq, Store.split_owner]
    rfl
  · next hne =>
    rw [valueAt, Store.onKey, Store.split_of_ne hne]
    have hempty : (Stored.empty : Stored env).get.1 = none := by
      unfold Stored.get Stored.readThrough
      dsimp only [Stored.empty]
      split <;> rfl
    rw [hempty]
    rfl

/-! ### The sources that are left -/

variable {keys : List Bytes} {destkey : Bytes} {victims : List (Bytes × KeyType)}

theorem find?_map_of_mem {key : Bytes} (h : key ∈ keys) (value : Bytes → Bytes) :
    (keys.map fun k => (k, value k)).find? (fun v => v.1 == key) = some (key, value key) := by
  induction keys with
  | nil => exact absurd h not_mem_nil
  | cons k keys ih =>
    rw [map_cons, List.find?_cons]
    by_cases heq : k = key
    · simp [heq]
    · rw [beq_false_of_ne heq]
      exact ih ((mem_cons.mp h).resolve_left (Ne.symm heq))

theorem merge_eq (keys : List Bytes) {state : List Bytes × ℕ}
    (hlength : state.1.length = keys.length) (value : Bytes → Bytes) :
    merge keys state (keys.map fun key => (key, value key)) =
      (keys.map value, keys.foldl (fun maxLen key => max maxLen (value key).length) state.2) := by
  have hfound : (keys.map fun key => ((keys.map fun k => (k, value k)).find?
      fun v => v.1 == key).map Prod.snd) = keys.map fun key => some (value key) :=
    map_congr_left fun key hkey => by rw [find?_map_of_mem hkey, Option.map_some]
  rw [merge, hfound]
  refine Prod.ext ?_ ?_
  · dsimp only
    refine ext_getElem (by simp [hlength]) fun i hi hi' => ?_
    simp
  · dsimp only
    rw [foldl_map]
    rfl

theorem foldl_max_le_iff {α : Type} (length : α → ℕ) (l : List α) (start bound : ℕ) :
    l.foldl (fun maxLen a => max maxLen (length a)) start ≤ bound ↔
      start ≤ bound ∧ ∀ a ∈ l, length a ≤ bound := by
  induction l generalizing start with
  | nil => simp
  | cons a l ih => rw [foldl_cons, ih, max_le_iff, forall_mem_cons, and_assoc]

theorem foldl_merge (keys : List Bytes) (workers : List (Bytes → Bytes))
    {state : List Bytes × ℕ} (hlength : state.1.length = keys.length) (bound : ℕ) :
    let after := (workers.map fun value => keys.map fun key => (key, value key)).foldl
      (merge keys) state
    after.1.length = keys.length ∧ (after.2 ≤ bound ↔
      state.2 ≤ bound ∧ ∀ value ∈ workers, ∀ key ∈ keys, (value key).length ≤ bound) := by
  induction workers generalizing state with
  | nil => simp [hlength]
  | cons value workers ih =>
    intro after
    obtain ⟨hafter, hbound⟩ := @ih (merge keys state (keys.map fun key => (key, value key)))
      (by rw [merge_eq keys hlength, length_map])
    refine ⟨hafter, hbound.trans ?_⟩
    rw [merge_eq keys hlength, foldl_max_le_iff, forall_mem_cons, and_assoc]

theorem mergeAll_eq (keys : List Bytes) (owner : Bytes → Fin (n + 1)) (db : Store env) :
    mergeAll keys ((finRange (n + 1)).map fun u =>
        (workerValues keys (db.split owner u)).1) =
      (keys.map fun key => if owner key = Fin.last n then valueAt db key else [],
        longest (keys.map (valueAt db))) := by
  have hanswers : (finRange (n + 1)).map (fun u =>
      (workerValues keys (db.split owner u)).1) =
      ((finRange (n + 1)).map fun u => valueAt (db.split owner u)).map
        fun value => keys.map fun key => (key, value key) := by
    rw [map_map]
    exact map_congr_left fun u _ => workerValues_fst keys _
  have hlength : (replicate keys.length ([] : Bytes), 0).1.length = keys.length :=
    length_replicate
  rw [mergeAll, hanswers]
  refine Prod.ext ?_ (eq_of_forall_ge_iff fun bound => ?_)
  · rw [finRange_succ_last, map_append, map_append, foldl_append]
    have hearlier := foldl_merge keys (((finRange n).map Fin.castSucc).map fun u =>
      valueAt (db.split owner u)) hlength 0
    refine (congrArg Prod.fst (merge_eq keys hearlier.1 _)).trans ?_
    exact map_congr_left fun key _ => valueAt_split db (Fin.last n) key
  · rw [(foldl_merge keys _ hlength bound).2, longest, foldl_map, foldl_max_le_iff]
    refine and_congr_right fun _ => ?_
    simp only [forall_mem_map, valueAt_split]
    constructor
    · intro h key hkey
      have howner := h (owner key) (mem_finRange _) key hkey
      rwa [if_pos rfl] at howner
    · intro h u _ key hkey
      split
      · exact h key hkey
      · exact Nat.zero_le bound

/-! ### What is compared -/

inductive BitOperation
  | and
  | or
  | xor
  | not
  deriving DecidableEq, Repr

def BitOperation.text : BitOperation → Bytes
  | and => ascii "AND"
  | or => ascii "OR"
  | xor => ascii "XOR"
  | not => ascii "NOT"

/-- The same reply, and the same value of the destination unless it is an error. -/
def Agrees (destkey : Bytes) (outcome : Option (CommandResult × Shards env (n + 1)))
    (alone : Option (CommandResult × Shards env 1)) : Prop :=
  ∃ reply shards db, outcome = some (reply, shards) ∧ alone = some (reply, db) ∧
    (reply.success = true → (shards (workerOf n destkey) destkey).data .strings =
      (db 0 destkey).data .strings)

/-- The sources of the last worker. -/
def left (owner : Bytes → Fin (n + 1)) (db : Store env) (keys : List Bytes) : List Bytes :=
  keys.map fun key => if owner key = Fin.last n then valueAt db key else []

theorem single_worker (u v : Fin (0 + 1)) : u = v := Fin.ext (by omega)

theorem left_single (owner : Bytes → Fin 1) (db : Store env) (keys : List Bytes) :
    left owner db keys = keys.map (valueAt db) :=
  map_congr_left fun key _ => if_pos (single_worker (owner key) (Fin.last 0))

theorem handleBitOp_eq (hkeys : keys ≠ []) (owner : Bytes → Fin (n + 1)) (operation destkey : Bytes)
    (self : Fin (n + 1)) (victims : List (Bytes × KeyType)) (db : Store env) :
    ∃ shards, handleBitOp (keyArgs (operation :: destkey :: keys)) self victims
        (db.split owner) =
      (perform operation (left owner db keys) (longest (keys.map (valueAt db)))).map
        fun result => finish result destkey (workerOf n destkey) victims shards := by
  have hhandle : handleBitOp (keyArgs (operation :: destkey :: keys)) self victims
      (db.split owner) = bitOp operation destkey keys self victims (db.split owner) := by
    obtain ⟨key, keys, rfl⟩ := exists_cons_of_ne_nil hkeys
    have hvalues : (keyArgs (key :: keys)).map CommandArg.value = key :: keys := by
      rw [keyArgs, map_map]
      exact map_id (key :: keys)
    exact congrArg (bitOp operation destkey · self victims (db.split owner)) hvalues
  rw [hhandle]
  unfold bitOp
  by_cases hn : 0 < n
  · rw [if_pos hn, mergeAll_eq]
    exact ⟨_, rfl⟩
  · obtain rfl : n = 0 := Nat.eq_zero_of_not_pos hn
    have hself : self = workerOf 0 destkey := single_worker _ _
    have hsources : (workerValues keys (db.split owner self)).1.map Prod.snd =
        keys.map (valueAt db) := by
      rw [workerValues_fst, map_map]
      exact map_congr_left fun key _ =>
        (valueAt_split db self key).trans (if_pos (single_worker (owner key) self))
    rw [if_neg hn, left_single]
    dsimp only
    rw [hsources, ← hself]
    exact ⟨_, rfl⟩

theorem data_finish (hkept : destkey ∉ victims.map Prod.fst) (worker : Fin n)
    (shards : Shards env n) (result : Bytes) :
    ((finish (.ok result) destkey worker victims shards).2 worker destkey).data .strings =
      some result := by
  have hset : (finish (.ok result) destkey worker victims shards).2 worker =
      (shards worker).set destkey result victims := Function.update_self ..
  rw [hset]
  exact Store.data_set hkept result _

theorem finish_injective {m : ℕ} {victims' : List (Bytes × KeyType)}
    (hkept : destkey ∉ victims.map Prod.fst) (hkept' : destkey ∉ victims'.map Prod.fst)
    {worker : Fin n} {worker' : Fin m} {shards : Shards env n} {shards' : Shards env m}
    {result result' : Except Bytes Bytes}
    (hreply : (finish result destkey worker victims shards).1 =
      (finish result' destkey worker' victims' shards').1)
    (hstored : (finish result destkey worker victims shards).1.success = true →
      ((finish result destkey worker victims shards).2 worker destkey).data .strings =
        ((finish result' destkey worker' victims' shards').2 worker' destkey).data .strings) :
    result = result' := by
  cases result with
  | error err =>
    cases result' with
    | error err' => exact congrArg Except.error (congrArg CommandResult.error hreply)
    | ok bytes' => exact absurd (congrArg CommandResult.success hreply) Bool.false_ne_true
  | ok bytes =>
    cases result' with
    | error err' => exact absurd (congrArg CommandResult.success hreply).symm Bool.false_ne_true
    | ok bytes' =>
      have hsame := hstored rfl
      rw [data_finish hkept, data_finish hkept'] at hsame
      exact congrArg Except.ok (Option.some.inj hsame)

theorem agrees_iff_perform (hkeys : keys ≠ []) (owner : Bytes → Fin (n + 1)) (operation : Bytes)
    (self : Fin (n + 1)) {victims' : List (Bytes × KeyType)}
    (hkept : destkey ∉ victims.map Prod.fst) (hkept' : destkey ∉ victims'.map Prod.fst)
    (db : Store env) :
    let args := keyArgs (operation :: destkey :: keys)
    let maxLen := longest (keys.map (valueAt db))
    Agrees destkey (handleBitOp args self victims (db.split owner))
        (handleBitOp args 0 victims' (db.split fun _ => (0 : Fin 1))) ↔
      ∃ result, perform operation (left owner db keys) maxLen = some result ∧
        perform operation (keys.map (valueAt db)) maxLen = some result := by
  intro args maxLen
  obtain ⟨shards, hshards⟩ := handleBitOp_eq hkeys owner operation destkey self victims db
  obtain ⟨alone, halone⟩ := handleBitOp_eq hkeys (fun _ => (0 : Fin 1)) operation destkey 0
    victims' db
  rw [left_single, single_worker (workerOf 0 destkey) 0] at halone
  constructor
  · rintro ⟨reply, after, after', houtcome, houtcome', hstored⟩
    rw [hshards] at houtcome
    rw [halone] at houtcome'
    obtain ⟨result, hresult, hafter⟩ := Option.map_eq_some_iff.mp houtcome
    obtain ⟨result', hresult', hafter'⟩ := Option.map_eq_some_iff.mp houtcome'
    obtain ⟨rfl, rfl⟩ := Prod.mk.inj hafter.symm
    obtain ⟨hreply, rfl⟩ := Prod.mk.inj hafter'.symm
    refine ⟨result, hresult, hresult'.trans (congrArg some ?_)⟩
    exact (finish_injective hkept hkept' hreply hstored).symm
  · rintro ⟨result, hleft, hall⟩
    rw [hshards, halone, hleft, hall]
    cases result with
    | error err => exact ⟨_, _, _, rfl, rfl, fun hsuccess => absurd hsuccess Bool.false_ne_true⟩
    | ok bytes =>
      refine ⟨_, _, _, rfl, rfl, fun _ => ?_⟩
      exact (data_finish hkept _ _ bytes).trans (data_finish hkept' _ _ bytes).symm

/-! ### The operations without the other workers -/

section

variable {op : UInt8 → UInt8 → UInt8}

theorem opAt_cons [Std.Associative op] (hzero : ∀ x, op 0 x = x) (hzero' : ∀ x, op x 0 = x)
    (source : Bytes) (sources : List Bytes) (i : ℕ) :
    opAt op 0 (source :: sources) i = op (source.getD i 0) (opAt op 0 sources i) := by
  rw [opAt, map_cons, foldl_cons, hzero]
  calc (sources.map (·.getD i 0)).foldl op (source.getD i 0)
      = (sources.map (·.getD i 0)).foldl op (op (source.getD i 0) 0) := by rw [hzero']
    _ = op (source.getD i 0) (opAt op 0 sources i) := foldl_assoc

theorem opAt_blank [Std.Associative op] (hzero : ∀ x, op 0 x = x) (hzero' : ∀ x, op x 0 = x)
    (here : Bytes → Bool) (value : Bytes → Bytes) (keys : List Bytes) (i : ℕ) :
    opAt op 0 (keys.map fun key => if here key then value key else []) i =
      opAt op 0 ((keys.filter here).map value) i := by
  induction keys with
  | nil => rfl
  | cons key keys ih =>
    rw [map_cons, opAt_cons hzero hzero', ih, filter_cons]
    split
    · rw [map_cons, opAt_cons hzero hzero']
    · exact hzero _

theorem opAt_partition [Std.Associative op] [Std.Commutative op] (hzero : ∀ x, op 0 x = x)
    (hzero' : ∀ x, op x 0 = x) (here : Bytes → Bool) (value : Bytes → Bytes) (keys : List Bytes)
    (i : ℕ) :
    opAt op 0 (keys.map value) i = op (opAt op 0 ((keys.filter (!here ·)).map value) i)
      (opAt op 0 ((keys.filter here).map value) i) := by
  induction keys with
  | nil => exact (hzero 0).symm
  | cons key keys ih =>
    rw [map_cons, opAt_cons hzero hzero', ih, filter_cons, filter_cons]
    cases here key with
    | true =>
      rw [Bool.not_true, if_neg Bool.false_ne_true, if_pos rfl, map_cons,
        opAt_cons hzero hzero']
      ac_rfl
    | false =>
      rw [Bool.not_false, if_pos rfl, if_neg Bool.false_ne_true, map_cons,
        opAt_cons hzero hzero']
      ac_rfl

end

theorem opBytes_eq_iff (op : UInt8 → UInt8 → UInt8) (start : UInt8) (sources sources' : List Bytes)
    (maxLen : ℕ) :
    opBytes op start sources maxLen = opBytes op start sources' maxLen ↔
      ∀ i < maxLen, opAt op start sources i = opAt op start sources' i := by
  rw [opBytes, opBytes, map_inj_left]
  exact forall_congr' fun i => by rw [mem_range]

theorem foldl_and_zero (l : List UInt8) : l.foldl (· &&& ·) 0 = 0 := by
  induction l with
  | nil => rfl
  | cons x l ih => rw [foldl_cons, UInt8.zero_and, ih]

theorem opAt_and_of_mem {sources : List Bytes} {source : Bytes} (h : source ∈ sources) {i : ℕ}
    (hzero : source.getD i 0 = 0) (start : UInt8) : opAt (· &&& ·) start sources i = 0 := by
  induction sources generalizing start with
  | nil => exact absurd h not_mem_nil
  | cons s sources ih =>
    rcases mem_cons.mp h with rfl | h
    · rw [opAt, map_cons, foldl_cons, hzero, UInt8.and_zero, foldl_and_zero]
    · exact ih h _

/-- The sources of the last worker have the same result. -/
def Suffices (owner : Bytes → Fin (n + 1)) (value : Bytes → Bytes) (keys : List Bytes) :
    BitOperation → Prop
  | .and => (∀ key ∈ keys, owner key = Fin.last n) ∨
    ∀ i < longest (keys.map value), opAt (· &&& ·) 0xFF (keys.map value) i = 0
  | .or =>
    let here := (keys.filter fun key => owner key = Fin.last n).map value
    let elsewhere := (keys.filter fun key => !decide (owner key = Fin.last n)).map value
    ∀ i < longest (keys.map value),
      opAt (· ||| ·) 0 elsewhere i ||| opAt (· ||| ·) 0 here i = opAt (· ||| ·) 0 here i
  | .xor =>
    let elsewhere := (keys.filter fun key => !decide (owner key = Fin.last n)).map value
    ∀ i < longest (keys.map value), opAt (· ^^^ ·) 0 elsewhere i = 0
  | .not => ∀ key, keys = [key] → owner key = Fin.last n ∨ value key = [] ∨ value key = [0]

section

variable (owner : Bytes → Fin (n + 1)) (db : Store env) (keys : List Bytes)

theorem opBytes_and_left_iff :
    opBytes (· &&& ·) 0xFF (left owner db keys) (longest (keys.map (valueAt db))) =
        opBytes (· &&& ·) 0xFF (keys.map (valueAt db)) (longest (keys.map (valueAt db))) ↔
      Suffices owner (valueAt db) keys .and := by
  rw [opBytes_eq_iff, Suffices]
  by_cases hall : ∀ key ∈ keys, owner key = Fin.last n
  · have hleft : left owner db keys = keys.map (valueAt db) :=
      map_congr_left fun key hkey => if_pos (hall key hkey)
    exact iff_of_true (fun i _ => by rw [hleft]) (.inl hall)
  · rw [or_iff_right hall]
    obtain ⟨key, hnot⟩ := not_forall.mp hall
    obtain ⟨hkey, howner⟩ := Classical.not_imp.mp hnot
    have hblank : [] ∈ left owner db keys := mem_map.mpr ⟨key, hkey, if_neg howner⟩
    refine forall₂_congr fun i _ => ?_
    rw [opAt_and_of_mem hblank getD_nil]
    exact eq_comm

/-- The sources elsewhere must not change the result of those here. -/
theorem opBytes_left_iff {op : UInt8 → UInt8 → UInt8} [Std.Associative op] [Std.Commutative op]
    (hzero : ∀ x, op 0 x = x) (hzero' : ∀ x, op x 0 = x) :
    opBytes op 0 (left owner db keys) (longest (keys.map (valueAt db))) =
        opBytes op 0 (keys.map (valueAt db)) (longest (keys.map (valueAt db))) ↔
      let here := (keys.filter fun key => owner key = Fin.last n).map (valueAt db)
      let elsewhere := (keys.filter fun key => !decide (owner key = Fin.last n)).map (valueAt db)
      ∀ i < longest (keys.map (valueAt db)),
        op (opAt op 0 elsewhere i) (opAt op 0 here i) = opAt op 0 here i := by
  rw [opBytes_eq_iff]
  refine forall₂_congr fun i _ => ?_
  have hblank : left owner db keys = keys.map fun key =>
      if decide (owner key = Fin.last n) then valueAt db key else [] :=
    map_congr_left fun key _ => by simp only [decide_eq_true_eq]
  rw [hblank, opAt_blank hzero hzero', opAt_partition hzero hzero'
    (fun key => owner key = Fin.last n) (valueAt db) keys]
  exact eq_comm

theorem xor_eq_right_iff (x y : UInt8) : x ^^^ y = y ↔ x = 0 := by
  refine ⟨fun h => ?_, fun h => by rw [h, UInt8.zero_xor]⟩
  rw [← UInt8.xor_zero (a := x), ← UInt8.xor_self (a := y), ← UInt8.xor_assoc, h]

end

theorem some_ok_iff {α : Type} (a b : α) :
    (∃ result : Except Bytes α, some (.ok a) = some result ∧ some (.ok b) = some result) ↔
      a = b := by
  constructor
  · rintro ⟨result, ha, hb⟩
    exact Except.ok.inj (Option.some.inj (ha.trans hb.symm))
  · rintro rfl
    exact ⟨_, rfl, rfl⟩

theorem notBytes_nil_iff (value : Bytes) :
    (∃ result, notBytes [] value.length = some result ∧
      notBytes value value.length = some result) ↔ value = [] ∨ value = [0] := by
  match value with
  | [] => exact iff_of_true ⟨[], rfl, rfl⟩ (.inl rfl)
  | [x] =>
    have hnil : notBytes [] 1 = some [~~~0] := rfl
    have hvalue : notBytes [x] 1 = some [~~~x] := rfl
    rw [length_singleton, hnil, hvalue]
    constructor
    · rintro ⟨result, hresult, hresult'⟩
      have hx := (List.cons.inj (Option.some.inj (hresult.trans hresult'.symm))).1
      exact .inr (congrArg (fun y => [y]) (UInt8.not_inj.mp hx).symm)
    · rintro (h | h)
      · cases h
      · rw [(List.cons.inj h).1]
        exact ⟨_, rfl, rfl⟩
  | x :: y :: value =>
    have hundefined : notBytes [] (x :: y :: value).length = none :=
      if_neg (by rw [length_cons, length_cons, length_nil]; omega)
    rw [hundefined]
    constructor
    · rintro ⟨_, h, -⟩
      cases h
    · rintro (h | h) <;> cases h

theorem notBytes_self (value : Bytes) : ∃ result, notBytes value value.length = some result :=
  ⟨_, if_pos (Nat.le_succ _)⟩

theorem perform_not_left_iff (owner : Bytes → Fin (n + 1)) (db : Store env) (hkeys : keys ≠ []) :
    (∃ result, perform BitOperation.not.text (left owner db keys)
        (longest (keys.map (valueAt db))) = some result ∧
      perform BitOperation.not.text (keys.map (valueAt db))
        (longest (keys.map (valueAt db))) = some result) ↔
      Suffices owner (valueAt db) keys .not := by
  match keys with
  | [] => exact absurd rfl hkeys
  | [key] =>
    have hlength : longest ([key].map (valueAt db)) = (valueAt db key).length := Nat.zero_max _
    have hmap : ∀ a b : Option Bytes, (∃ result : Except Bytes Bytes,
        a.map .ok = some result ∧ b.map .ok = some result) ↔
        ∃ result, a = some result ∧ b = some result := by
      intro a b
      constructor
      · rintro ⟨result, ha, hb⟩
        obtain ⟨x, hx, rfl⟩ := Option.map_eq_some_iff.mp ha
        obtain ⟨y, hy, hxy⟩ := Option.map_eq_some_iff.mp hb
        exact ⟨x, hx, hy.trans (congrArg some (Except.ok.inj hxy))⟩
      · rintro ⟨result, rfl, rfl⟩
        exact ⟨_, rfl, rfl⟩
    refine (hmap (notBytes _ _) (notBytes _ _)).trans ?_
    rw [hlength, Suffices]
    simp only [List.cons.injEq, and_true, forall_eq']
    by_cases howner : owner key = Fin.last n
    · obtain ⟨result, hresult⟩ := notBytes_self (valueAt db key)
      rw [if_pos howner]
      exact iff_of_true ⟨result, hresult, hresult⟩ (.inl howner)
    · rw [if_neg howner, or_iff_right howner]
      exact notBytes_nil_iff (valueAt db key)
  | key :: key' :: keys =>
    have hsuffices : Suffices owner (valueAt db) (key :: key' :: keys) .not := by
      intro k h
      cases h
    exact iff_of_true ⟨_, rfl, rfl⟩ hsuffices

/-- Where the sources have to be. -/
theorem agrees_iff (env : DatabaseEnv) (n : ℕ) (owner : Bytes → Fin (n + 1)) (db : Store env)
    (op : BitOperation) (destkey : Bytes) (keys : List Bytes) (hkeys : keys ≠ [])
    (self : Fin (n + 1)) (victims victims' : List (Bytes × KeyType))
    (hkept : destkey ∉ victims.map Prod.fst) (hkept' : destkey ∉ victims'.map Prod.fst) :
    let args := keyArgs (op.text :: destkey :: keys)
    Agrees destkey (handleBitOp args self victims (db.split owner))
        (handleBitOp args 0 victims' (db.split fun _ => (0 : Fin 1))) ↔
      Suffices owner (valueAt db) keys op := by
  refine (agrees_iff_perform hkeys owner op.text self hkept hkept' db).trans ?_
  cases op with
  | and => exact (some_ok_iff _ _).trans (opBytes_and_left_iff owner db keys)
  | or =>
    exact (some_ok_iff _ _).trans (opBytes_left_iff owner db keys (fun _ => UInt8.zero_or)
      fun _ => UInt8.or_zero)
  | xor =>
    refine (some_ok_iff _ _).trans ((opBytes_left_iff owner db keys (fun _ => UInt8.zero_xor)
      fun _ => UInt8.xor_zero).trans ?_)
    exact forall₂_congr fun _ _ => xor_eq_right_iff _ _
  | not => exact perform_not_left_iff owner db hkeys

def oneString : Store simpleDatabase := Store.empty.set (ascii "a") [1] []

theorem agrees_iff_oneString :
    Agrees (ascii "d")
        (handleBitOp (CrossShard.keyArgs [ascii "NOT", ascii "d", ascii "a"]) (0 : Fin 2) []
          (oneString.split fun _ => (1 : Fin 2)))
        (handleBitOp (CrossShard.keyArgs [ascii "NOT", ascii "d", ascii "a"]) 0 []
          (oneString.split fun _ => (0 : Fin 1))) :=
  (agrees_iff simpleDatabase 1 (fun _ => 1) oneString .not (ascii "d") [ascii "a"]
    (cons_ne_nil _ _) 0 [] [] not_mem_nil not_mem_nil).mpr fun _ _ => .inl rfl

/-- On the first of two workers, the string is lost. -/
theorem bitOp_or_lost :
    (handleBitOp (CrossShard.keyArgs [ascii "OR", ascii "d", ascii "a"]) (0 : Fin 2) []
        (oneString.split fun _ => (0 : Fin 2))).map
        (fun after => valueAt (after.2 (workerOf 1 (ascii "d"))) (ascii "d")) = some [0] ∧
      (handleBitOp (CrossShard.keyArgs [ascii "OR", ascii "d", ascii "a"]) (0 : Fin 1) []
        (oneString.split fun _ => (0 : Fin 1))).map
        (fun after => valueAt (after.2 0) (ascii "d")) = some [1] := by
  constructor <;> decide +kernel

end BitOp
