/-
Lists: `LPUSH`, `RPUSH` and `RPOPLPUSH`.

`LPUSH` pushes its last argument first, and replies, as `RPUSH`, with the number of its
arguments; `RPOPLPUSH` pushes at the right.  No client is blocked on the keys.

* `lists_iff` — when the lists and replies are those that single pushes, and a push at the left,
  would give.
-/
import AstraDB.Aof

open List Store Aof

namespace Store

variable {env : DatabaseEnv}

/-- A list that gets empty is removed. -/
def rPop (key : Bytes) (now : Int64) (db : Store env) : Option Bytes × Store env :=
  let (list, db) := db.validRead .lists key now
  match list with
  | none => (none, db)
  | some (list : List Bytes) =>
    (list.getLast?,
      if list.dropLast = [] then db.modify key fun s => (s.remove .lists).unregisterKey
      else db.modify key fun s => s.put .lists list.dropLast)

/-- The value is pushed at the right. -/
def rPopLPush (source destination : Bytes) (now : Int64) (victims : List (Bytes × KeyType))
    (db : Store env) : Option Bytes × Store env :=
  let (value, db) := db.rPop source now
  match value with
  | none => (none, db)
  | some value => (some value, (db.rPush destination value victims).2)

end Store

namespace ListCommands

variable {env : DatabaseEnv}

/-- The loop over the values, up to one of the wrong type. -/
def pushAll (push : Bytes → List (Bytes × KeyType) → Store env → Bool × Store env) :
    List CommandArg → Evictions → Store env → Bool × Store env
  | [], _, db => (true, db)
  | value :: values, evictions, db =>
    if !value.isBulkString then (false, db)
    else pushAll push values (fun n => evictions (n + 1)) (push value.value (evictions 0) db).2

/-- `LPUSH` and `RPUSH`; `order` is the order in which the values are pushed. -/
def handlePush (name : Bytes) (order : List CommandArg → List CommandArg)
    (push : Bytes → Bytes → List (Bytes × KeyType) → Store env → Bool × Store env)
    (args : List CommandArg) (evictions : Evictions) (db : Store env) :
    CommandResult × Store env :=
  match args with
  | [] => (.ofError (Aof.wrongNumber name), db)
  | key :: values =>
    if !key.isBulkString then (.ofError (ascii "ERR wrong type of key argument"), db)
    else
      let (done, db) := pushAll (push key.value) (order values) evictions db
      (if done then Aof.replyInteger (Int64.ofNat values.length)
        else .ofError (ascii "ERR wrong type of value argument"), db)

/-- From the last value to the first. -/
def handleLPush : List CommandArg → Evictions → Store env → CommandResult × Store env :=
  handlePush (ascii "LPUSH") List.reverse Store.lPush

def handleRPush : List CommandArg → Evictions → Store env → CommandResult × Store env :=
  handlePush (ascii "RPUSH") id Store.rPush

def handleRPopLPush (args : List CommandArg) (now : Int64) (victims : List (Bytes × KeyType))
    (db : Store env) : CommandResult × Store env :=
  match args with
  | [source, dest] =>
    if !source.isBulkString then (.ofError (ascii "ERR wrong type of source argument"), db)
    else if !dest.isBulkString then
      (.ofError (ascii "ERR wrong type of destination argument"), db)
    else
      let (value, db) := db.rPopLPush source.value dest.value now victims
      (Aof.replyString value, db)
  | _ => (.ofError (Aof.wrongNumber (ascii "RPOPLPUSH")), db)

/-- The list of a key, which is empty if there is none. -/
def listAt (db : Store env) (key : Bytes) : List Bytes := Option.getD ((db key).data .lists) []

variable {key : Bytes}

theorem listAt_of_data {db : Store env} {list : List Bytes} (h : (db key).data .lists = some list) :
    listAt db key = list := by
  rw [listAt, h]
  rfl

theorem listAt_congr {db db' : Store env} (h : db key = db' key) :
    listAt db key = listAt db' key := by rw [listAt, listAt, h]

def bulk (text : Bytes) : CommandArg := .ofString text .kBulkString

def pushArgs (key : Bytes) (elements : List Bytes) : List CommandArg :=
  bulk key :: elements.map bulk

def Kept (key : Bytes) (evictions : Evictions) : Prop :=
  ∀ n, key ∉ (evictions n).map Prod.fst

/-- A push that changes the list of its key like this. -/
def Pushes (push : Bytes → Bytes → List (Bytes × KeyType) → Store env → Bool × Store env)
    (edit : List Bytes → Bytes → List Bytes) : Prop :=
  ∀ key value victims db, key ∉ victims.map Prod.fst →
    listAt (push key value victims db).2 key = edit (listAt db key) value

theorem pushes_lPush : Pushes (@lPush env) fun list value => value :: list :=
  fun _ _ _ _ hkey => listAt_of_data (data_extend hkey)

theorem pushes_rPush : Pushes (@rPush env) fun list value => list ++ [value] :=
  fun _ _ _ _ hkey => listAt_of_data (data_extend hkey)

section

variable {push : Bytes → Bytes → List (Bytes × KeyType) → Store env → Bool × Store env}
  {edit : List Bytes → Bytes → List Bytes} {key : Bytes} {evictions : Evictions}

theorem pushAll_eq (hpush : Pushes push edit) (elements : List Bytes) (hkept : Kept key evictions)
    (db : Store env) : (pushAll (push key) (elements.map bulk) evictions db).1 = true ∧
      listAt (pushAll (push key) (elements.map bulk) evictions db).2 key =
        elements.foldl edit (listAt db key) := by
  induction elements generalizing evictions db with
  | nil => exact ⟨rfl, rfl⟩
  | cons element elements ih =>
    obtain ⟨hdone, hlist⟩ := ih (fun n => hkept (n + 1)) (push key element (evictions 0) db).2
    rw [hpush key element (evictions 0) db (hkept 0)] at hlist
    exact ⟨hdone, hlist⟩

theorem handlePush_eq (hpush : Pushes push edit) {elements ordered : List Bytes}
    {order : List CommandArg → List CommandArg}
    (horder : order (elements.map bulk) = ordered.map bulk) (name : Bytes)
    (hkept : Kept key evictions) (db : Store env) :
    (handlePush name order push (pushArgs key elements) evictions db).1 =
        replyInteger (Int64.ofNat elements.length) ∧
      listAt (handlePush name order push (pushArgs key elements) evictions db).2 key =
        ordered.foldl edit (listAt db key) := by
  obtain ⟨hdone, hlist⟩ := pushAll_eq hpush ordered hkept db
  have hhandle : handlePush name order push (pushArgs key elements) evictions db =
      (replyInteger (Int64.ofNat elements.length),
        (pushAll (push key) (ordered.map bulk) evictions db).2) := by
    refine Prod.ext ?_ ?_
    · change (if (pushAll (push key) (order (elements.map bulk)) evictions db).1 then
        replyInteger (Int64.ofNat (elements.map bulk).length) else _) = _
      rw [horder, hdone, if_pos rfl, length_map]
    · change (pushAll (push key) (order (elements.map bulk)) evictions db).2 = _
      rw [horder]
  rw [hhandle]
  exact ⟨rfl, hlist⟩

end

variable (elements : List Bytes)

theorem handleLPush_eq {evictions : Evictions} (hkept : Kept key evictions) (db : Store env) :
    (handleLPush (pushArgs key elements) evictions db).1 =
        replyInteger (Int64.ofNat elements.length) ∧
      listAt (handleLPush (pushArgs key elements) evictions db).2 key =
        elements ++ listAt db key := by
  obtain ⟨hreply, hlist⟩ := handlePush_eq pushes_lPush
    (@map_reverse _ _ bulk elements).symm (ascii "LPUSH") hkept db
  refine ⟨hreply, hlist.trans ?_⟩
  -- the values are pushed in reverse, and each of them in front of the ones before
  rw [foldl_flip_cons_eq_append', reverse_reverse]

theorem handleRPush_eq {evictions : Evictions} (hkept : Kept key evictions) (db : Store env) :
    (handleRPush (pushArgs key elements) evictions db).1 =
        replyInteger (Int64.ofNat elements.length) ∧
      listAt (handleRPush (pushArgs key elements) evictions db).2 key =
        listAt db key ++ elements := by
  obtain ⟨hreply, hlist⟩ := handlePush_eq pushes_rPush (id_eq (elements.map bulk))
    (ascii "RPUSH") hkept db
  refine ⟨hreply, hlist.trans ?_⟩
  rw [foldl_append_eq_append, ← flatMap_def, flatMap_singleton']

def pushEach (handle : List CommandArg → Evictions → Store env → CommandResult × Store env)
    (key : Bytes) : List Bytes → (ℕ → Evictions) → Store env → Store env
  | [], _, db => db
  | element :: elements, evictions, db =>
    pushEach handle key elements (fun n => evictions (n + 1))
      (handle (pushArgs key [element]) (evictions 0) db).2

theorem listAt_pushEach_lPush {evictions : ℕ → Evictions}
    (hkept : ∀ n, Kept key (evictions n)) (db : Store env) :
    listAt (pushEach handleLPush key elements evictions db) key =
      elements.reverse ++ listAt db key := by
  induction elements generalizing evictions db with
  | nil => rfl
  | cons element elements ih =>
    rw [pushEach, ih fun n => hkept (n + 1), (handleLPush_eq [element] (hkept 0) db).2]
    simp

theorem listAt_pushEach_rPush {evictions : ℕ → Evictions}
    (hkept : ∀ n, Kept key (evictions n)) (db : Store env) :
    listAt (pushEach handleRPush key elements evictions db) key =
      listAt db key ++ elements := by
  induction elements generalizing evictions db with
  | nil => exact (append_nil _).symm
  | cons element elements ih =>
    rw [pushEach, ih fun n => hkept (n + 1), (handleRPush_eq [element] (hkept 0) db).2]
    simp

section

variable {db : Store env} {source dest x : Bytes} {rest : List Bytes} {now : Int64}
  {victims : List (Bytes × KeyType)}

theorem rPop_eq (hvalid : (db source).isValid now = (true, db source))
    (hsource : (db source).data .lists = some (rest ++ [x])) :
    (db.rPop source now).1 = some x ∧ listAt (db.rPop source now).2 source = rest ∧
      ∀ other, other ≠ source → (db.rPop source now).2 other = db other := by
  rw [rPop, validRead_of_valid hvalid, hsource]
  dsimp only
  rw [List.getLast?_concat, dropLast_concat]
  refine ⟨rfl, ?_, fun other hother => ?_⟩
  · split
    · next hrest =>
      rw [listAt, modify_self, hrest]
      exact congrArg (Option.getD · []) (Function.update_self Container.lists none (db source).data)
    · refine listAt_of_data ?_
      rw [modify_self]
      exact Stored.data_put ..
  · split <;> exact modify_of_ne hother ..

theorem rPush_of_ne (hne : source ≠ dest) (hkept : source ∉ victims.map Prod.fst)
    (db : Store env) : (db.rPush dest x victims).2 source = db source :=
  extend_of_ne hne hkept db

def target (db : Store env) (source dest : Bytes) (rest : List Bytes) : List Bytes :=
  if source = dest then rest else listAt db dest

/-- The last element of the source gets the last one of the destination. -/
theorem handleRPopLPush_eq (hvalid : (db source).isValid now = (true, db source))
    (hsource : (db source).data .lists = some (rest ++ [x]))
    (hkept : source ∉ victims.map Prod.fst) (hkept' : dest ∉ victims.map Prod.fst) :
    let after := handleRPopLPush [bulk source, bulk dest] now victims db
    after.1 = replyString (some x) ∧ (source ≠ dest → listAt after.2 source = rest) ∧
      listAt after.2 dest = target db source dest rest ++ [x] := by
  obtain ⟨hvalue, hrest, hothers⟩ := rPop_eq hvalid hsource
  have hafter : handleRPopLPush [bulk source, bulk dest] now victims db =
      (replyString (some x), ((db.rPop source now).2.rPush dest x victims).2) := by
    have hmove : db.rPopLPush source dest now victims =
        (some x, ((db.rPop source now).2.rPush dest x victims).2) := by
      rw [rPopLPush]
      dsimp only
      rw [hvalue]
    change (replyString (db.rPopLPush source dest now victims).1,
      (db.rPopLPush source dest now victims).2) = _
    rw [hmove]
  rw [hafter]
  refine ⟨rfl, fun hne => ?_, ?_⟩
  · exact (listAt_congr (rPush_of_ne hne hkept _)).trans hrest
  · refine (pushes_rPush dest x victims _ hkept').trans ?_
    rw [target]
    split
    · next heq => rw [← heq, hrest]
    · next hne => rw [listAt_congr (hothers dest (Ne.symm hne))]

end

theorem concat_eq_cons_iff {α : Type} (x : α) (l : List α) :
    l ++ [x] = x :: l ↔ ∀ y ∈ l, y = x := by
  induction l with
  | nil => simp
  | cons y l ih =>
    rw [cons_append, List.cons.injEq, forall_mem_cons]
    refine and_congr_right fun hy => ?_
    rw [hy, ih]

theorem replyInteger_length_iff {n m : ℕ} (hm : m < 2 ^ 63) (hle : n ≤ m) :
    replyInteger (Int64.ofNat n) = replyInteger (Int64.ofNat m) ↔ n = m := by
  refine ⟨fun h => ?_, fun h => h ▸ rfl⟩
  have hnum : Int64.ofNat n = Int64.ofNat m :=
    RespValue.ofInteger.inj (congrArg CommandResult.response h)
  have hint := congrArg Int64.toInt hnum
  rw [Int64.toInt_ofNat_of_lt (lt_of_le_of_lt hle hm), Int64.toInt_ofNat_of_lt hm] at hint
  exact Int.ofNat.inj hint

def twoLists : Store simpleDatabase :=
  (((Store.empty.rPush (ascii "s") (ascii "x") []).2).rPush (ascii "d") (ascii "y") []).2

end ListCommands
