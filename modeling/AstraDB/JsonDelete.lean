/-
`JsonDelete`: a part of a document is removed.

The parent of that part is looked up with `at`, with the parent's pointer as a `std::string`.  For a
string `at` does not follow a pointer: it wants a member of the document itself that has this name.

* `deletes_iff` — the part is never removed; only a pointer to nothing is treated as it should be.
-/
import AstraDB.Database
import AstraDB.TreePointer

open JsonPointer List

/-- `nlohmann::json` values are trees. -/
structure JsonEnv extends DatabaseEnv where
  tree : Json ≃ JsonTree

namespace JsonDelete

def rfind (c : UInt8) (s : Bytes) : Option ℕ :=
  if c ∈ s then some (s.length - 1 - s.reverse.idxOf c) else none

def parentPath (tokens : List Bytes) : Bytes :=
  let s := toText tokens
  match rfind slash s with
  | none => ascii "$"
  | some pos => s.take pos

def lastPathSegment (path : Bytes) : Bytes :=
  match rfind slash path with
  | none => path
  | some pos => path.drop (pos + 1)

/-- `at` with a string; it throws if there is no such member, or no object. -/
def atKey (key : Bytes) : JsonTree → Option JsonTree
  | .object members => members.lookup key
  | _ => none

/-- The parent afterwards, unless something throws. -/
def eraseLast (last : Bytes) : JsonTree → Option JsonTree
  | .object members => some (.object (members.filter fun m => m.1 ≠ last))
  | .array items =>
    match Decimal.stoul last with
    | .error _ => none
    | .ok idx => if idx < items.length then some (.array (items.eraseIdx idx)) else none
  | parent => some parent

/-- The document afterwards, if `true` is returned; a pointer that cannot be parsed throws. -/
def eraseAt (path : Bytes) (doc : JsonTree) : Option JsonTree := do
  let tokens ← parse path
  if contains tokens doc then
    let parent ← atKey (parentPath tokens) doc
    let parent' ← eraseLast (lastPathSegment path) parent
    some (setChild (parentPath tokens) parent' doc)
  else none

variable {env : JsonEnv}

def jsonDelete (key path : Bytes) (s : Stored env.toDatabaseEnv) :
    Bool × Stored env.toDatabaseEnv :=
  match s.data .jsons with
  | none => (false, s)
  | some doc =>
    if path = ascii "$" then
      let s := (s.remove .jsons).unregisterKey
      (true, if env.rocksdbMode && env.rocksdbAdapter then { s with rocksdb := none } else s)
    else
      match eraseAt path (env.tree doc) with
      | none => (false, s)
      | some doc' => (true, (s.put .jsons (env.tree.symm doc')).persistKey key .kJson)

theorem rfind_append {c : UInt8} {s t : Bytes} (h : c ∉ t) :
    rfind c (s ++ c :: t) = some s.length := by
  have hmem : c ∈ s ++ c :: t := mem_append_right s mem_cons_self
  have hidx : (s ++ c :: t).reverse.idxOf c = t.length := by
    rw [reverse_append, reverse_cons, append_assoc, singleton_append,
      idxOf_append_of_notMem (fun ht => h (mem_reverse.mp ht)), idxOf_cons_self,
      length_reverse, Nat.add_zero]
  rw [rfind, if_pos hmem, hidx, length_append, length_cons]
  congr 1
  omega

theorem parentPath_concat (tokens : List Bytes) (token : Bytes) :
    parentPath (tokens ++ [token]) = toText tokens := by
  rw [parentPath, toText_concat, rfind_append (slash_notMem_escape token)]
  exact take_left

variable {path : Bytes} {tokens : List Bytes} {doc : JsonTree}

/-- Where something is erased, the document is an object, with the member that was found. -/
theorem eraseAt_eq_some {doc' : JsonTree} (hparse : parse path = some tokens)
    (h : eraseAt path doc = some doc') :
    ∃ members parent, doc = .object members ∧
      doc' = setChild (parentPath tokens) parent (.object members) := by
  rw [eraseAt, hparse, Option.bind_eq_bind, Option.bind_some] at h
  split at h
  · obtain ⟨parent, hparent, h⟩ := Option.bind_eq_some_iff.mp h
    obtain ⟨parent', -, h⟩ := Option.bind_eq_some_iff.mp h
    match doc with
    | .object members => exact ⟨members, parent', rfl, (Option.some.inj h).symm⟩
    | .null | .boolean _ | .numberInteger _ | .numberUnsigned _ | .numberFloat _ | .string _
    | .array _ => cases hparent
  · cases h

theorem toText_ne {token : Bytes} {init : List Bytes} {last : Bytes}
    (h : token :: tokens = init ++ [last]) (hne : tokens ≠ []) : toText init ≠ token := by
  cases init with
  | nil =>
    rw [nil_append, List.cons.injEq] at h
    exact absurd h.2 hne
  | cons first init =>
    rw [cons_append, List.cons.injEq] at h
    rw [← h.1]
    exact toText_cons_ne token init

/-- The document is not the one without the part that the pointer leads to. -/
theorem eraseAt_ne (hparse : parse path = some tokens) (hne : tokens ≠ [])
    (hc : contains tokens doc = true) : eraseAt path doc ≠ some (removeAt tokens doc) := by
  intro h
  obtain ⟨members, parent, rfl, hdoc⟩ := eraseAt_eq_some hparse h
  obtain ⟨init, last, hlast⟩ := eq_nil_or_concat' tokens |>.resolve_left hne
  rw [hlast, parentPath_concat, ← hlast] at hdoc
  cases tokens with
  | nil => exact hne rfl
  | cons token tokens =>
    obtain ⟨value, hvalue, hrest⟩ := contains_cons.mp hc
    cases tokens with
    | nil =>
      have hchild := congrArg (child token) hdoc
      rw [removeAt, child_removeChild] at hchild
      by_cases htoken : token = toText init
      · rw [← htoken, child_setChild hvalue] at hchild
        cases hchild
      · rw [child_setChild_of_ne htoken, hvalue] at hchild
        cases hchild
    | cons next tokens =>
      have hname := toText_ne hlast (cons_ne_nil next tokens)
      have hkeep := child_setChild_of_ne hname.symm parent members
      have hchild := congrArg (child token) hdoc
      rw [hkeep, removeAt, hvalue] at hchild
      · dsimp only at hchild
        rw [child_setChild hvalue] at hchild
        exact removeAt_ne (cons_ne_nil _ _) hrest (Option.some.inj hchild)
      · exact fun hnil => absurd hnil (cons_ne_nil _ _)

/-- What a removal should do: the part that the pointer leads to is removed, if it leads
somewhere. -/
def Deletes (key path : Bytes) (tokens : List Bytes) (doc : env.Json)
    (s : Stored env.toDatabaseEnv) : Prop :=
  if contains tokens (env.tree doc) then
    (jsonDelete key path s).1 = true ∧
      (jsonDelete key path s).2.data .jsons = some (env.tree.symm (removeAt tokens (env.tree doc)))
  else jsonDelete key path s = (false, s)

/-- A part of a document is never removed as it should be. -/
theorem deletes_iff {key path : Bytes} {tokens : List Bytes} {doc : env.Json}
    {s : Stored env.toDatabaseEnv} (hdata : s.data .jsons = some doc)
    (hparse : parse path = some tokens) (hne : tokens ≠ []) :
    Deletes key path tokens doc s ↔ contains tokens (env.tree doc) = false := by
  have hpath : path ≠ ascii "$" := by
    rintro rfl
    cases hparse
  rw [Deletes, jsonDelete, hdata]
  dsimp only
  rw [if_neg hpath]
  cases hc : contains tokens (env.tree doc) with
  | false =>
    rw [eraseAt, hparse, Option.bind_eq_bind, Option.bind_some, hc]
    exact iff_of_true rfl rfl
  | true =>
    refine iff_of_false (fun h => ?_) Bool.noConfusion
    rw [if_pos rfl] at h
    obtain ⟨hreturn, hdoc⟩ := h
    cases herase : eraseAt path (env.tree doc) with
    | none =>
      rw [herase] at hreturn
      cases hreturn
    | some doc' =>
      rw [herase] at hdoc
      have hput := Stored.data_put s .jsons (env.tree.symm doc')
      have hkeep := (Stored.data_persistKey key .kJson (s.put .jsons (env.tree.symm doc'))).1
      have hsame := ((congrFun hkeep .jsons).trans hput).symm.trans hdoc
      have hdoc' := env.tree.symm.injective (Option.some.inj hsame)
      exact eraseAt_ne hparse hne hc (herase.trans (congrArg some hdoc'))

def treeDatabase : JsonEnv where
  toDatabaseEnv := { simpleDatabase with
    Json := JsonTree
    parseJson := fun _ => none
    dumpJson := fun _ => []
    jsonAt := fun _ _ => none
    serialize := fun _ _ _ => [] }
  tree := Equiv.refl JsonTree

def holding (doc : JsonTree) : Stored treeDatabase.toDatabaseEnv :=
  ((Stored.empty : Stored treeDatabase.toDatabaseEnv).put .jsons doc).registerKey .kJson

def single : JsonTree := .object [(ascii "a", .null)]

theorem deletes_iff_missing :
    @Deletes treeDatabase (ascii "k") (ascii "/b") [ascii "b"] single (holding single) ↔
      contains [ascii "b"] single = false :=
  @deletes_iff treeDatabase _ _ _ _ (holding single) rfl rfl (cons_ne_nil _ _)

/-- A member stays, or a member of another part is removed in its place. -/
theorem jsonDelete_fails :
    (contains [ascii "a"] single = true ∧
        jsonDelete (ascii "k") (ascii "/a") (holding single) = (false, holding single)) ∧
      eraseAt (ascii "/a") (.object [([], single), (ascii "a", .null)])
        = some (.object [([], .object []), (ascii "a", .null)]) :=
  ⟨⟨rfl, rfl⟩, rfl⟩

end JsonDelete
