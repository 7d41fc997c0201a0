/-
JSON documents as trees, and pointers into them after RFC 6901.

A pointer is a list of tokens.  In an object a token is the name of a member, in an array it is an
index, without leading zeros.

* `parse`, `toText` — the text of a pointer, with `~0` for a tilde and `~1` for a slash;
* `resolve` — what a pointer leads to;
* `removeAt` — the document without what a pointer leads to;
* `removeAt_ne` — which is another document.
-/
import AstraDB.Decimal

open List

/-- The members of an object are in the order of their names. -/
inductive JsonTree
  | null
  | boolean (value : Bool)
  | numberInteger (value : Int64)
  | numberUnsigned (value : UInt64)
  /-- the bits of the double -/
  | numberFloat (value : UInt64)
  | string (value : Bytes)
  | array (items : List JsonTree)
  | object (members : List (Bytes × JsonTree))

namespace JsonPointer

abbrev slash : UInt8 := '/'.toUInt8

abbrev tilde : UInt8 := '~'.toUInt8

/-- Nothing if a tilde is not followed by `0` or `1`. -/
def unescape : Bytes → Option Bytes
  | [] => some []
  | [c] => if c = tilde then none else some [c]
  | c :: d :: rest =>
    if c = tilde then
      if d = '0'.toUInt8 then (unescape rest).map (tilde :: ·)
      else if d = '1'.toUInt8 then (unescape rest).map (slash :: ·)
      else none
    else (unescape (d :: rest)).map (c :: ·)

variable (token : Bytes)

def escape : Bytes :=
  token.flatMap fun c =>
    if c = tilde then [tilde, '0'.toUInt8] else if c = slash then [tilde, '1'.toUInt8] else [c]

def parse (path : Bytes) : Option (List Bytes) :=
  match path with
  | [] => some []
  | c :: rest => if c = slash then (rest.splitOn slash).mapM unescape else none

variable (tokens : List Bytes)

def toText : Bytes := tokens.flatMap fun token => slash :: escape token

theorem slash_notMem_escape : slash ∉ escape token := by
  rw [escape, mem_flatMap]
  rintro ⟨c, -, h⟩
  split at h
  · exact absurd h (by decide)
  · split at h
    · exact absurd h (by decide)
    · next hslash => exact hslash (mem_singleton.mp h).symm

theorem length_le_length_escape : token.length ≤ (escape token).length := by
  induction token with
  | nil => exact le_rfl
  | cons c token ih =>
    rw [escape, flatMap_cons, length_append, length_cons, Nat.add_comm]
    refine Nat.add_le_add ?_ ih
    split
    · exact Nat.le_succ 1
    · split
      · exact Nat.le_succ 1
      · exact le_rfl

theorem toText_cons_ne : toText (token :: tokens) ≠ token := by
  intro h
  have hlength := congrArg List.length h
  have hescape := length_le_length_escape token
  rw [toText, flatMap_cons, length_append, length_cons] at hlength
  omega

theorem toText_concat (token : Bytes) :
    toText (tokens ++ [token]) = toText tokens ++ slash :: escape token := by
  rw [toText, flatMap_append, flatMap_singleton]
  rfl

/-- The index that a token is, if it is one. -/
def arrayIndex : Option ℕ :=
  if token ≠ [] ∧ token.all Decimal.isDigit ∧ (token.length = 1 ∨ token.head? ≠ some '0'.toUInt8)
  then some (Decimal.value 0 token) else none

def child : JsonTree → Option JsonTree
  | .object members => members.lookup token
  | .array items => (arrayIndex token).bind fun i => items[i]?
  | _ => none

/-- What a token leads to is replaced. -/
def setChild (value : JsonTree) : JsonTree → JsonTree
  | .object members => .object (members.map fun m => if m.1 = token then (m.1, value) else m)
  | .array items =>
    match arrayIndex token with
    | some i => .array (items.set i value)
    | none => .array items
  | doc => doc

/-- What a token leads to is removed. -/
def removeChild : JsonTree → JsonTree
  | .object members => .object (members.filter fun m => m.1 ≠ token)
  | .array items =>
    match arrayIndex token with
    | some i => .array (items.eraseIdx i)
    | none => .array items
  | doc => doc

theorem lookup_map (key token : Bytes) (value : JsonTree) (members : List (Bytes × JsonTree)) :
    (members.map fun m => if m.1 = token then (m.1, value) else m).lookup key =
      if key = token then (members.lookup key).map fun _ => value else members.lookup key := by
  induction members with
  | nil =>
    split
    · rfl
    · rfl
  | cons m members ih =>
    obtain ⟨name, old⟩ := m
    have hpair : (if name = token then (name, value) else (name, old))
        = (name, if name = token then value else old) := by
      split
      · rfl
      · rfl
    rw [map_cons, hpair, lookup_cons, lookup_cons, ih]
    by_cases hkey : key = name
    · subst hkey
      simp only [beq_self_eq_true]
      split
      · rfl
      · rfl
    · simp only [beq_false_of_ne hkey]

theorem child_setChild {token : Bytes} {doc old : JsonTree} (h : child token doc = some old)
    (value : JsonTree) : child token (setChild token value doc) = some value := by
  match doc with
  | .object members =>
    rw [child] at h
    rw [setChild, child, lookup_map, if_pos rfl, h]
    rfl
  | .array items =>
    rw [child] at h
    obtain ⟨i, hi, hitem⟩ := Option.bind_eq_some_iff.mp h
    have hlt := (List.getElem?_eq_some_iff.mp hitem).1
    rw [setChild, hi]
    dsimp only
    rw [child, hi, Option.bind_some, List.getElem?_set_self hlt]
  | .null | .boolean _ | .numberInteger _ | .numberUnsigned _ | .numberFloat _ | .string _ =>
    cases h

theorem child_setChild_of_ne {token key : Bytes} (h : token ≠ key) (value : JsonTree)
    (members : List (Bytes × JsonTree)) :
    child token (setChild key value (.object members)) = child token (.object members) := by
  rw [setChild, child, child, lookup_map, if_neg h]

theorem child_removeChild (members : List (Bytes × JsonTree)) :
    child token (removeChild token (.object members)) = none := by
  rw [removeChild, child, lookup_eq_none_iff]
  intro m hm
  rw [mem_filter] at hm
  exact bne_iff_ne.mpr (of_decide_eq_true hm.2).symm

theorem removeChild_ne {token : Bytes} {doc old : JsonTree} (h : child token doc = some old) :
    removeChild token doc ≠ doc := by
  match doc with
  | .object members =>
    intro heq
    rw [← heq, child_removeChild] at h
    cases h
  | .array items =>
    rw [child] at h
    obtain ⟨i, hi, hitem⟩ := Option.bind_eq_some_iff.mp h
    have hlt := (List.getElem?_eq_some_iff.mp hitem).1
    rw [removeChild, hi]
    dsimp only
    intro heq
    have hlength := congrArg List.length (JsonTree.array.inj heq)
    rw [length_eraseIdx_of_lt hlt] at hlength
    omega
  | .null | .boolean _ | .numberInteger _ | .numberUnsigned _ | .numberFloat _ | .string _ =>
    cases h

def resolve : List Bytes → JsonTree → Option JsonTree
  | [], doc => some doc
  | token :: tokens, doc => (child token doc).bind (resolve tokens)

def contains (doc : JsonTree) : Bool := (resolve tokens doc).isSome

/-- The document without what the pointer leads to; the whole document stays. -/
def removeAt : List Bytes → JsonTree → JsonTree
  | [], doc => doc
  | [token], doc => removeChild token doc
  | token :: tokens, doc =>
    match child token doc with
    | some value => setChild token (removeAt tokens value) doc
    | none => doc

theorem contains_cons {token : Bytes} {tokens : List Bytes} {doc : JsonTree} :
    contains (token :: tokens) doc = true ↔
      ∃ value, child token doc = some value ∧ contains tokens value = true := by
  rw [contains, resolve]
  cases child token doc with
  | none => exact iff_of_false Bool.false_ne_true fun ⟨_, h, _⟩ => nomatch h
  | some value => exact ⟨fun h => ⟨value, rfl, h⟩, fun ⟨_, h, hc⟩ => Option.some.inj h ▸ hc⟩

theorem removeAt_ne {tokens : List Bytes} {doc : JsonTree} (hne : tokens ≠ [])
    (h : contains tokens doc = true) : removeAt tokens doc ≠ doc := by
  induction tokens generalizing doc with
  | nil => exact absurd rfl hne
  | cons token tokens ih =>
    obtain ⟨value, hvalue, hrest⟩ := contains_cons.mp h
    cases tokens with
    | nil => exact removeChild_ne hvalue
    | cons next tokens =>
      -- the step to the changed value tells the documents apart
      intro heq
      have hchild := congrArg (child token) heq
      rw [removeAt, hvalue] at hchild
      · dsimp only at hchild
        rw [child_setChild hvalue] at hchild
        exact ih (cons_ne_nil _ _) hrest (Option.some.inj hchild)
      · exact fun hnil => absurd hnil (cons_ne_nil _ _)

end JsonPointer
