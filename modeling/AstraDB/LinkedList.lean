/-
Lists with two storages: `LinkedList`.

A short list is in a vector; as soon as it has more than 256 elements, it is moved into a deque
and stays there.  Every method has a branch for each storage.  Both have fewer than `2^63`
elements, so that the sums of sizes and indices do not overflow; they are taken in `ℤ`.

* `results_eq` — the operations are those on the plain list of the elements, whichever the
  storage;
* `removesLast_and_indexes_iff` — which is not so if occurrences are to be removed from the end,
  or an index is too far below zero.
-/
import AstraDB.Database
import AstraDB.Runs
import AstraDB.Slices

open Slices List

structure LinkedList (α : Type) where
  useVector : Bool
  vector : List α
  deque : List α
  /-- the storage that is not in use is empty -/
  spare : (if useVector then deque else vector) = []

namespace LinkedList

def kListVectorThreshold : ℕ := 256

variable {α : Type}

def empty : LinkedList α := ⟨true, [], [], rfl⟩

def toList (l : LinkedList α) : List α := if l.useVector then l.vector else l.deque

def setVector (l : LinkedList α) (h : l.useVector = true) (elements : List α) : LinkedList α :=
  { l with
    vector := elements
    spare := by
      have hspare := l.spare
      rw [if_pos h] at hspare ⊢
      exact hspare }

def setDeque (l : LinkedList α) (h : ¬ l.useVector = true) (elements : List α) : LinkedList α :=
  { l with
    deque := elements
    spare := by
      have hspare := l.spare
      rw [if_neg h] at hspare ⊢
      exact hspare }

def checkConvertToDeque (l : LinkedList α) : LinkedList α :=
  if l.useVector && kListVectorThreshold < l.vector.length then
    { useVector := false, vector := [], deque := l.deque ++ l.vector, spare := rfl }
  else l

def pushLeft (value : α) (l : LinkedList α) : LinkedList α :=
  if h : l.useVector then (l.setVector h (value :: l.vector)).checkConvertToDeque
  else l.setDeque h (value :: l.deque)

def pushRight (value : α) (l : LinkedList α) : LinkedList α :=
  if h : l.useVector then (l.setVector h (l.vector ++ [value])).checkConvertToDeque
  else l.setDeque h (l.deque ++ [value])

def popLeft (l : LinkedList α) : Option α × LinkedList α :=
  if h : l.useVector then
    match l.vector with
    | [] => (none, l)
    | value :: rest => (some value, l.setVector h rest)
  else
    match l.deque with
    | [] => (none, l)
    | value :: rest => (some value, l.setDeque h rest)

def popRight (l : LinkedList α) : Option α × LinkedList α :=
  if h : l.useVector then
    match l.vector.getLast? with
    | none => (none, l)
    | some value => (some value, l.setVector h l.vector.dropLast)
  else
    match l.deque.getLast? with
    | none => (none, l)
    | some value => (some value, l.setDeque h l.deque.dropLast)

def size (l : LinkedList α) : ℕ := if l.useVector then l.vector.length else l.deque.length

/-- A negative index counts from the end; `floor` is the least that it can become. -/
def fromEnd (size floor index : ℤ) : ℤ :=
  if index < 0 then
    if size + index < 0 then floor else size + index
  else index

def index (index : Int64) (l : LinkedList α) : Option α :=
  let size : ℤ := l.size
  if size = 0 then none
  else
    let index := fromEnd size 0 index.toInt
    if size ≤ index then none
    else if l.useVector then l.vector[index.toNat]?
    else l.deque[index.toNat]?

/-- The beginning of `Set` and `Insert`: an index that is negative even if it is counted from the
end is refused. -/
def checkIndex (size index : ℤ) : Option ℕ :=
  if size = 0 then none
  else if index < 0 ∧ size + index < 0 then none
  else
    let index := if index < 0 then size + index else index
    if size ≤ index then none else some index.toNat

def set (index : Int64) (value : α) (l : LinkedList α) : Bool × LinkedList α :=
  match checkIndex l.size index.toInt with
  | none => (false, l)
  | some index =>
    if h : l.useVector then (true, l.setVector h (l.vector.set index value))
    else (true, l.setDeque h (l.deque.set index value))

/-- The beginning of `Range` and `Trim`, for a list that is not empty: the ends of the range,
unless there is nothing in it. -/
def clip (size start stop : ℤ) : Option (ℤ × ℤ) :=
  let start := fromEnd size 0 start
  let stop := fromEnd size (-1) stop
  if size ≤ start then none
  else
    let stop := if size ≤ stop then size - 1 else stop
    if stop < start then none else some (start, stop)

variable (start stop : Int64)

def range (l : LinkedList α) : List α :=
  if l.size = 0 then []
  else
    match clip l.size start.toInt stop.toInt with
    | none => []
    | some (start, stop) =>
      if l.useVector then (l.vector.take (stop + 1).toNat).drop start.toNat
      else (l.deque.take (stop + 1).toNat).drop start.toNat

def clear (l : LinkedList α) : LinkedList α :=
  if h : l.useVector then l.setVector h [] else l.setDeque h []

def trim (l : LinkedList α) : LinkedList α :=
  if l.size = 0 then l
  else
    match clip l.size start.toInt stop.toInt with
    | none => l.clear
    | some (start, stop) =>
      -- what is behind `stop` is erased first
      if h : l.useVector then
        l.setVector h ((l.vector.take (stop + 1).toNat).drop start.toNat)
      else l.setDeque h ((l.deque.take (stop + 1).toNat).drop start.toNat)

def insert (pivotIndex : Int64) (value : α) (before : Bool) (l : LinkedList α) :
    Bool × LinkedList α :=
  match checkIndex l.size pivotIndex.toInt with
  | none => (false, l)
  | some pivotIndex =>
    let position := if before then pivotIndex else pivotIndex + 1
    if h : l.useVector then
      (true, (l.setVector h (l.vector.insertIdx position value)).checkConvertToDeque)
    else (true, l.setDeque h (l.deque.insertIdx position value))

section Remove

variable [DecidableEq α]

/-- The loop of `Remove`: the number of elements removed, and those that are left. -/
def removeLoop (value : α) (count : Int64) : ℕ → List α → ℕ × List α
  | removed, [] => (removed, [])
  | removed, element :: rest =>
    if element = value then
      if 0 < count.toInt ∧ count.toInt ≤ removed + 1 then (removed + 1, rest)
      else removeLoop value count (removed + 1) rest
    else
      let r := removeLoop value count removed rest
      (r.1, element :: r.2)

def remove (value : α) (count : Int64) (l : LinkedList α) : ℕ × LinkedList α :=
  if h : l.useVector then
    let r := removeLoop value count 0 l.vector
    (r.1, l.setVector h r.2)
  else
    let r := removeLoop value count 0 l.deque
    (r.1, l.setDeque h r.2)

end Remove

/-! ### The elements -/

theorem vector_or_deque (l : LinkedList α) :
    (∃ elements, l = ⟨true, elements, [], rfl⟩) ∨ ∃ elements, l = ⟨false, [], elements, rfl⟩ := by
  obtain ⟨useVector, vector, deque, hspare⟩ := l
  cases useVector with
  | true =>
    obtain rfl : deque = [] := hspare
    exact .inl ⟨vector, rfl⟩
  | false =>
    obtain rfl : vector = [] := hspare
    exact .inr ⟨deque, rfl⟩

theorem toList_checkConvertToDeque (l : LinkedList α) :
    l.checkConvertToDeque.toList = l.toList := by
  obtain ⟨elements, rfl⟩ | ⟨elements, rfl⟩ := l.vector_or_deque
  · rw [checkConvertToDeque]
    split <;> rfl
  · rfl

theorem size_eq (l : LinkedList α) : l.size = l.toList.length := by
  obtain ⟨elements, rfl⟩ | ⟨elements, rfl⟩ := l.vector_or_deque <;> rfl

theorem toList_pushLeft (value : α) (l : LinkedList α) :
    (l.pushLeft value).toList = value :: l.toList := by
  obtain ⟨elements, rfl⟩ | ⟨elements, rfl⟩ := l.vector_or_deque
  · exact toList_checkConvertToDeque _
  · rfl

theorem toList_pushRight (value : α) (l : LinkedList α) :
    (l.pushRight value).toList = l.toList ++ [value] := by
  obtain ⟨elements, rfl⟩ | ⟨elements, rfl⟩ := l.vector_or_deque
  · exact toList_checkConvertToDeque _
  · rfl

theorem popLeft_eq (l : LinkedList α) :
    l.popLeft.map id toList = (l.toList.head?, l.toList.tail) := by
  obtain ⟨elements, rfl⟩ | ⟨elements, rfl⟩ := l.vector_or_deque <;> cases elements <;> rfl

theorem popRight_eq (l : LinkedList α) :
    l.popRight.map id toList = (l.toList.getLast?, l.toList.dropLast) := by
  obtain ⟨elements, rfl⟩ | ⟨elements, rfl⟩ := l.vector_or_deque <;> cases elements <;> rfl

theorem toList_clear (l : LinkedList α) : l.clear.toList = [] := by
  obtain ⟨elements, rfl⟩ | ⟨elements, rfl⟩ := l.vector_or_deque <;> rfl

theorem checkIndex_eq (n : ℕ) (index : ℤ) : checkIndex n index = position n index := by
  have hindex := resolve_cases n index
  rw [checkIndex, position]
  show (if (n : ℤ) = 0 then none else if index < 0 ∧ n + index < 0 then none
    else if (n : ℤ) ≤ resolve n index then none else some (resolve n index).toNat) = _
  generalize resolve n index = i at hindex
  split_ifs <;> first | rfl | omega

theorem set_eq (index : Int64) (value : α) (l : LinkedList α) : (l.set index value).map id toList =
      match position l.toList.length index.toInt with
      | none => (false, l.toList)
      | some i => (true, l.toList.set i value) := by
  rw [set, checkIndex_eq, size_eq]
  cases position l.toList.length index.toInt with
  | none => rfl
  | some i =>
    obtain ⟨elements, rfl⟩ | ⟨elements, rfl⟩ := l.vector_or_deque <;> rfl

theorem insert_eq (pivotIndex : Int64) (value : α) (before : Bool) (l : LinkedList α) :
    (l.insert pivotIndex value before).map id toList =
      match position l.toList.length pivotIndex.toInt with
      | none => (false, l.toList)
      | some i => (true, l.toList.insertIdx (if before then i else i + 1) value) := by
  rw [insert, checkIndex_eq, size_eq]
  cases position l.toList.length pivotIndex.toInt with
  | none => rfl
  | some i =>
    obtain ⟨elements, rfl⟩ | ⟨elements, rfl⟩ := l.vector_or_deque
    · exact Prod.ext rfl (toList_checkConvertToDeque _)
    · rfl

theorem fromEnd_eq (n : ℕ) {floor : ℤ} (hlow : -1 ≤ floor) (hfloor : floor ≤ 0) (index : ℤ) :
    fromEnd n floor index = max (resolve n index) floor := by
  have hindex := resolve_cases n index
  rw [fromEnd]
  split_ifs <;> omega

theorem slice_eq_clip (xs : List α) (start stop : ℤ) : slice xs start stop =
    match clip xs.length start stop with
    | none => []
    | some (start, stop) => (xs.take (stop + 1).toNat).drop start.toNat := by
  rw [clip, fromEnd_eq _ (by decide) (by decide), fromEnd_eq _ (by decide) (by decide)]
  dsimp only
  split_ifs with hstart hstop hempty hempty
  · exact slice_of_lt xs (by omega)
  · exact slice_of_lt xs (by omega)
  · exact (slice_eq xs (by omega) (by omega)).symm
  · exact slice_of_lt xs (by omega)
  · exact (slice_eq xs (by omega) (by omega)).symm

theorem range_eq (l : LinkedList α) :
    l.range start stop = slice l.toList start.toInt stop.toInt := by
  rw [range, size_eq]
  split
  · next h => rw [slice_of_length_eq_zero h]
  · rw [slice_eq_clip]
    cases clip l.toList.length start.toInt stop.toInt with
    | none => rfl
    | some ends =>
      obtain ⟨elements, rfl⟩ | ⟨elements, rfl⟩ := l.vector_or_deque <;> rfl

theorem toList_trim (l : LinkedList α) :
    (l.trim start stop).toList = slice l.toList start.toInt stop.toInt := by
  rw [trim, size_eq]
  split
  · next h => rw [slice_of_length_eq_zero h, length_eq_zero_iff.mp h]
  · rw [slice_eq_clip]
    cases clip l.toList.length start.toInt stop.toInt with
    | none => exact l.toList_clear
    | some ends =>
      obtain ⟨elements, rfl⟩ | ⟨elements, rfl⟩ := l.vector_or_deque <;> rfl

theorem index_eq (index : Int64) (l : LinkedList α) :
    l.index index = l.toList[(max (resolve l.toList.length index.toInt) 0).toNat]? := by
  rw [LinkedList.index, size_eq, fromEnd_eq _ (by decide) (by decide)]
  dsimp only
  split
  · next h => rw [List.getElem?_eq_none (by omega)]
  · split
    · next h => rw [List.getElem?_eq_none (by omega)]
    · obtain ⟨elements, rfl⟩ | ⟨elements, rfl⟩ := l.vector_or_deque <;> rfl

theorem storedFromEnd_eq (n : ℕ) {floor : ℤ} (hfloor : floor ≤ 0) (index : ℤ) :
    Stored.fromEnd n floor index = max (resolve n index) floor := by
  have hindex := resolve_cases n index
  rw [Stored.fromEnd]
  split <;> omega

theorem slice_eq_listRange (xs : List α) (start stop : ℤ) :
    slice xs start stop = Stored.listRange start stop xs := by
  rw [Stored.listRange, storedFromEnd_eq _ (by decide), storedFromEnd_eq _ (by decide)]
  split
  · exact slice_of_lt xs (by omega)
  · rw [Stored.slice, slice, drop_take]
    congr 1
    omega

theorem range_eq_listRange (l : LinkedList α) :
    l.range start stop = Stored.listRange start.toInt stop.toInt l.toList := by
  rw [range_eq, slice_eq_listRange]

/-! ### Indices -/

/-- An element is found at every index that is in the list, and there it can be set. -/
def Indexes (l : LinkedList α) (index : Int64) (value : α) : Prop :=
  let size := l.toList.length
  l.index index = (position size index.toInt).bind (fun i => l.toList[i]?) ∧
    (l.index index = none ↔ ¬ (-size ≤ index.toInt ∧ index.toInt < size)) ∧
    ((l.set index value).1 = true ↔ -size ≤ index.toInt ∧ index.toInt < size)

theorem set_iff (index : Int64) (value : α) (l : LinkedList α) : (l.set index value).1 = true ↔
    -l.toList.length ≤ index.toInt ∧ index.toInt < l.toList.length := by
  have hset := congrArg Prod.fst (l.set_eq index value)
  rw [show (l.set index value).1 = _ from hset, ← isSome_position_iff]
  cases position l.toList.length index.toInt <;> simp

theorem bind_position_eq_none_iff (xs : List α) (i : ℤ) :
    ((position xs.length i).bind fun i => xs[i]?) = none ↔ ¬ (-xs.length ≤ i ∧ i < xs.length) := by
  rw [← isSome_position_iff, position]
  split
  · next h => exact iff_of_false (by simp; omega) (by simp)
  · exact iff_of_true rfl (by simp)

theorem indexes_iff (l : LinkedList α) (index : Int64) (value : α) :
    l.Indexes index value ↔ l.toList = [] ∨ -l.toList.length ≤ index.toInt := by
  have hindex := resolve_cases l.toList.length index.toInt
  constructor
  · intro h
    by_contra hfar
    rw [not_or] at hfar
    -- the first element is found although the index is not in the list
    have hnone := h.2.1.mpr (by omega)
    rw [index_eq, List.getElem?_eq_none_iff] at hnone
    exact hfar.1 (length_eq_zero_iff.mp (by omega))
  · intro h
    have hfind : l.index index =
        (position l.toList.length index.toInt).bind fun i => l.toList[i]? := by
      rw [index_eq, position]
      split
      · next hin => rw [Int.max_eq_left hin.1]; rfl
      · next hout =>
        refine List.getElem?_eq_none ?_
        rcases h with h | h
        · rw [h]
          exact Nat.zero_le _
        · omega
    refine ⟨hfind, ?_, l.set_iff index value⟩
    rw [hfind, bind_position_eq_none_iff]

/-! ### Removing -/

section Remove

variable [DecidableEq α]

theorem removeLoop_of_nonpos (value : α) {count : Int64} (hcount : count.toInt ≤ 0) (removed : ℕ)
    (xs : List α) : removeLoop value count removed xs =
      (removed + xs.count value, xs.filter fun x => x ≠ value) := by
  induction xs generalizing removed with
  | nil => rfl
  | cons x xs ih =>
    rw [removeLoop]
    split
    · next h =>
      rw [if_neg (by omega), ih, h, count_cons_self, filter_cons_of_neg (by simp)]
      congr 1
      omega
    · next h =>
      rw [ih, count_cons_of_ne h, filter_cons_of_pos (by simpa using h)]

theorem removeLoop_of_lt (value : α) {count : Int64} {removed : ℕ}
    (hremoved : removed < count.toInt) (xs : List α) : removeLoop value count removed xs =
      (removed + min (count.toInt.toNat - removed) (xs.count value),
        eraseFirst (count.toInt.toNat - removed) value xs) := by
  induction xs generalizing removed with
  | nil => rw [eraseFirst_nil, count_nil, Nat.min_zero]; rfl
  | cons x xs ih =>
    obtain ⟨k, hk⟩ : ∃ k, count.toInt.toNat - removed = k + 1 :=
      ⟨count.toInt.toNat - removed - 1, by omega⟩
    rw [removeLoop]
    split
    · next h =>
      rw [h, count_cons_self, hk, eraseFirst_succ_cons_self]
      split
      · obtain rfl : k = 0 := by omega
        rw [Nat.min_eq_left (by omega)]
        rfl
      · rw [ih (by omega), show count.toInt.toNat - (removed + 1) = k by omega]
        congr 1
        omega
    · next h =>
      rw [ih hremoved, count_cons_of_ne h, eraseFirst_cons_of_ne _ h]

theorem removeLoop_of_nonneg (value : α) {count : Int64} (hcount : 0 ≤ count.toInt) (xs : List α) :
    removeLoop value count 0 xs =
      (min (if count = 0 then xs.count value else count.toInt.toNat) (xs.count value),
        eraseFirst (if count = 0 then xs.count value else count.toInt.toNat) value xs) := by
  by_cases hzero : count = 0
  · rw [if_pos hzero, removeLoop_of_nonpos value (by rw [hzero]; decide), Nat.zero_add,
      Nat.min_self, eraseFirst_of_count_le (Nat.le_refl _)]
  · have hne : count.toInt ≠ 0 := by
      intro h
      exact hzero (Int64.toInt_inj.mp h)
    rw [if_neg hzero, removeLoop_of_lt value (by omega), Nat.zero_add, Nat.sub_zero]

theorem remove_eq (value : α) (count : Int64) (l : LinkedList α) :
    (l.remove value count).map id toList = removeLoop value count 0 l.toList := by
  obtain ⟨elements, rfl⟩ | ⟨elements, rfl⟩ := l.vector_or_deque <;> rfl

end Remove

/-! ### The operations on a plain list -/

inductive Op (α : Type) where
  | pushLeft (value : α)
  | pushRight (value : α)
  | popLeft
  | popRight
  | set (index : Int64) (value : α)
  | range (start stop : Int64)
  | trim (start stop : Int64)
  | remove (value : α) (count : Int64)
  | insert (pivotIndex : Int64) (value : α) (before : Bool)
  | size
  | clear

inductive Result (α : Type) where
  | done
  | popped (value : Option α)
  | succeeded (b : Bool)
  | elements (values : List α)
  | number (n : ℕ)
deriving DecidableEq

variable [DecidableEq α]

def apply (l : LinkedList α) : Op α → Result α × LinkedList α
  | .pushLeft value => (.done, l.pushLeft value)
  | .pushRight value => (.done, l.pushRight value)
  | .popLeft => l.popLeft.map .popped id
  | .popRight => l.popRight.map .popped id
  | .set index value => (l.set index value).map .succeeded id
  | .range start stop => (.elements (l.range start stop), l)
  | .trim start stop => (.done, l.trim start stop)
  | .remove value count => (l.remove value count).map .number id
  | .insert pivotIndex value before => (l.insert pivotIndex value before).map .succeeded id
  | .size => (.number l.size, l)
  | .clear => (.done, l.clear)

/-- What the operations mean for a list.  Of the occurrences of a value, `count` are removed, or
all of them if `count` is zero. -/
def applySpec (xs : List α) : Op α → Result α × List α
  | .pushLeft value => (.done, value :: xs)
  | .pushRight value => (.done, xs ++ [value])
  | .popLeft => (.popped xs.head?, xs.tail)
  | .popRight => (.popped xs.getLast?, xs.dropLast)
  | .set index value =>
    match position xs.length index.toInt with
    | none => (.succeeded false, xs)
    | some i => (.succeeded true, xs.set i value)
  | .range start stop => (.elements (slice xs start.toInt stop.toInt), xs)
  | .trim start stop => (.done, slice xs start.toInt stop.toInt)
  | .remove value count =>
    let k := if count = 0 then xs.count value else count.toInt.toNat
    (.number (min k (xs.count value)), eraseFirst k value xs)
  | .insert pivotIndex value before =>
    match position xs.length pivotIndex.toInt with
    | none => (.succeeded false, xs)
    | some i => (.succeeded true, xs.insertIdx (if before then i else i + 1) value)
  | .size => (.number xs.length, xs)
  | .clear => (.done, [])

/-- Occurrences are not to be removed from the end. -/
def Op.fromHead : Op α → Bool
  | .remove _ count => 0 ≤ count.toInt
  | _ => true

theorem apply_eq (l : LinkedList α) (op : Op α) (hop : op.fromHead) :
    (l.apply op).map id toList = applySpec l.toList op := by
  cases op with
  | pushLeft value => exact Prod.ext rfl (l.toList_pushLeft value)
  | pushRight value => exact Prod.ext rfl (l.toList_pushRight value)
  | popLeft => exact congrArg (Prod.map Result.popped id) l.popLeft_eq
  | popRight => exact congrArg (Prod.map Result.popped id) l.popRight_eq
  | set index value =>
    refine (congrArg (Prod.map Result.succeeded id) (l.set_eq index value)).trans ?_
    unfold applySpec
    dsimp only
    cases position l.toList.length index.toInt <;> rfl
  | range start stop => exact Prod.ext (congrArg Result.elements (l.range_eq start stop)) rfl
  | trim start stop => exact Prod.ext rfl (l.toList_trim start stop)
  | remove value count =>
    refine (congrArg (Prod.map Result.number id) (l.remove_eq value count)).trans ?_
    have hcount : 0 ≤ count.toInt := of_decide_eq_true hop
    exact congrArg (Prod.map Result.number id) (removeLoop_of_nonneg value hcount l.toList)
  | insert pivotIndex value before =>
    refine (congrArg (Prod.map Result.succeeded id) (l.insert_eq pivotIndex value before)).trans ?_
    unfold applySpec
    dsimp only
    cases position l.toList.length pivotIndex.toInt <;> rfl
  | size => exact Prod.ext (congrArg Result.number l.size_eq) rfl
  | clear => exact Prod.ext rfl l.toList_clear

/-- Whatever operations are called one after the other, their results and the elements at the end
are those of the operations on the list of the elements, and they do not depend on when the
storage is changed. -/
theorem results_eq (l : LinkedList α) (ops : List (Op α)) (hops : ∀ op ∈ ops, op.fromHead) :
    (Runs.results apply l ops).map id toList = Runs.results applySpec l.toList ops :=
  Runs.results_simulates toList apply_eq hops

theorem results_eq_sample :
    (Runs.results apply (empty : LinkedList ℕ)
        [.pushRight 3, .pushLeft 5, .pushRight 3, .set (-1) 5, .remove 5 1, .range 0 (-1)]).map
          id toList =
      ([.done, .done, .done, .succeeded true, .number 1, .elements [3, 5]], [3, 5]) := by
  exact (results_eq empty _ (by decide)).trans (by decide)

/-! ### Removing from the end -/

/-- The last `-count` occurrences are removed, and their number is returned. -/
def RemovesLast (l : LinkedList α) (value : α) (count : Int64) : Prop :=
  (l.remove value count).map id toList =
    (min count.toInt.natAbs (l.toList.count value),
      eraseLast count.toInt.natAbs value l.toList)

theorem removesLast_iff (l : LinkedList α) (value : α) {count : Int64} (hcount : count.toInt < 0) :
    l.RemovesLast value count ↔ l.toList.count value ≤ count.toInt.natAbs := by
  rw [RemovesLast, remove_eq, removeLoop_of_nonpos value (by omega), Nat.zero_add, Prod.mk.injEq,
    filter_eq_eraseLast_iff]
  constructor
  · intro h
    exact h.2
  · intro h
    exact ⟨(Nat.min_eq_right h).symm, h⟩

/-- This goes wrong with more than `-count` occurrences, since all of them are removed, and with an
index that is too far below zero, at which the first element is found. -/
theorem removesLast_and_indexes_iff (l : LinkedList α) (value : α) {count : Int64}
    (hcount : count.toInt < 0) (index : Int64) (value' : α) :
    l.RemovesLast value count ∧ l.Indexes index value' ↔
      l.toList.count value ≤ count.toInt.natAbs ∧
        (l.toList = [] ∨ -l.toList.length ≤ index.toInt) :=
  and_congr (l.removesLast_iff value hcount) (l.indexes_iff index value')

/-- The last two elements that are `1` are removed, and the last element is found. -/
theorem removesLast_and_indexes_iff_vector :
    RemovesLast ⟨true, [1, 2, 1], [], rfl⟩ 1 (-2) ∧ Indexes ⟨true, [1, 2, 1], [], rfl⟩ (-1) 7 :=
  (removesLast_and_indexes_iff _ 1 (by decide) (-1) 7).mpr (by decide)

/-- Both elements that are `1` are removed instead of the last one, and before the first element
there is another one. -/
theorem not_removesLast_vector :
    ¬ RemovesLast ⟨true, [1, 2, 1], [], rfl⟩ 1 (-1) ∧
      ¬ Indexes ⟨true, [1, 2, 1], [], rfl⟩ (-4) 7 := by
  constructor
  · unfold RemovesLast
    decide
  · intro h
    exact absurd h.1 (by decide)

end LinkedList
