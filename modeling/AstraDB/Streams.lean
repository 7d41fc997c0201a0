/-
Streams: entries with IDs, and groups of consumers that share them.

An ID is a time in milliseconds and a number; its text is read by `absl::SimpleAtoi`, whose success
is not looked at.  `StreamEnv` has what is not part of the server: the clock, `absl::SimpleAtoi` and
`std::stoull`.

* `StreamId.parse_lt` — a text is never read as more than `2 ^ 63 - 1`;
* `StreamId.parse_symbol` — other symbols than `*` are read as 0-0 as well;
* `nextId_star`, `nextId_explicit` — the ID of a new entry.
-/
import AstraDB.Bits
import AstraDB.Decimal
import Mathlib.Data.List.AList
import Std.Data.TreeMap

open List Decimal

structure StreamId where
  ms : UInt64 := 0
  seq : UInt64 := 0
  deriving DecidableEq, Repr

structure StreamEnv where
  Time : Type
  toUnixMillis : Time → Int64
  /-- `absl::ToInt64Milliseconds(now - last)` -/
  idleMs : Time → Time → Int64
  /-- `absl::SimpleAtoi`: whether it succeeds, and what it stores in both cases -/
  simpleAtoi : Bytes → Bool × Int64
  simpleAtoi_nonneg : ∀ text, '-'.toUInt8 ∉ text → 0 ≤ (simpleAtoi text).2.toInt
  simpleAtoi_of_no_digit : ∀ text, (∀ c ∈ text, Decimal.isDigit c = false) → (simpleAtoi text).2 = 0
  simpleAtoi_natText : ∀ n : ℕ, (simpleAtoi (Decimal.natText n)).2.toInt = min (n : ℤ) (2 ^ 63 - 1)
  /-- `std::stoull`, or what it throws -/
  stoull : Bytes → Except Bytes UInt64

namespace StreamId

/-! ### The order -/

def lt (a b : StreamId) : Prop := if a.ms ≠ b.ms then a.ms < b.ms else a.seq < b.seq

instance : LT StreamId := ⟨lt⟩

instance : LE StreamId := ⟨fun a b => ¬ b < a⟩

theorem lt_iff {a b : StreamId} : a < b ↔ a.ms.toNat < b.ms.toNat ∨
    a.ms.toNat = b.ms.toNat ∧ a.seq.toNat < b.seq.toNat := by
  show lt a b ↔ _
  rw [lt, UInt64.toNat_inj]
  split
  · next h => rw [UInt64.lt_iff_toNat_lt, or_iff_left fun h' => h h'.1]
  · next h =>
    rw [not_not] at h
    rw [h, UInt64.lt_iff_toNat_lt, or_iff_right (Nat.lt_irrefl _), and_iff_right rfl]

theorem le_iff {a b : StreamId} : a ≤ b ↔ a.ms.toNat < b.ms.toNat ∨
    a.ms.toNat = b.ms.toNat ∧ a.seq.toNat ≤ b.seq.toNat := by
  show ¬ b < a ↔ _
  rw [lt_iff]
  omega

theorem ext_iff_toNat {a b : StreamId} :
    a = b ↔ a.ms.toNat = b.ms.toNat ∧ a.seq.toNat = b.seq.toNat := by
  rw [UInt64.toNat_inj, UInt64.toNat_inj]
  constructor
  · rintro rfl
    exact ⟨rfl, rfl⟩
  · intro h
    cases a
    cases b
    simp_all

instance (a b : StreamId) : Decidable (a < b) :=
  inferInstanceAs (Decidable (if a.ms ≠ b.ms then a.ms < b.ms else a.seq < b.seq))

instance (a b : StreamId) : Decidable (a ≤ b) := inferInstanceAs (Decidable (¬ b < a))

instance : LinearOrder StreamId where
  le_refl a := by
    rw [le_iff]
    omega
  le_trans a b c := by
    rw [le_iff, le_iff, le_iff]
    omega
  lt_iff_le_not_ge a b := by
    rw [le_iff, le_iff, lt_iff]
    omega
  le_antisymm a b := by
    rw [le_iff, le_iff, ext_iff_toNat]
    omega
  le_total a b := by
    rw [le_iff, le_iff]
    omega
  toDecidableLE := inferInstance
  toDecidableLT := inferInstance
  toDecidableEq := inferInstance

theorem zero_le (a : StreamId) : (⟨0, 0⟩ : StreamId) ≤ a := by
  rw [le_iff]
  show 0 < _ ∨ 0 = _ ∧ 0 ≤ _
  omega

/-! ### Texts -/

def toString (id : StreamId) : Bytes :=
  Decimal.natText id.ms.toNat ++ '-'.toUInt8 :: Decimal.natText id.seq.toNat

def parse (env : StreamEnv) (str : Bytes) : StreamId :=
  if str = ascii "*" then {}
  else
    match str.splitOn '-'.toUInt8 with
    | [ms, seq] => ⟨(env.simpleAtoi ms).2.toUInt64, (env.simpleAtoi seq).2.toUInt64⟩
    | [ms] => ⟨(env.simpleAtoi ms).2.toUInt64, 0⟩
    | _ => {}

variable {env : StreamEnv}

theorem notMem_of_mem_splitOn {α : Type} [DecidableEq α] {sep : α} {text part : List α}
    (h : part ∈ text.splitOn sep) : sep ∉ part := by
  induction text generalizing part with
  | nil =>
    rw [splitOn_nil, mem_singleton] at h
    rw [h]
    exact not_mem_nil
  | cons c text ih =>
    rw [splitOn_cons_eq_if_modifyHead] at h
    split at h
    · rcases mem_cons.mp h with rfl | h
      · exact not_mem_nil
      · exact ih h
    · next hc =>
      cases hparts : text.splitOn sep with
      | nil => exact absurd hparts (splitOn_ne_nil sep text)
      | cons first parts =>
        rw [hparts, modifyHead_cons, mem_cons] at h
        rcases h with rfl | h
        · rw [mem_cons]
          rintro (rfl | hmem)
          · exact hc BEq.rfl
          · exact ih (hparts ▸ mem_cons_self) hmem
        · exact ih (hparts ▸ mem_cons_of_mem _ h)

theorem toNat_simpleAtoi (env : StreamEnv) {text : Bytes} (h : '-'.toUInt8 ∉ text) :
    ((env.simpleAtoi text).2.toUInt64.toNat : ℤ) = (env.simpleAtoi text).2.toInt := by
  have hnonneg := env.simpleAtoi_nonneg text h
  have hlt := (env.simpleAtoi text).2.toInt_lt
  rw [Bits.toNat_toUInt64]
  omega

theorem parse_lt (env : StreamEnv) (str : Bytes) :
    (parse env str).ms.toNat < 2 ^ 63 ∧ (parse env str).seq.toNat < 2 ^ 63 := by
  have hpart : ∀ part ∈ str.splitOn '-'.toUInt8,
      (env.simpleAtoi part).2.toUInt64.toNat < 2 ^ 63 := by
    intro part hpart
    have hnat := toNat_simpleAtoi env (notMem_of_mem_splitOn hpart)
    have hlt := (env.simpleAtoi part).2.toInt_lt
    omega
  rw [parse]
  split
  · decide
  · split
    · next ms seq hparts =>
      rw [hparts] at hpart
      exact ⟨hpart ms (by simp), hpart seq (by simp)⟩
    · next ms hparts =>
      rw [hparts] at hpart
      exact ⟨hpart ms (by simp), (by decide : (0 : UInt64).toNat < 2 ^ 63)⟩
    · decide

theorem parse_symbol (env : StreamEnv) {c : UInt8} (h : isDigit c = false) :
    parse env [c] = {} := by
  have hnil := env.simpleAtoi_of_no_digit [] fun _ hc => absurd hc not_mem_nil
  have hone := env.simpleAtoi_of_no_digit [c] fun c' hc' => by rw [mem_singleton.mp hc', h]
  rw [parse, splitOn_cons_eq_if_modifyHead, splitOn_nil]
  split
  · rfl
  · by_cases hdash : (c == '-'.toUInt8) = true
    · rw [if_pos hdash]
      dsimp only
      rw [hnil]
      rfl
    · rw [if_neg hdash, modifyHead_cons]
      dsimp only
      rw [hone]
      rfl

theorem splitOn_toString (id : StreamId) : id.toString.splitOn '-'.toUInt8 =
    [natText id.ms.toNat, natText id.seq.toNat] := by
  have hdash : ∀ n, '-'.toUInt8 ∉ natText n :=
    fun n hmem => absurd (isDigit_of_mem_natText hmem) (by decide)
  have hsplit : id.toString.splitOn '-'.toUInt8 =
      (natText id.ms.toNat).splitOn '-'.toUInt8 ++
        (natText id.seq.toNat).splitOn '-'.toUInt8 :=
    splitOnP_append_cons _ _ BEq.rfl
  rw [hsplit, splitOn_eq_singleton (hdash _), splitOn_eq_singleton (hdash _)]
  rfl

theorem toNat_parse_toString (env : StreamEnv) (id : StreamId) :
    (parse env id.toString).ms.toNat = min id.ms.toNat (2 ^ 63 - 1) ∧
      (parse env id.toString).seq.toNat = min id.seq.toNat (2 ^ 63 - 1) := by
  have hnum : ∀ n,
      (env.simpleAtoi (natText n)).2.toUInt64.toNat = min n (2 ^ 63 - 1) := by
    intro n
    have hvalue := env.simpleAtoi_natText n
    have hnat := Bits.toNat_toUInt64 (env.simpleAtoi (natText n)).2
    omega
  have hstar : id.toString ≠ ascii "*" := by
    intro hstar
    have hmem : '-'.toUInt8 ∈ id.toString := mem_append_right _ mem_cons_self
    rw [hstar] at hmem
    exact absurd hmem (by decide)
  rw [parse, if_neg hstar, splitOn_toString]
  exact ⟨hnum _, hnum _⟩

theorem parse_toString_eq_zero_iff {id : StreamId} : parse env id.toString = {} ↔ id = {} := by
  obtain ⟨hms, hseq⟩ := toNat_parse_toString env id
  rw [ext_iff_toNat, ext_iff_toNat, hms, hseq]
  show min _ _ = 0 ∧ min _ _ = 0 ↔ _ = 0 ∧ _ = 0
  omega

theorem parse_zero (env : StreamEnv) : parse env (ascii "0-0") = {} :=
  parse_toString_eq_zero_iff.mpr (rfl : ({} : StreamId) = {})

theorem toString_eq_zero_iff (env : StreamEnv) {id : StreamId} :
    id.toString = ascii "0-0" ↔ id = {} := by
  constructor
  · intro htext
    have hzero := parse_zero env
    rw [← htext] at hzero
    exact parse_toString_eq_zero_iff.mp hzero
  · rintro rfl
    rfl

end StreamId

/-! ### The data -/

structure StreamEntry where
  id : StreamId
  fields : List (Bytes × Bytes)
  deriving DecidableEq, Repr

structure PendingEntry (Time : Type) where
  entry : StreamEntry
  consumer : Bytes
  deliveryCount : Int64
  lastDelivered : Time

/-- `std::map<StreamId, PendingEntry>`. -/
abbrev PendingEntries (Time : Type) := Std.TreeMap StreamId (PendingEntry Time) compare

structure StreamConsumerGroup (Time : Type) where
  name : Bytes
  lastDeliveredId : StreamId
  consumers : AList fun _ : Bytes => StreamId := ∅
  pendingEntries : PendingEntries Time := ∅

structure StreamData (Time : Type) where
  entries : List StreamEntry := []
  lastGeneratedMs : UInt64 := 0
  lastGeneratedSeq : UInt64 := 0
  lastId : StreamId := {}
  groups : AList fun _ : Bytes => StreamConsumerGroup Time := ∅
  maxLen : UInt64 := 0

/-- Entries are removed from the front while there are too many. -/
def popFront (maxLen : ℕ) : List StreamEntry → List StreamEntry
  | [] => []
  | entry :: entries =>
    if maxLen < entries.length + 1 then popFront maxLen entries else entry :: entries

namespace StreamData

variable {env : StreamEnv}

/-- `last_generated_ms` and `last_generated_seq`. -/
def lastGenerated (s : StreamData env.Time) : StreamId := ⟨s.lastGeneratedMs, s.lastGeneratedSeq⟩

/-- The ID of a new entry, unless the given one is refused. -/
def nextId (env : StreamEnv) (now : env.Time) (idSpec : Bytes) (s : StreamData env.Time) :
    Option StreamId :=
  if idSpec = ascii "*" then
    let ms := env.toUnixMillis now
    let ms := if ms < s.lastGeneratedMs.toInt64 then s.lastGeneratedMs.toInt64 else ms
    if ms = s.lastGeneratedMs.toInt64 then some ⟨s.lastGeneratedMs, s.lastGeneratedSeq + 1⟩
    else some ⟨ms.toUInt64, 0⟩
  else
    let id := StreamId.parse env idSpec
    match s.entries.getLast? with
    | some last => if id ≤ last.id then none else some id
    | none => some id

def append (id : StreamId) (fields : List (Bytes × Bytes)) (maxLen : UInt64)
    (s : StreamData env.Time) : StreamData env.Time :=
  let entries := s.entries ++ [⟨id, fields⟩]
  { s with
    lastGeneratedMs := id.ms
    lastGeneratedSeq := id.seq
    entries := if 0 < maxLen then popFront maxLen.toNat entries else entries
    maxLen := maxLen }

/-- `AddEntry`; 0-0 stands for an ID that is refused. -/
def addEntry (env : StreamEnv) (now : env.Time) (fields : List (Bytes × Bytes)) (idSpec : Bytes)
    (maxLen : UInt64) (s : StreamData env.Time) : StreamId × StreamData env.Time :=
  match s.nextId env now idSpec with
  | none => ({}, s)
  | some id => (id, s.append id fields maxLen)

def createGroup (groupName : Bytes) (startId : StreamId) (s : StreamData env.Time) :
    Bool × StreamData env.Time :=
  if groupName ∈ s.groups then (false, s)
  else
    (true, { s with
      groups := s.groups.insert groupName { name := groupName, lastDeliveredId := startId } })

/-- The loop of `ReadGroup`; the clock is read for each entry. -/
def readLoop (consumerName : Bytes) (count : UInt64) (now : ℕ → env.Time)
    (lastDeliveredId : StreamId) : List StreamEntry → List StreamEntry → PendingEntries env.Time →
    List StreamEntry × PendingEntries env.Time
  | [], result, pending => (result, pending)
  | entry :: entries, result, pending =>
    if entry.id ≤ lastDeliveredId then
      readLoop consumerName count now lastDeliveredId entries result pending
    else
      let pending := pending.insert entry.id
        { entry, consumer := consumerName, deliveryCount := 1, lastDelivered := now result.length }
      let result := result ++ [entry]
      if count.toNat ≤ result.length then (result, pending)
      else readLoop consumerName count now lastDeliveredId entries result pending

def readGroup (groupName consumerName : Bytes) (count : UInt64) (now : ℕ → env.Time)
    (s : StreamData env.Time) : List StreamEntry × StreamData env.Time :=
  match s.groups.lookup groupName with
  | none => ([], s)
  | some group =>
    let (result, pending) :=
      readLoop consumerName count now group.lastDeliveredId s.entries [] group.pendingEntries
    let group := { group with pendingEntries := pending }
    let group :=
      match result.getLast? with
      | none => group
      | some last =>
        { group with
          lastDeliveredId := last.id
          consumers := group.consumers.insert consumerName last.id }
    (result, { s with groups := s.groups.insert groupName group })

end StreamData

/-! ### What the handlers do to a stream -/

namespace StreamData

variable {env : StreamEnv}

/-- The loop of `XDEL` over the IDs: how many entries were found, and the others. -/
def deleteLoop : List StreamId → List StreamEntry → ℕ × List StreamEntry
  | [], entries => (0, entries)
  | id :: ids, entries =>
    if entries.any fun e => e.id = id then
      let (deleted, entries) := deleteLoop ids (entries.eraseP fun e => e.id = id)
      (deleted + 1, entries)
    else deleteLoop ids entries

def delete (ids : List StreamId) (s : StreamData env.Time) : ℕ × StreamData env.Time :=
  let (deleted, entries) := deleteLoop ids s.entries
  (deleted, { s with entries })

/-- `XTRIM`; here 0 is a bound like any other. -/
def trim (maxLen : UInt64) (s : StreamData env.Time) : ℕ × StreamData env.Time :=
  let entries := popFront maxLen.toNat s.entries
  (s.entries.length - entries.length, { s with entries })

/-- A pending entry that is given to another consumer. -/
def transfer (consumer : Bytes) (now : env.Time) (pending : PendingEntry env.Time) :
    PendingEntry env.Time :=
  { pending with
    consumer
    deliveryCount := pending.deliveryCount + 1
    lastDelivered := now }

def ackLoop : List StreamId → PendingEntries env.Time → ℕ × PendingEntries env.Time
  | [], pending => (0, pending)
  | id :: ids, pending =>
    let (acked, pending') := ackLoop ids (pending.erase id)
    (if pending.contains id then acked + 1 else acked, pending')

/-- The loop of `XCLAIM`, with the entries that are claimed. -/
def claimLoop (env : StreamEnv) (consumer : Bytes) (minIdleTime : Int64) (now : env.Time) :
    List StreamId → PendingEntries env.Time → List StreamEntry × PendingEntries env.Time
  | [], pending => ([], pending)
  | id :: ids, pending =>
    match pending[id]? with
    | none => claimLoop env consumer minIdleTime now ids pending
    | some p =>
      if minIdleTime ≤ env.idleMs now p.lastDelivered ∨ minIdleTime = 0 then
        let (claimed, pending) :=
          claimLoop env consumer minIdleTime now ids (pending.insert id (transfer consumer now p))
        (⟨id, p.entry.fields⟩ :: claimed, pending)
      else claimLoop env consumer minIdleTime now ids pending

/-- The loop of `XAUTOCLAIM` over the pending entries in the order of their IDs: the next ID, the
entries that are claimed, and all pending entries. -/
def autoClaimLoop (env : StreamEnv) (consumer : Bytes) (minIdleTime : Int64) (startId : StreamId)
    (count : UInt64) (now : env.Time) :
    List (StreamId × PendingEntry env.Time) → List StreamEntry → PendingEntries env.Time →
    StreamId × List StreamEntry × PendingEntries env.Time
  | [], claimed, pending => (startId, claimed, pending)
  | (id, p) :: rest, claimed, pending =>
    if count.toNat ≤ claimed.length then (id, claimed, pending)
    else if id ≤ startId then
      autoClaimLoop env consumer minIdleTime startId count now rest claimed pending
    else if minIdleTime ≤ env.idleMs now p.lastDelivered then
      autoClaimLoop env consumer minIdleTime startId count now rest
        (claimed ++ [⟨id, p.entry.fields⟩]) (pending.insert id (transfer consumer now p))
    else autoClaimLoop env consumer minIdleTime startId count now rest claimed pending

def setPending (groupName : Bytes) (group : StreamConsumerGroup env.Time)
    (pending : PendingEntries env.Time) (s : StreamData env.Time) : StreamData env.Time :=
  { s with groups := s.groups.insert groupName { group with pendingEntries := pending } }

def ack (groupName : Bytes) (ids : List StreamId) (s : StreamData env.Time) :
    ℕ × StreamData env.Time :=
  match s.groups.lookup groupName with
  | none => (0, s)
  | some group =>
    let (acked, pending) := ackLoop ids group.pendingEntries
    (acked, s.setPending groupName group pending)

def claim (groupName consumer : Bytes) (minIdleTime : Int64) (ids : List StreamId) (now : env.Time)
    (s : StreamData env.Time) : List StreamEntry × StreamData env.Time :=
  match s.groups.lookup groupName with
  | none => ([], s)
  | some group =>
    let (claimed, pending) := claimLoop env consumer minIdleTime now ids group.pendingEntries
    (claimed, s.setPending groupName group pending)

/-- Nothing is returned if there is no such group. -/
def autoClaim (groupName consumer : Bytes) (minIdleTime : Int64) (startId : StreamId)
    (count : UInt64) (now : env.Time) (s : StreamData env.Time) :
    Option (StreamId × List StreamEntry) × StreamData env.Time :=
  match s.groups.lookup groupName with
  | none => (none, s)
  | some group =>
    let (nextId, claimed, pending) := autoClaimLoop env consumer minIdleTime startId count now
      group.pendingEntries.toList [] group.pendingEntries
    (some (nextId, claimed), s.setPending groupName group pending)

/-- The loop of `XRANGE`; with 0 there is no limit. -/
def rangeLoop (start stop : StreamId) (count : UInt64) :
    List StreamEntry → ℕ → List StreamEntry
  | [], _ => []
  | entry :: entries, found =>
    if entry.id < start ∨ stop < entry.id then rangeLoop start stop count entries found
    else if 0 < count.toNat ∧ count.toNat ≤ found then []
    else entry :: rangeLoop start stop count entries (found + 1)

def revRangeLoop (start stop : StreamId) (count : UInt64) :
    List StreamEntry → ℕ → List StreamEntry
  | [], _ => []
  | entry :: entries, processed =>
    if count.toNat ≤ processed then []
    else if entry.id < start ∨ stop < entry.id then
      revRangeLoop start stop count entries processed
    else entry :: revRangeLoop start stop count entries (processed + 1)

end StreamData

/-! ### Adding an entry -/

theorem popFront_suffix (maxLen : ℕ) (entries : List StreamEntry) :
    popFront maxLen entries <:+ entries := by
  induction entries with
  | nil => exact suffix_rfl
  | cons entry entries ih =>
    rw [popFront]
    split
    · exact ih.trans (suffix_cons entry entries)
    · exact suffix_rfl

namespace StreamData

variable {env : StreamEnv} {now : env.Time} {idSpec : Bytes} {s : StreamData env.Time}

theorem append_entries_suffix (id : StreamId) (fields : List (Bytes × Bytes)) (maxLen : UInt64)
    (s : StreamData env.Time) :
    (s.append id fields maxLen).entries <:+ s.entries ++ [⟨id, fields⟩] := by
  rw [append]
  dsimp only
  split
  · exact popFront_suffix _ _
  · exact suffix_rfl

theorem nextId_star (now : env.Time) (s : StreamData env.Time) :
    s.nextId env now (ascii "*") =
      some (if env.toUnixMillis now ≤ s.lastGeneratedMs.toInt64 then
        ⟨s.lastGeneratedMs, s.lastGeneratedSeq + 1⟩ else ⟨(env.toUnixMillis now).toUInt64, 0⟩) := by
  rw [nextId, if_pos rfl]
  dsimp only
  rcases Int.lt_trichotomy (env.toUnixMillis now).toInt s.lastGeneratedMs.toInt64.toInt
    with h | h | h
  · rw [if_pos (Int64.lt_iff_toInt_lt.mpr h), if_pos rfl, if_pos (Int64.le_iff_toInt_le.mpr h.le)]
  · rw [Int64.toInt_inj.mp h, ite_self, if_pos rfl, if_pos (Int64.le_iff_toInt_le.mpr le_rfl)]
  · have hlt : ¬ env.toUnixMillis now < s.lastGeneratedMs.toInt64 := by
      rw [Int64.lt_iff_toInt_lt]
      exact h.not_gt
    have hle : ¬ env.toUnixMillis now ≤ s.lastGeneratedMs.toInt64 := by
      rw [Int64.le_iff_toInt_le]
      exact h.not_ge
    rw [if_neg hlt, if_neg fun heq => h.ne' (congrArg Int64.toInt heq), if_neg hle]

theorem nextId_star_ne_none : s.nextId env now (ascii "*") ≠ none := by
  rw [nextId_star]
  exact Option.some_ne_none _

/-- A generated ID is greater than the last one, unless the number overflows. -/
theorem nextId_auto (now : env.Time) (h : s.lastGeneratedMs.toNat < 2 ^ 63)
    (hseq : s.lastGeneratedMs.toNat < (env.toUnixMillis now).toInt ∨
      s.lastGeneratedSeq.toNat ≠ 2 ^ 64 - 1) :
    ∃ id, s.nextId env now (ascii "*") = some id ∧ s.lastGenerated < id ∧ id.ms.toNat < 2 ^ 63 := by
  have hlast : s.lastGeneratedMs.toInt64.toInt = s.lastGeneratedMs.toNat := by
    rw [Bits.toInt64_eq (x := s.lastGeneratedMs.toNat) (by omega),
      Int64.toInt_ofInt_of_le (by omega) (by omega)]
  refine ⟨_, nextId_star now s, ?_⟩
  split
  · next hms =>
    rw [Int64.le_iff_toInt_le, hlast] at hms
    have hne := hseq.resolve_left (by omega)
    have hseqLt := s.lastGeneratedSeq.toNat_lt
    refine ⟨StreamId.lt_iff.mpr (.inr ⟨rfl, ?_⟩), h⟩
    show s.lastGeneratedSeq.toNat < (s.lastGeneratedSeq + 1).toNat
    rw [UInt64.toNat_add, show (1 : UInt64).toNat = 1 from rfl]
    omega
  · next hms =>
    rw [Int64.le_iff_toInt_le, hlast] at hms
    have hnat := Bits.toNat_toUInt64 (env.toUnixMillis now)
    have hmsLt := (env.toUnixMillis now).toInt_lt
    refine ⟨StreamId.lt_iff.mpr (.inl ?_), ?_⟩
    · show s.lastGeneratedMs.toNat < (env.toUnixMillis now).toUInt64.toNat
      omega
    · show (env.toUnixMillis now).toUInt64.toNat < 2 ^ 63
      omega

theorem nextId_explicit (h : idSpec ≠ ascii "*") {id : StreamId} :
    s.nextId env now idSpec = some id ↔ id = StreamId.parse env idSpec ∧
      ∀ last, s.entries.getLast? = some last → last.id < id := by
  rw [nextId, if_neg h]
  dsimp only
  cases s.entries.getLast? with
  | none => simp [eq_comm]
  | some last =>
    dsimp only
    split
    · next hle =>
      refine iff_of_false (fun h => nomatch h) ?_
      rintro ⟨rfl, hlt⟩
      exact absurd (hlt last rfl) (not_lt.mpr hle)
    · next hle =>
      rw [not_le] at hle
      constructor
      · rintro ⟨rfl⟩
        exact ⟨rfl, fun _ hlast => Option.some_inj.mp hlast ▸ hle⟩
      · rintro ⟨rfl, -⟩
        rfl

theorem nextId_eq_none (h : s.nextId env now idSpec = none) :
    idSpec ≠ ascii "*" ∧ s.entries ≠ [] := by
  constructor
  · rintro rfl
    exact nextId_star_ne_none h
  · intro hnil
    by_cases hspec : idSpec = ascii "*"
    · rw [hspec] at h
      exact nextId_star_ne_none h
    · rw [nextId, if_neg hspec, hnil] at h
      exact Option.some_ne_none _ h

theorem nextId_zero (now : env.Time) (h : idSpec ≠ ascii "*") :
    s.nextId env now idSpec = some {} ↔ StreamId.parse env idSpec = {} ∧ s.entries = [] := by
  rw [nextId_explicit h, eq_comm]
  refine and_congr_right fun _ => ⟨fun hlast => ?_, fun hnil => ?_⟩
  · rw [← List.getLast?_eq_none_iff, Option.eq_none_iff_forall_ne_some]
    exact fun last hsome => absurd (hlast last hsome) (not_lt.mpr (StreamId.zero_le last.id))
  · rw [hnil]
    exact fun last hsome => absurd hsome (Option.some_ne_none last).symm

theorem append_entries_of_nil (h : s.entries = []) (id : StreamId) (fields : List (Bytes × Bytes))
    (maxLen : UInt64) : (s.append id fields maxLen).entries = [⟨id, fields⟩] := by
  rw [append, h]
  dsimp only
  split
  · next hpos =>
    have hone : ¬ maxLen.toNat < ([] : List StreamEntry).length + 1 :=
      Nat.not_lt.mpr (UInt64.lt_iff_toNat_lt.mp hpos)
    rw [nil_append, popFront, if_neg hone]
  · rfl

end StreamData

/-! ### A small environment -/

/-- The number at the start of a text, at most `2 ^ 63 - 1`. -/
def leadingNumber (text : Bytes) : ℕ :=
  min (Decimal.value 0 (text.takeWhile Decimal.isDigit)) (2 ^ 63 - 1)

theorem leadingNumber_natText (n : ℕ) : leadingNumber (natText n) = min n (2 ^ 63 - 1) := by
  rw [leadingNumber, takeWhile_eq_self_iff.mpr fun c => isDigit_of_mem_natText,
    value_natText]

theorem toInt_ofNat_leadingNumber (text : Bytes) :
    (Int64.ofNat (leadingNumber text)).toInt = leadingNumber text := by
  have hle : leadingNumber text ≤ 2 ^ 63 - 1 := Nat.min_le_right _ _
  rw [← Int64.ofInt_eq_ofNat, Int64.toInt_ofInt_of_le (by omega) (by omega)]

/-- Time is counted in milliseconds, and numbers are decimal texts. -/
def simpleStreams : StreamEnv where
  Time := Int64
  toUnixMillis := id
  idleMs now last := now - last
  simpleAtoi text := (text ≠ [] && text.all Decimal.isDigit, Int64.ofNat (leadingNumber text))
  simpleAtoi_nonneg text _ := by
    rw [toInt_ofNat_leadingNumber]
    exact Int.natCast_nonneg _
  simpleAtoi_of_no_digit text h := by
    have hnone : text.takeWhile Decimal.isDigit = [] :=
      takeWhile_eq_nil_iff.mpr fun hpos => by
        rw [h _ (get_mem _ _)]
        exact Bool.false_ne_true
    rw [leadingNumber, hnone]
    rfl
  simpleAtoi_natText n := by
    rw [toInt_ofNat_leadingNumber, leadingNumber_natText]
    omega
  stoull text :=
    if text ≠ [] && text.all Decimal.isDigit then .ok (UInt64.ofNat (Decimal.value 0 text))
    else .error (ascii "stoull")
