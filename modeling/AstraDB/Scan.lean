/-
`SCAN`: keys in batches, with a cursor.

The first call takes the keys that pass its filter and stores them under a new number, which is
the cursor; the calls with this cursor take batches of them.  All sessions are in one table, and
their numbers come from one counter, which is a `uint64_t`.

* `client_complete` — a client that calls `SCAN` until the cursor is 0 gets all keys, once each,
  unless the counter comes round meanwhile.
-/
import AstraDB.CommandRegistry
import Mathlib.Algebra.Order.BigOperators.Group.Finset
import Mathlib.Tactic

open List Function Decimal

structure ScanState where
  allKeys : List Bytes
  currentPosition : ℕ
  scanId : UInt64

/-- `scan_states_` by the numbers of the sessions. -/
structure ScanStateManager where
  nextScanId : UInt64
  scanStates : UInt64 → Option ScanState

namespace ScanStateManager

/-! ### The table -/

def init : ScanStateManager := ⟨0, fun _ => none⟩

def put (scanId : UInt64) (state : Option ScanState) (manager : ScanStateManager) :
    ScanStateManager :=
  { manager with scanStates := update manager.scanStates scanId state }

def startScan (keys : List Bytes) (manager : ScanStateManager) : UInt64 × ScanStateManager :=
  let scanId := manager.nextScanId + 1
  (scanId, { manager with nextScanId := scanId }.put scanId (some ⟨keys, 0, scanId⟩))

def getNextBatch (cursor : UInt64) (count : ℕ) (manager : ScanStateManager) :
    (UInt64 × List Bytes) × ScanStateManager :=
  match manager.scanStates cursor with
  | none => ((0, []), manager)
  | some state =>
    if state.allKeys.length ≤ state.currentPosition then ((0, []), manager.put cursor none)
    else
      let endIdx := min (state.currentPosition + count) state.allKeys.length
      let batch := (state.allKeys.take endIdx).drop state.currentPosition
      let newCursor := if endIdx < state.allKeys.length then state.scanId else 0
      ((newCursor, batch), manager.put cursor
        (if newCursor = 0 then none else some { state with currentPosition := endIdx }))

/-- What `SCAN` does once its keys are filtered.  The first call answers with the number of its
session, also if the batch was all. -/
def scan (cursor : UInt64) (count : ℕ) (filteredKeys : List Bytes) (manager : ScanStateManager) :
    (UInt64 × List Bytes) × ScanStateManager :=
  if cursor = 0 then
    let (newCursor, manager) := manager.startScan filteredKeys
    let (result, manager) := manager.getNextBatch newCursor count
    ((newCursor, result.2), manager)
  else manager.getNextBatch cursor count

end ScanStateManager

/-! ### The command -/

structure ScanEnv where
  /-- `absl::SimpleAtoi` for a `uint64_t` -/
  simpleAtoi : Bytes → Option UInt64
  simpleAtoi_text : ∀ n : UInt64, simpleAtoi (Decimal.natText n.toNat) = some n
  /-- `std::stoi`, unless it throws -/
  stoi : Bytes → Option Int32

namespace Scan

/-- `find(c) != npos` -/
def has (c : Char) (str : Bytes) : Bool := str.contains c.toUInt8

/-- `str.find(part) != npos` -/
def find (part str : Bytes) : Bool := decide (part.IsInfix str)

def endsWith (suffix str : Bytes) : Bool :=
  decide (suffix.length ≤ str.length) && str.drop (str.length - suffix.length) == suffix

def startsWith (start str : Bytes) : Bool :=
  decide (start.length ≤ str.length) && str.take start.length == start

/-- The filter of `SCAN`, for `MATCH pattern`. -/
def scanMatches (pattern key : Bytes) : Bool :=
  if pattern = ascii "*" then true
  else if !has '*' pattern && !has '?' pattern then key = pattern
  else
    let starFirst := pattern.head? = some '*'.toUInt8
    let starLast := pattern.getLast? = some '*'.toUInt8
    if starFirst ∧ starLast ∧ 1 < pattern.length then find pattern.tail.dropLast key
    else if starFirst ∧ 1 < pattern.length then endsWith pattern.tail key
    else if starLast ∧ 1 < pattern.length then startsWith pattern.dropLast key
    else find pattern key

variable (env : ScanEnv)

def error (text : String) : HandlerOutcome := .returns (.ofError (ascii text))

/-- The loop over the options, for the pattern and the count; what is not known is skipped. -/
def options : List CommandArg → Bytes → Int32 → Except HandlerOutcome (Bytes × Int32)
  | [], pattern, count => .ok (pattern, count)
  | [_], pattern, count => .ok (pattern, count)
  | arg :: next :: args, pattern, count =>
    if asciiStrToUpper arg.value = ascii "MATCH" then options args next.value count
    else if asciiStrToUpper arg.value = ascii "COUNT" then
      match env.stoi next.value with
      | none => .error (error "ERR invalid count")
      | some count => options args pattern (if count < 1 then 10 else count)
    else options (next :: args) pattern count

def parse : List CommandArg → Except HandlerOutcome (UInt64 × Bytes × ℕ)
  | [] => .error (error "ERR wrong number of arguments for 'scan' command")
  | cursor :: args =>
    match env.simpleAtoi cursor.value with
    | none => .error (error "ERR invalid cursor")
    | some cursor =>
      match options env args (ascii "*") 10 with
      | .error outcome => .error outcome
      | .ok (pattern, count) => .ok (cursor, pattern, count.toInt.toNat)

/-- `allKeys` is what `GetAllKeys` returns, for each worker. -/
def filteredKeys (pattern : Bytes) (allKeys : List (List Bytes)) : List Bytes :=
  allKeys.flatten.filter (scanMatches pattern)

def handleScan (args : List CommandArg) (allKeys : List (List Bytes))
    (manager : ScanStateManager) : HandlerOutcome × ScanStateManager :=
  match parse env args with
  | .error outcome => (outcome, manager)
  | .ok (cursor, pattern, count) =>
    let ((newCursor, batch), manager) := manager.scan cursor count (filteredKeys pattern allKeys)
    (.returns (.ofResponse (.ofArray
      [.ofString (Decimal.natText newCursor.toNat) .kBulkString,
        .ofArray (batch.map fun key => .ofString key .kBulkString)])), manager)

/-! ### Clients -/

structure Call where
  args : List CommandArg
  allKeys : List (List Bytes)

variable (calls : List Call)

def otherCalls (manager : ScanStateManager) : ScanStateManager :=
  calls.foldl (fun manager call => (handleScan env call.args call.allKeys manager).2) manager

/-- What a client has: the last cursor and all keys so far; and the table. -/
structure Client where
  cursor : Bytes
  keys : List Bytes
  manager : ScanStateManager

def bulkStrings : List RespValue → Option (List Bytes)
  | [] => some []
  | .ofString key _ :: values => (bulkStrings values).map (key :: ·)
  | _ => none

/-- The cursor and the keys of a reply. -/
def scanReply : HandlerOutcome → Option (Bytes × List Bytes)
  | .returns result =>
    match result.response with
    | .ofArray [.ofString cursor _, .ofArray keys] => (bulkStrings keys).map (cursor, ·)
    | _ => none
  | _ => none

/-- `SCAN cursor ...` with the cursor of the last reply. -/
def clientCall (args : List CommandArg) (allKeys : List (List Bytes)) (w : Client) : Client :=
  let (outcome, manager) :=
    handleScan env (.ofString w.cursor .kBulkString :: args) allKeys w.manager
  match scanReply outcome with
  | none => { w with manager }
  | some (cursor, keys) => { cursor, keys := w.keys ++ keys, manager }

/-- After `SCAN 0` and `n` more calls; between two calls, there are others. -/
def client (args : ℕ → List CommandArg) (allKeys : ℕ → List (List Bytes))
    (others : ℕ → List Call) (manager : ScanStateManager) : ℕ → Client
  | 0 => clientCall env (args 0) (allKeys 0) ⟨ascii "0", [], manager⟩
  | n + 1 =>
    let w := client args allKeys others manager n
    clientCall env (args (n + 1)) (allKeys (n + 1))
      { w with manager := otherCalls env (others n) w.manager }

def starts : ℕ :=
  calls.countP fun call =>
    match parse env call.args with
    | .ok (cursor, _) => cursor = 0
    | .error _ => false

/-! ### Sessions in the table -/

section Sessions

variable {keys : List Bytes} {id : UInt64} {pos : ℕ} {manager : ScanStateManager}

/-- A session of these keys is at this position, or it is over. -/
def Open (id : UInt64) (keys : List Bytes) (pos : ℕ) (manager : ScanStateManager) : Prop :=
  manager.scanStates id = some ⟨keys, pos, id⟩ ∨
    manager.scanStates id = none ∧ pos = keys.length

theorem getNextBatch_open (h : Open id keys pos manager) (hpos : pos ≤ keys.length) (hid : id ≠ 0)
    (count : ℕ) : (manager.getNextBatch id count).1 =
        (if pos + count < keys.length then id else 0, (keys.take (pos + count)).drop pos) ∧
      Open id keys (min (pos + count) keys.length) (manager.getNextBatch id count).2 ∧
      (manager.getNextBatch id count).2.nextScanId = manager.nextScanId := by
  rw [ScanStateManager.getNextBatch]
  rcases h with h | ⟨h, rfl⟩
  · rw [h]
    dsimp only
    split
    · next hover =>
      -- only the first call can find a session that is over
      obtain rfl : pos = keys.length := Nat.le_antisymm hpos hover
      refine ⟨?_, .inr ⟨update_self .., by omega⟩, rfl⟩
      rw [if_neg (by omega), take_of_length_le (by omega), drop_length]
    · next hmore =>
      by_cases hlast : pos + count < keys.length
      · rw [Nat.min_eq_left hlast.le, if_pos hlast, if_neg hid]
        exact ⟨rfl, .inl (update_self ..), rfl⟩
      · rw [Nat.min_eq_right (Nat.le_of_not_lt hlast), if_neg (Nat.lt_irrefl _), if_pos rfl,
          if_neg hlast, take_of_length_le (Nat.le_of_not_lt hlast), take_length]
        exact ⟨rfl, .inr ⟨update_self .., rfl⟩, rfl⟩
  · rw [h]
    refine ⟨?_, .inr ⟨h, by omega⟩, rfl⟩
    rw [if_neg (by omega), take_of_length_le (by omega), drop_length]

theorem getNextBatch_frame {cursor : UInt64} (hne : id ≠ cursor) (count : ℕ)
    (manager : ScanStateManager) :
    (manager.getNextBatch cursor count).2.scanStates id = manager.scanStates id ∧
      (manager.getNextBatch cursor count).2.nextScanId = manager.nextScanId := by
  rw [ScanStateManager.getNextBatch]
  split
  · exact ⟨rfl, rfl⟩
  · split
    · exact ⟨update_of_ne hne .., rfl⟩
    · exact ⟨update_of_ne hne .., rfl⟩

theorem scan_frame {cursor : UInt64} (hne : id ≠ cursor)
    (hnew : cursor = 0 → id ≠ manager.nextScanId + 1) (count : ℕ) (filtered : List Bytes) :
    (manager.scan cursor count filtered).2.scanStates id = manager.scanStates id ∧
      (manager.scan cursor count filtered).2.nextScanId =
        manager.nextScanId + if cursor = 0 then 1 else 0 := by
  rw [ScanStateManager.scan]
  split
  · next hzero =>
    obtain ⟨hstates, hnext⟩ := getNextBatch_frame (hnew hzero) count (manager.startScan filtered).2
    exact ⟨hstates.trans (update_of_ne (hnew hzero) ..), hnext⟩
  · obtain ⟨hstates, hnext⟩ := getNextBatch_frame hne count manager
    exact ⟨hstates, hnext.trans (UInt64.add_zero _).symm⟩

end Sessions

/-! ### Other clients -/

section Others

variable {env : ScanEnv} {id : UInt64}

/-- The calls do not continue this session. -/
def Apart (env : ScanEnv) (id : UInt64) (calls : List Call) : Prop :=
  ∀ call ∈ calls, ∀ r, parse env call.args = .ok r → id ≠ r.1

theorem starts_cons (call : Call) (calls : List Call) :
    starts env (call :: calls) = starts env [call] + starts env calls := by
  rw [starts, starts, starts, ← countP_append, singleton_append]

theorem counter_ne {s : ℕ} (hs : s + 1 < 2 ^ 64) : id ≠ id + UInt64.ofNat s + 1 := by
  have hlt := id.toNat_lt
  rw [Ne, ← UInt64.toNat_inj]
  simp only [UInt64.toNat_add, UInt64.toNat_ofNat', UInt64.toNat_ofNat]
  omega

theorem handleScan_frame {call : Call} {manager : ScanStateManager} (h : Apart env id [call])
    (hnew : starts env [call] = 1 → id ≠ manager.nextScanId + 1) :
    (handleScan env call.args call.allKeys manager).2.scanStates id = manager.scanStates id ∧
      (handleScan env call.args call.allKeys manager).2.nextScanId =
        manager.nextScanId + UInt64.ofNat (starts env [call]) := by
  have hstarts : starts env [call] = match parse env call.args with
      | .ok (cursor, _) => if cursor = 0 then 1 else 0
      | .error _ => 0 := by
    rw [starts, countP_singleton]
    cases hparse : parse env call.args with
    | error outcome => rfl
    | ok r => exact ite_congr (propext decide_eq_true_iff) (fun _ => rfl) fun _ => rfl
  rw [handleScan]
  cases hparse : parse env call.args with
  | error outcome =>
    rw [hparse] at hstarts
    rw [hstarts]
    exact ⟨rfl, (UInt64.add_zero _).symm⟩
  | ok r =>
    obtain ⟨cursor, pattern, count⟩ := r
    rw [hparse] at hstarts
    have hne := h call (mem_singleton_self call) _ hparse
    obtain ⟨hstates, hnext⟩ := scan_frame hne
      (fun hzero => hnew (hstarts.trans (if_pos hzero))) count
      (filteredKeys pattern call.allKeys)
    refine ⟨hstates, hnext.trans ?_⟩
    rw [hstarts]
    dsimp only
    split <;> rfl

theorem otherCalls_frame {calls : List Call} (h : Apart env id calls) {s : ℕ}
    (hfew : s + starts env calls < 2 ^ 64) {manager : ScanStateManager}
    (hnext : manager.nextScanId = id + UInt64.ofNat s) :
    (otherCalls env calls manager).scanStates id = manager.scanStates id ∧
      (otherCalls env calls manager).nextScanId =
        id + UInt64.ofNat (s + starts env calls) := by
  induction calls generalizing s manager with
  | nil => exact ⟨rfl, hnext⟩
  | cons call calls ih =>
    rw [starts_cons] at hfew ⊢
    have hcall : Apart env id [call] := fun c hc =>
      h c (mem_singleton.mp hc ▸ mem_cons_self)
    obtain ⟨hstates, hcount⟩ := handleScan_frame hcall fun hone => by
      rw [hnext]
      exact counter_ne (by omega)
    have hnext' : (handleScan env call.args call.allKeys manager).2.nextScanId =
        id + UInt64.ofNat (s + starts env [call]) := by
      rw [hcount, hnext, UInt64.ofNat_add, UInt64.add_assoc]
    obtain ⟨hstates', hcount'⟩ := ih (fun c hc => h c (mem_cons_of_mem call hc))
      (by omega) hnext'
    exact ⟨hstates'.trans hstates, hcount'.trans (by rw [Nat.add_assoc])⟩

end Others

/-! ### The client -/

section Clients

variable {env : ScanEnv}

theorem bulkStrings_map (keys : List Bytes) :
    bulkStrings (keys.map fun key => .ofString key .kBulkString) = some keys := by
  induction keys with
  | nil => rfl
  | cons key keys ih => rw [map_cons, bulkStrings, ih, Option.map_some]

theorem one_le_count {args : List CommandArg} {pattern : Bytes} {count : Int32}
    (hcount : 1 ≤ count) {r : Bytes × Int32} (h : options env args pattern count = .ok r) :
    1 ≤ r.2 := by
  fun_induction options env args pattern count with
  | case1 | case2 => cases h; exact hcount
  | case3 pattern count arg next args hmatch ih | case6 pattern count arg next args hmatch hcnt ih =>
    exact ih hcount h
  | case4 => cases h
  | case5 pattern count arg next args hmatch hcnt count' hstoi ih =>
    refine ih ?_ h
    split
    · decide
    · next hge => exact Int32.not_lt.mp hge

theorem clientCall_eq {args : List CommandArg} {pattern : Bytes} {count : Int32}
    (hargs : options env args (ascii "*") 10 = .ok (pattern, count)) {w : Client} {c : UInt64}
    (hcursor : w.cursor = natText c.toNat) (allKeys : List (List Bytes)) :
    clientCall env args allKeys w =
      let result := w.manager.scan c count.toInt.toNat (filteredKeys pattern allKeys)
      ⟨natText result.1.1.toNat, w.keys ++ result.1.2, result.2⟩ := by
  have hparse : parse env (.ofString w.cursor .kBulkString :: args) =
      .ok (c, pattern, count.toInt.toNat) := by
    unfold parse
    rw [hcursor]
    dsimp only [CommandArg.ofString]
    rw [env.simpleAtoi_text, hargs]
  rw [clientCall, handleScan, hparse]
  dsimp only [scanReply, CommandResult.ofResponse]
  rw [bulkStrings_map]
  rfl

theorem natText_eq_zero_iff (c : UInt64) : natText c.toNat = ascii "0" ↔ c = 0 := by
  constructor
  · intro h
    have hvalue := congrArg (value 0) h
    rw [value_natText] at hvalue
    exact UInt64.toNat_inj.mp hvalue
  · rintro rfl
    decide

variable {args : ℕ → List CommandArg} {allKeys : ℕ → List (List Bytes)}
  {others : ℕ → List Call} {manager : ScanStateManager} {id : UInt64} {keys : List Bytes}

/-- After call `n`, the client has the cursor of its session and the keys before a position. -/
structure Session (id : UInt64) (keys : List Bytes) (s n pos : ℕ) (w : Client) : Prop where
  cursor_eq : w.cursor = Decimal.natText id.toNat
  keys_eq : w.keys = keys.take pos
  isOpen : Open id keys pos w.manager
  next : w.manager.nextScanId = id + UInt64.ofNat s
  le : pos ≤ keys.length
  calls : n ≤ pos

theorem take_append_drop_take {pos next : ℕ} (h : pos ≤ next) :
    keys.take pos ++ (keys.take next).drop pos = keys.take next := by
  have hsplit := take_append_drop pos (keys.take next)
  rwa [take_take, Nat.min_eq_left h] at hsplit

theorem session_start {pattern : Bytes} {count : Int32}
    (hargs : options env (args 0) (ascii "*") 10 = .ok (pattern, count))
    (hid : manager.nextScanId + 1 ≠ 0) :
    ∃ pos, Session (manager.nextScanId + 1) (filteredKeys pattern (allKeys 0)) 0 0 pos
      (client env args allKeys others manager 0) := by
  generalize hkeys : filteredKeys pattern (allKeys 0) = keys
  have hstart : Open (manager.nextScanId + 1) keys 0 (manager.startScan keys).2 :=
    .inl (update_self ..)
  obtain ⟨hbatch, hopen, hnext⟩ :=
    getNextBatch_open hstart (Nat.zero_le _) hid count.toInt.toNat
  refine ⟨min (0 + count.toInt.toNat) keys.length, ?_⟩
  rw [client, clientCall_eq hargs (by decide : ascii "0" = natText (0 : UInt64).toNat),
    hkeys, ScanStateManager.scan, if_pos rfl]
  refine ⟨rfl, ?_, hopen, hnext.trans (UInt64.add_zero _).symm, Nat.min_le_right ..,
    Nat.zero_le _⟩
  refine (congrArg Prod.snd hbatch).trans ?_
  rw [drop_zero, take_eq_take_min]

theorem session_step {s n pos : ℕ} {w w' : Client} (h : Session id keys s n pos w) (hid : id ≠ 0)
    {options : List CommandArg} {r : Bytes × Int32}
    (hargs : Scan.options env options (ascii "*") 10 = .ok r) {calls : List Call}
    (hapart : Apart env id calls) (hfew : s + starts env calls < 2 ^ 64)
    {current : List (List Bytes)} (hw' : w' = clientCall env options current
      { w with manager := otherCalls env calls w.manager }) :
    (∃ pos', pos < pos' ∧ Session id keys (s + starts env calls) (n + 1) pos' w') ∨
      w'.cursor = ascii "0" ∧ w'.keys = keys := by
  obtain ⟨pattern, count⟩ := r
  have hcount : 1 ≤ count.toInt.toNat := by
    have hle : 1 ≤ count := one_le_count (by decide) hargs
    rw [Int32.le_iff_toInt_le, Int32.toInt_one] at hle
    omega
  obtain ⟨hstates, hnext⟩ := otherCalls_frame hapart hfew h.next
  have hopen : Open id keys pos (otherCalls env calls w.manager) := by
    rw [Open, hstates]
    exact h.isOpen
  obtain ⟨hbatch, hopen', hnext'⟩ := getNextBatch_open hopen h.le hid count.toInt.toNat
  rw [clientCall_eq hargs (w := ⟨w.cursor, w.keys, otherCalls env calls w.manager⟩) h.cursor_eq,
    ScanStateManager.scan, if_neg hid] at hw'
  dsimp only at hw'
  rw [hbatch, h.keys_eq, take_append_drop_take (Nat.le_add_right ..)] at hw'
  subst hw'
  split
  · next hmore =>
    rw [Nat.min_eq_left hmore.le] at hopen'
    exact .inl ⟨pos + count.toInt.toNat, by omega,
      ⟨rfl, rfl, hopen', hnext'.trans hnext, hmore.le, by have := h.calls; omega⟩⟩
  · next hmore =>
    exact .inr ⟨(natText_eq_zero_iff 0).mpr rfl, take_of_length_le (Nat.le_of_not_lt hmore)⟩

theorem session_ends (hid : id ≠ 0)
    (hargs : ∀ n, ∃ r, options env (args n) (ascii "*") 10 = .ok r)
    (hapart : ∀ n, Apart env id (others n))
    (hfew : ∑ k ∈ Finset.range (keys.length + 1), starts env (others k) < 2 ^ 64) {n pos : ℕ}
    (h : Session id keys (∑ k ∈ Finset.range n, starts env (others k)) n pos
      (client env args allKeys others manager n)) :
    ∃ m, (client env args allKeys others manager m).cursor = ascii "0" ∧
      (∀ k, n ≤ k → k < m → (client env args allKeys others manager k).cursor ≠ ascii "0") ∧
      (client env args allKeys others manager m).keys = keys := by
  induction hrest : keys.length - pos using Nat.strong_induction_on generalizing n pos with
  | _ rest ih =>
  have hle := h.le
  have hcalls := h.calls
  obtain ⟨r, hr⟩ := hargs (n + 1)
  have hopen : (client env args allKeys others manager n).cursor ≠ ascii "0" := by
    rw [h.cursor_eq]
    exact fun hzero => hid ((natText_eq_zero_iff id).mp hzero)
  have hstarts : ∑ k ∈ Finset.range n, starts env (others k) + starts env (others n) < 2 ^ 64 := by
    rw [← Finset.sum_range_succ]
    exact (Finset.sum_le_sum_of_subset
      (Finset.range_mono (Nat.succ_le_succ (hcalls.trans hle)))).trans_lt hfew
  rcases session_step h hid hr (hapart n) hstarts rfl with ⟨pos', hpos, h'⟩ | ⟨hzero, hkeys⟩
  · rw [← Finset.sum_range_succ] at h'
    have hle' := h'.le
    obtain ⟨m, hm, hbefore, hkeys⟩ := ih (keys.length - pos') (by omega) h' rfl
    refine ⟨m, hm, fun k hk hkm => ?_, hkeys⟩
    rcases Nat.eq_or_lt_of_le hk with rfl | hlt
    · exact hopen
    · exact hbefore k hlt hkm
  · refine ⟨n + 1, hzero, fun k hk hkm => ?_, hkeys⟩
    obtain rfl : k = n := by omega
    exact hopen

theorem client_keys {pattern : Bytes} {count : Int32}
    (hfirst : options env (args 0) (ascii "*") 10 = .ok (pattern, count))
    (hargs : ∀ n, ∃ r, options env (args n) (ascii "*") 10 = .ok r)
    (hapart : ∀ n, Apart env (manager.nextScanId + 1) (others n))
    (hid : manager.nextScanId + 1 ≠ 0)
    (hfew : ∑ k ∈ Finset.range ((filteredKeys pattern (allKeys 0)).length + 1),
      starts env (others k) < 2 ^ 64) :
    ∃ n, (client env args allKeys others manager n).cursor = ascii "0" ∧
      (∀ k < n, (client env args allKeys others manager k).cursor ≠ ascii "0") ∧
      (client env args allKeys others manager n).keys = filteredKeys pattern (allKeys 0) := by
  obtain ⟨pos, hsession⟩ := @session_start env args allKeys others manager pattern count hfirst hid
  obtain ⟨n, hzero, hbefore, hkeys⟩ := session_ends (n := 0) hid hargs hapart hfew hsession
  exact ⟨n, hzero, fun k hk => hbefore k (Nat.zero_le k) hk, hkeys⟩

/-- Each key is returned once, whatever other sessions there are; but fewer than `2^64` may be
started meanwhile, and the first number after the counter must not be 0. -/
theorem client_complete (env : ScanEnv) (manager : ScanStateManager)
    (args : ℕ → List CommandArg) (allKeys : ℕ → List (List Bytes)) (others : ℕ → List Call)
    (pattern : Bytes) (count : Int32)
    (hfirst : options env (args 0) (ascii "*") 10 = .ok (pattern, count))
    (hargs : ∀ n, ∃ r, options env (args n) (ascii "*") 10 = .ok r)
    (hdistinct : (filteredKeys pattern (allKeys 0)).Nodup)
    (hapart : ∀ n, Apart env (manager.nextScanId + 1) (others n))
    (hid : manager.nextScanId + 1 ≠ 0)
    (hfew : ∑ k ∈ Finset.range ((filteredKeys pattern (allKeys 0)).length + 1),
      starts env (others k) < 2 ^ 64) :
    ∃ n, (client env args allKeys others manager n).cursor = ascii "0" ∧
      (∀ k < n, (client env args allKeys others manager k).cursor ≠ ascii "0") ∧
      ∀ key, (client env args allKeys others manager n).keys.count key =
        if key ∈ filteredKeys pattern (allKeys 0) then 1 else 0 := by
  obtain ⟨n, hzero, hbefore, hkeys⟩ := client_keys hfirst hargs hapart hid hfew
  refine ⟨n, hzero, hbefore, fun key => ?_⟩
  rw [hkeys]
  exact hdistinct.count

end Clients

/-! ### Two keys -/

def simpleScan : ScanEnv where
  simpleAtoi text :=
    if text ≠ [] ∧ text.all Decimal.isDigit ∧ Decimal.value 0 text < 2 ^ 64 then
      some (UInt64.ofNat (Decimal.value 0 text))
    else none
  simpleAtoi_text n := by
    rw [Decimal.value_natText, UInt64.ofNat_toNat, if_pos]
    exact ⟨Decimal.natText_ne_nil _, all_eq_true.mpr fun _ => Decimal.isDigit_of_mem_natText,
      n.toNat_lt⟩
  stoi text := (Decimal.fromChars text).map Int64.toInt32

def countOne : List CommandArg :=
  [.ofString (ascii "count") .kBulkString, .ofString (ascii "1") .kBulkString]

def emptyScan : Call := ⟨[.ofString (ascii "0") .kBulkString], []⟩

def twoKeys : List (List Bytes) := [[ascii "a"], [ascii "b"]]

theorem options_countOne : options simpleScan countOne (ascii "*") 10 = .ok (ascii "*", 1) := rfl

theorem apart_emptyScan {id : UInt64} (hid : id ≠ 0) (n : ℕ) :
    Apart simpleScan id (replicate n emptyScan) := by
  intro call hcall r hparse
  rw [eq_of_mem_replicate hcall] at hparse
  cases hparse
  exact hid

/-- A client that takes the two keys one by one; between its calls, there are others. -/
def twoKeysClient : ℕ → Client :=
  client simpleScan (fun _ => countOne) (fun _ => twoKeys) (fun _ => calls) .init

theorem client_complete_twoKeys : ∃ n, (twoKeysClient [emptyScan] n).cursor = ascii "0" ∧
    (∀ k < n, (twoKeysClient [emptyScan] k).cursor ≠ ascii "0") ∧
    ∀ key, (twoKeysClient [emptyScan] n).keys.count key =
      if key ∈ filteredKeys (ascii "*") twoKeys then 1 else 0 :=
  client_complete simpleScan .init _ _ _ (ascii "*") 1 options_countOne
    (fun _ => ⟨_, options_countOne⟩) (by decide)
    (fun _ => apart_emptyScan (n := 1) (by decide)) (by decide) (by decide)

theorem handleScan_emptyScan (manager : ScanStateManager) :
    (handleScan simpleScan emptyScan.args emptyScan.allKeys manager).2 =
      ⟨manager.nextScanId + 1,
        update manager.scanStates (manager.nextScanId + 1) none⟩ := by
  have hstart : (manager.startScan []).2.scanStates (manager.nextScanId + 1) =
      some ⟨[], 0, manager.nextScanId + 1⟩ := update_self ..
  have hscan : manager.scan 0 10 [] = ((manager.nextScanId + 1, []),
      (manager.startScan []).2.put (manager.nextScanId + 1) none) := by
    rw [ScanStateManager.scan, if_pos rfl]
    dsimp only
    rw [ScanStateManager.getNextBatch, ScanStateManager.startScan] at *
    dsimp only at *
    rw [hstart]
    rfl
  have hhandle : (handleScan simpleScan emptyScan.args emptyScan.allKeys manager).2 =
      (manager.scan 0 10 []).2 := rfl
  rw [hhandle, hscan]
  exact congrArg (ScanStateManager.mk _) (update_idem ..)

theorem otherCalls_emptyScan (n : ℕ) (manager : ScanStateManager) {c : UInt64}
    (hc : manager.scanStates c = none ∨ ∃ i < n, c = manager.nextScanId + UInt64.ofNat i + 1) :
    (otherCalls simpleScan (replicate n emptyScan) manager).scanStates c = none := by
  induction n generalizing manager with
  | zero =>
    rcases hc with hc | ⟨i, hi, -⟩
    · exact hc
    · exact absurd hi (Nat.not_lt_zero i)
  | succ n ih =>
    rw [replicate_succ, otherCalls, foldl_cons, handleScan_emptyScan]
    refine ih _ ?_
    by_cases hnew : c = manager.nextScanId + 1
    · subst hnew
      exact .inl (update_self ..)
    · rcases hc with hc | ⟨i, hi, rfl⟩
      · exact .inl ((update_of_ne hnew ..).trans hc)
      · cases i with
        | zero => exact absurd (congrArg (· + 1) (UInt64.add_zero manager.nextScanId)) hnew
        | succ i =>
          refine .inr ⟨i, Nat.lt_of_succ_lt_succ hi, ?_⟩
          dsimp only
          rw [UInt64.ofNat_add, UInt64.ofNat_one]
          ac_rfl

theorem twoKeysClient_zero :
    (twoKeysClient calls 0).cursor = ascii "1" ∧ (twoKeysClient calls 0).keys = [ascii "a"] ∧
      (twoKeysClient calls 0).manager.nextScanId = 1 := by
  have hfirst : twoKeysClient calls 0 =
      clientCall simpleScan countOne twoKeys ⟨ascii "0", [], .init⟩ := rfl
  rw [hfirst]
  decide

theorem twoKeysClient_of_lost {calls : List Call}
    (hlost : (otherCalls simpleScan calls (twoKeysClient calls 0).manager).scanStates 1 = none) :
    (twoKeysClient calls 1).cursor = ascii "0" ∧ (twoKeysClient calls 1).keys = [ascii "a"] := by
  obtain ⟨hcursor, hkeys, -⟩ := twoKeysClient_zero calls
  rw [(by decide : ascii "1" = natText (1 : UInt64).toNat)] at hcursor
  have hcall := clientCall_eq options_countOne (w := ⟨(twoKeysClient calls 0).cursor,
    (twoKeysClient calls 0).keys, otherCalls simpleScan calls (twoKeysClient calls 0).manager⟩)
    hcursor twoKeys
  rw [ScanStateManager.scan, if_neg (by decide), ScanStateManager.getNextBatch, hlost] at hcall
  rw [twoKeysClient, client, ← twoKeysClient, hcall]
  exact ⟨(natText_eq_zero_iff 0).mpr rfl, (append_nil _).trans hkeys⟩

/-- After `2^64` sessions the number of a session is given again: the second key is lost. -/
theorem client_incomplete :
    Apart simpleScan 1 (replicate (2 ^ 64) emptyScan) ∧
      (twoKeysClient (replicate (2 ^ 64) emptyScan) 0).cursor = ascii "1" ∧
      (twoKeysClient (replicate (2 ^ 64) emptyScan) 1).cursor = ascii "0" ∧
      (twoKeysClient (replicate (2 ^ 64) emptyScan) 1).keys = [ascii "a"] ∧
      filteredKeys (ascii "*") twoKeys = [ascii "a", ascii "b"] := by
  generalize hcalls : replicate (2 ^ 64) emptyScan = calls
  have hlost : (otherCalls simpleScan calls (twoKeysClient calls 0).manager).scanStates 1 =
      none := by
    have hnext := (twoKeysClient_zero calls).2.2
    rw [← hcalls] at hnext ⊢
    refine otherCalls_emptyScan _ _ (.inr ⟨2 ^ 64 - 1, by decide, ?_⟩)
    rw [hnext]
    decide
  obtain ⟨hcursor, hkeys⟩ := twoKeysClient_of_lost hlost
  exact ⟨hcalls ▸ apart_emptyScan (by decide) _, (twoKeysClient_zero calls).1, hcursor, hkeys,
    by decide⟩

end Scan
