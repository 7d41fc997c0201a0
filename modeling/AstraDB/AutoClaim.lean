/-
Sweeps of `XAUTOCLAIM`.

A client calls `XAUTOCLAIM` from 0-0, and then again and again from the cursor that it got, until
that is 0-0.  The cursor is the start of the call, unless the limit is reached: then it is an ID
that is pending.  So only the first call can return 0-0.

* `sweep_iff` — a sweep claims everything once and ends, if and only if one call is enough.
-/
import AstraDB.StreamCommands
import AstraDB.StreamGroups

open List Std.TreeMap StreamId

namespace StreamData

open Ledger

variable {env : StreamEnv} {consumer : Bytes} {minIdleTime : Int64} {startId : StreamId}
  {count : UInt64} {now : env.Time}

theorem autoClaimLoop_next (rest : List (StreamId × PendingEntry env.Time))
    (claimed : List StreamEntry) (pending : PendingEntries env.Time) :
    (autoClaimLoop env consumer minIdleTime startId count now rest claimed pending).1 = startId ∨
      (autoClaimLoop env consumer minIdleTime startId count now rest claimed pending).1 ∈
        rest.map Prod.fst := by
  induction rest generalizing claimed pending with
  | nil => exact .inl rfl
  | cons x rest ih =>
    rw [autoClaimLoop, map_cons]
    split
    · exact .inr mem_cons_self
    · split
      · exact (ih _ _).imp_right (mem_cons_of_mem _)
      · split
        · exact (ih _ _).imp_right (mem_cons_of_mem _)
        · exact (ih _ _).imp_right (mem_cons_of_mem _)

/-- The entry is after the start, and idle for long enough. -/
def Due (env : StreamEnv) (minIdleTime : Int64) (startId : StreamId) (now : env.Time)
    (x : StreamId × PendingEntry env.Time) : Prop :=
  startId < x.1 ∧ minIdleTime ≤ env.idleMs now x.2.lastDelivered

theorem autoClaimLoop_cons_due {x : StreamId × PendingEntry env.Time}
    (h : Due env minIdleTime startId now x) (rest : List (StreamId × PendingEntry env.Time))
    {claimed : List StreamEntry} (hcount : claimed.length < count.toNat)
    (pending : PendingEntries env.Time) :
    autoClaimLoop env consumer minIdleTime startId count now (x :: rest) claimed pending =
      autoClaimLoop env consumer minIdleTime startId count now rest
        (claimed ++ [⟨x.1, x.2.entry.fields⟩])
        (pending.insert x.1 (transfer consumer now x.2)) := by
  rw [autoClaimLoop, if_neg (not_le.mpr hcount), if_neg (not_le.mpr h.1), if_pos h.2]

theorem autoClaimLoop_all {rest : List (StreamId × PendingEntry env.Time)}
    (h : ∀ x ∈ rest, Due env minIdleTime startId now x) (claimed : List StreamEntry)
    (hcount : claimed.length + rest.length ≤ count.toNat) (pending : PendingEntries env.Time) :
    (autoClaimLoop env consumer minIdleTime startId count now rest claimed pending).1 = startId ∧
      (autoClaimLoop env consumer minIdleTime startId count now rest claimed pending).2.1 =
        claimed ++ rest.map fun x => ⟨x.1, x.2.entry.fields⟩ := by
  induction rest generalizing claimed pending with
  | nil => exact ⟨rfl, (append_nil claimed).symm⟩
  | cons x rest ih =>
    rw [length_cons] at hcount
    rw [autoClaimLoop_cons_due (h x mem_cons_self) rest (by omega)]
    obtain ⟨hnext, hclaimed⟩ := ih (fun y hy => h y (mem_cons_of_mem _ hy))
      (claimed ++ [⟨x.1, x.2.entry.fields⟩])
      (by rw [length_append, length_singleton]; omega)
      (pending.insert x.1 (transfer consumer now x.2))
    exact ⟨hnext, by rw [hclaimed, append_assoc]; rfl⟩

theorem autoClaimLoop_cut {rest : List (StreamId × PendingEntry env.Time)}
    (h : ∀ x ∈ rest, Due env minIdleTime startId now x) {claimed : List StreamEntry}
    (hclaimed : claimed.length ≤ count.toNat)
    (hcount : count.toNat < claimed.length + rest.length) (pending : PendingEntries env.Time) :
    (autoClaimLoop env consumer minIdleTime startId count now rest claimed pending).1 ∈
      rest.map Prod.fst := by
  induction rest generalizing claimed pending with
  | nil => exact absurd hcount (not_lt.mpr hclaimed)
  | cons x rest ih =>
    rw [length_cons] at hcount
    by_cases hfull : count.toNat ≤ claimed.length
    · rw [autoClaimLoop, if_pos hfull]
      exact mem_cons_self
    · rw [autoClaimLoop_cons_due (h x mem_cons_self) rest (by omega)]
      refine mem_cons_of_mem _ (ih (fun y hy => h y (mem_cons_of_mem _ hy)) ?_ ?_ _)
      · rw [length_append, length_singleton]
        omega
      · rw [length_append, length_singleton]
        omega

theorem autoClaimLoop_notMem {pending : PendingEntries env.Time} {id : StreamId}
    (h : id ∉ pending) : id ∉
      (autoClaimLoop env consumer minIdleTime startId count now pending.toList [] pending).2.2 := by
  have howned : ∀ {pending : PendingEntries env.Time}, id ∉ pending ↔ owned pending id = none := by
    intro pending
    rw [mem_iff_isSome_getElem?, Bool.not_eq_true, Option.isSome_eq_false_iff,
      Option.isNone_iff_eq_none, owned, Option.map_eq_none_iff]
  rw [howned] at h ⊢
  rw [autoClaimLoop_toList, h, foldl_note_none (by rw [given_map_move]; exact not_mem_nil)]

end StreamData

namespace StreamEnv

open StreamData

variable {env : StreamEnv} {other : DatabaseEnv}

variable (env other) in
/-- What a client has: the last cursor, all that was claimed, and the database it talks to. -/
structure Sweep where
  cursor : Bytes
  claimed : List RespValue
  db : Store (env.database other)

/-- The cursor and the claimed entries of a reply. -/
def autoClaimReply : HandlerOutcome → Option (Bytes × List RespValue)
  | .returns result =>
    match result.response with
    | .ofArray [.ofString cursor _, .ofArray claimed] => some (cursor, claimed)
    | _ => none
  | _ => none

/-- `XAUTOCLAIM key group consumer min-idle-time cursor ...` -/
def sweepCall (key groupName consumer minIdle : CommandArg) (options : List CommandArg)
    (now : env.Time) (w : Sweep env other) : Sweep env other :=
  let cursor := .ofString w.cursor .kBulkString
  let (outcome, db) :=
    env.handleXAutoClaim (key :: groupName :: consumer :: minIdle :: cursor :: options) now w.db
  match autoClaimReply outcome with
  | none => { w with db }
  | some (cursor, claimed) => { cursor, claimed := w.claimed ++ claimed, db }

/-- The calls from 0-0 on, with the times at which they are made. -/
def sweep (key groupName consumer minIdle : CommandArg) (options : List CommandArg)
    (now : ℕ → env.Time) (db : Store (env.database other)) : ℕ → Sweep env other
  | 0 => { cursor := ascii "0-0", claimed := [], db }
  | n + 1 => sweepCall key groupName consumer minIdle options (now n)
      (sweep key groupName consumer minIdle options now db n)

/-- What the client gets for a pending entry. -/
def pendingToResp (justId : Bool) (x : StreamId × PendingEntry env.Time) : RespValue :=
  claimedToResp justId ⟨x.1, x.2.entry.fields⟩

variable {key groupName consumer minIdle : CommandArg} {options : List CommandArg}
  {minIdleTime : Int64} {limit : UInt64} {justId : Bool} {s : StreamData env.Time}
  {g : StreamConsumerGroup env.Time}

theorem ne_zero_of_mem_keys (hzero : {} ∉ g.pendingEntries) {id : StreamId}
    (h : id ∈ g.pendingEntries.toList.map Prod.fst) : id ≠ {} := by
  rintro rfl
  obtain ⟨x, hx, hfst⟩ := mem_map.mp h
  refine hzero (mem_iff_isSome_getElem?.mpr ?_)
  rw [← hfst, mem_toList_iff_getElem?_eq_some.mp hx]
  rfl

theorem due_of_idle (hzero : {} ∉ g.pendingEntries) {now : env.Time}
    (hidle : ∀ x ∈ g.pendingEntries.toList, minIdleTime ≤ env.idleMs now x.2.lastDelivered) :
    ∀ x ∈ g.pendingEntries.toList, Due env minIdleTime {} now x := fun x hx =>
  ⟨lt_of_le_of_ne (zero_le x.1)
    (ne_zero_of_mem_keys hzero (mem_map_of_mem hx)).symm, hidle x hx⟩

/-- The client has another cursor than 0-0, and 0-0 is not pending. -/
def Stuck (key groupName : Bytes) (w : Sweep env other) : Prop :=
  ∃ id s g, w.cursor = StreamId.toString id ∧ id ≠ {} ∧ env.getStream key w.db = some s ∧
    s.groups.lookup groupName = some g ∧ {} ∉ g.pendingEntries

section

variable (hmin : env.atoiArg "ERR invalid min-idle-time" minIdle = .ok minIdleTime)
  (hoptions : env.autoClaimOptions options 100 false = .ok (limit, justId))

include hmin hoptions

theorem sweepCall_eq (consumer : CommandArg) {w : Sweep env other}
    (hstream : env.getStream key.value w.db = some s)
    (hgroup : s.groups.lookup groupName.value = some g) (now : env.Time) :
    sweepCall key groupName consumer minIdle options now w =
      let (nextId, claimed, pending) := autoClaimLoop env consumer.value minIdleTime
        (parse env w.cursor) limit now g.pendingEntries.toList [] g.pendingEntries
      { cursor := nextId.toString
        claimed := w.claimed ++ claimed.map (claimedToResp justId)
        db := env.putStream key.value (s.setPending groupName.value g pending) w.db } := by
  rw [sweepCall, handleXAutoClaim, hmin, hoptions]
  dsimp only
  rw [onStream, hstream]
  dsimp only
  rw [autoClaim, hgroup]
  rfl

theorem stuck_after {w : Sweep env other} (hstream : env.getStream key.value w.db = some s)
    (hgroup : s.groups.lookup groupName.value = some g) (hzero : {} ∉ g.pendingEntries)
    {now : env.Time} (hnext : (autoClaimLoop env consumer.value minIdleTime
      (parse env w.cursor) limit now g.pendingEntries.toList [] g.pendingEntries).1 ≠ {}) :
    Stuck key.value groupName.value
      (sweepCall key groupName consumer minIdle options now w) := by
  rw [sweepCall_eq hmin hoptions consumer hstream hgroup now]
  refine ⟨_, _, _, rfl, hnext, getStream_putStream _ _ _,
    (lookup_setPending _ g _).trans (if_pos rfl), ?_⟩
  exact autoClaimLoop_notMem hzero

theorem sweepCall_stuck {w : Sweep env other} (h : Stuck key.value groupName.value w)
    (now : env.Time) :
    Stuck key.value groupName.value
      (sweepCall key groupName consumer minIdle options now w) := by
  obtain ⟨id, s, g, hcursor, hid, hstream, hgroup, hzero⟩ := h
  refine stuck_after hmin hoptions hstream hgroup hzero ?_
  -- the cursor is the start of this call, or an ID that is pending
  rcases autoClaimLoop_next g.pendingEntries.toList [] g.pendingEntries with hnext | hnext
  · rw [hnext, hcursor, Ne, parse_toString_eq_zero_iff]
    exact hid
  · exact ne_zero_of_mem_keys hzero hnext

/-- If the first call leaves entries, the client never gets 0-0. -/
theorem sweep_ne_zero {db : Store (env.database other)}
    (hstream : env.getStream key.value db = some s)
    (hgroup : s.groups.lookup groupName.value = some g) (hzero : {} ∉ g.pendingEntries)
    {now : ℕ → env.Time}
    (hidle : ∀ x ∈ g.pendingEntries.toList, minIdleTime ≤ env.idleMs (now 0) x.2.lastDelivered)
    (hsize : limit.toNat < g.pendingEntries.size) {n : ℕ} (hn : 0 < n) :
    (sweep key groupName consumer minIdle options now db n).cursor ≠ ascii "0-0" := by
  have hall : ∀ m, Stuck key.value groupName.value
      (sweep key groupName consumer minIdle options now db (m + 1)) := by
    intro m
    induction m with
    | zero =>
      refine stuck_after hmin hoptions hstream hgroup hzero (ne_zero_of_mem_keys hzero ?_)
      have hstart : parse env
          (sweep key groupName consumer minIdle options now db 0).cursor = {} :=
        parse_zero env
      rw [hstart]
      refine autoClaimLoop_cut (due_of_idle hzero hidle) (Nat.zero_le _) ?_ _
      rw [length_toList, length_nil, Nat.zero_add]
      exact hsize
    | succ m ih => exact sweepCall_stuck hmin hoptions ih (now (m + 1))
  obtain ⟨m, rfl⟩ := Nat.exists_eq_succ_of_ne_zero hn.ne'
  obtain ⟨id, _, _, hid, hne, -⟩ := hall m
  rw [hid, Ne, toString_eq_zero_iff env]
  exact hne

/-- **Sweeps.**  If all pending entries are idle for long enough, then a sweep comes back to 0-0
with every one of them claimed once, if and only if there are no more than one call may claim. -/
theorem sweep_iff {db : Store (env.database other)}
    (hstream : env.getStream key.value db = some s)
    (hgroup : s.groups.lookup groupName.value = some g) (hzero : {} ∉ g.pendingEntries)
    {now : ℕ → env.Time}
    (hidle : ∀ x ∈ g.pendingEntries.toList, minIdleTime ≤ env.idleMs (now 0) x.2.lastDelivered) :
    (∃ n, 0 < n ∧
      (sweep key groupName consumer minIdle options now db n).cursor = ascii "0-0" ∧
      (∀ m, 0 < m → m < n →
        (sweep key groupName consumer minIdle options now db m).cursor ≠ ascii "0-0") ∧
      (sweep key groupName consumer minIdle options now db n).claimed.Perm
        (g.pendingEntries.toList.map (pendingToResp justId))) ↔
      g.pendingEntries.size ≤ limit.toNat := by
  constructor
  · rintro ⟨n, hn, hcursor, -, -⟩
    by_contra hsize
    exact sweep_ne_zero hmin hoptions hstream hgroup hzero hidle (not_le.mp hsize) hn hcursor
  · intro hsize
    have hlength : 0 + g.pendingEntries.toList.length ≤ limit.toNat := by
      rw [length_toList, Nat.zero_add]
      exact hsize
    obtain ⟨hnext, hclaimed⟩ := @autoClaimLoop_all env consumer.value _ _ limit _ _
      (due_of_idle hzero hidle) [] hlength g.pendingEntries
    have hone := sweepCall_eq (w := ⟨ascii "0-0", [], db⟩) hmin hoptions consumer hstream hgroup
      (now 0)
    rw [parse_zero] at hone
    refine ⟨1, Nat.one_pos, ?_, fun m hm hlt => absurd hlt (by omega), ?_⟩
    · rw [sweep, sweep, hone]
      dsimp only
      rw [hnext]
      rfl
    · rw [sweep, sweep, hone]
      dsimp only
      rw [hclaimed, nil_append, nil_append, map_map]
      exact List.Perm.refl _

end

def twoPending : StreamConsumerGroup simpleStreams.Time where
  name := ascii "g"
  lastDeliveredId := ⟨2, 1⟩
  pendingEntries := ((∅ : PendingEntries simpleStreams.Time).insert ⟨1, 1⟩
    ⟨⟨⟨1, 1⟩, []⟩, ascii "a", 1, (5 : Int64)⟩).insert ⟨2, 1⟩
    ⟨⟨⟨2, 1⟩, []⟩, ascii "a", 1, (5 : Int64)⟩

def withPending : Store (simpleStreams.database simpleDatabase) :=
  simpleStreams.putStream (ascii "k")
    { groups := (∅ : AList fun _ : Bytes => StreamConsumerGroup simpleStreams.Time).insert
        (ascii "g") twoPending } Store.empty

def sampleSweep (limit : String) : ℕ → Sweep simpleStreams simpleDatabase :=
  sweep (.ofString (ascii "k") .kBulkString) (.ofString (ascii "g") .kBulkString)
    (.ofString (ascii "b") .kBulkString) (.ofString (ascii "0") .kBulkString)
    (words ["COUNT", limit]) (fun _ => (9 : Int64)) withPending

theorem minIdle_zero : simpleStreams.atoiArg "ERR invalid min-idle-time"
    (.ofString (ascii "0") .kBulkString) = .ok 0 := rfl

theorem sweep_sample : ∃ n, (sampleSweep "2" n).cursor = ascii "0-0" ∧
    (sampleSweep "2" n).claimed.Perm
      (twoPending.pendingEntries.toList.map (pendingToResp false)) := by
  have hoptions : simpleStreams.autoClaimOptions (words ["COUNT", "2"]) 100 false =
    .ok (2, false) := rfl
  obtain ⟨n, -, hcursor, -, hclaimed⟩ := (@sweep_iff simpleStreams simpleDatabase
    (.ofString (ascii "k") .kBulkString) (.ofString (ascii "g") .kBulkString)
    (.ofString (ascii "b") .kBulkString) _ _ _ _ _ _ twoPending minIdle_zero hoptions withPending
    rfl rfl (by decide +kernel) (fun _ => (9 : Int64)) (by decide +kernel)).mpr (by decide +kernel)
  exact ⟨n, hcursor, hclaimed⟩

/-- With one entry a call, the second entry becomes the cursor, and the second call skips it. -/
theorem sweep_skips : (∀ n, 0 < n → (sampleSweep "1" n).cursor ≠ ascii "0-0") ∧
    (sampleSweep "1" 2).cursor = ascii "2-1" ∧
    (sampleSweep "1" 2).claimed = [streamEntryToResp ⟨⟨1, 1⟩, []⟩] := by
  have hoptions : simpleStreams.autoClaimOptions (words ["COUNT", "1"]) 100 false =
    .ok (1, false) := rfl
  have hgroup : AList.lookup (ascii "g")
      ((∅ : AList fun _ : Bytes => StreamConsumerGroup simpleStreams.Time).insert
        (ascii "g") twoPending) = some twoPending := rfl
  refine ⟨fun n hn => ?_, by rfl, by rfl⟩
  exact sweep_ne_zero minIdle_zero hoptions rfl hgroup (by decide +kernel) (by decide +kernel)
    (by decide +kernel) hn

end StreamEnv
