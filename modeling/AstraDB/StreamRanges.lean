/-
Ranges in both directions, and groups that start at the end.

`XRANGE` knows the symbols `-` and `+`.  `XREVRANGE` and `XGROUP CREATE` read them, and `$`, like
any ID, that is as 0-0.

* `range_reverse_and_dollar` — when one direction is the reverse of the other, and when a group that
  is created with `$` gets new entries only.
-/
import AstraDB.StreamCommands
import AstraDB.StreamGroups

open List StreamId

namespace StreamData

open Ledger Runs

variable {env : StreamEnv}

theorem rangeLoop_eq_filter (start stop : StreamId) (entries : List StreamEntry) (found : ℕ) :
    rangeLoop start stop 0 entries found =
      entries.filter fun e => start ≤ e.id ∧ e.id ≤ stop := by
  induction entries generalizing found with
  | nil => rfl
  | cons entry entries ih =>
    rw [rangeLoop]
    split
    · next h => rw [ih, filter_cons_of_neg (by simpa [← not_lt, ← not_or] using h)]
    · next h =>
      rw [if_neg (fun hpos => absurd hpos.1 (Nat.lt_irrefl 0)), ih,
        filter_cons_of_pos (by simpa [not_or] using h)]

theorem revRangeLoop_eq_filter (start stop : StreamId) {count : UInt64}
    {entries : List StreamEntry} {processed : ℕ} (h : processed + entries.length ≤ count.toNat) :
    revRangeLoop start stop count entries processed =
      entries.filter fun e => start ≤ e.id ∧ e.id ≤ stop := by
  induction entries generalizing processed with
  | nil => rfl
  | cons entry entries ih =>
    rw [length_cons] at h
    rw [revRangeLoop, if_neg (by omega)]
    split
    · next hout =>
      rw [ih (by omega), filter_cons_of_neg (by simpa [← not_lt, ← not_or] using hout)]
    · next hin => rw [ih (by omega), filter_cons_of_pos (by simpa [not_or] using hin)]

variable {group : Bytes} {s : StreamData env.Time}

/-- The group is past `start`, and was given nothing up to it. -/
def GivenAbove (start : StreamId) (group : Bytes) (s : StreamData env.Time)
    (history : List StreamEvent) : Prop :=
  (∃ g, s.groups.lookup group = some g ∧ start ≤ g.lastDeliveredId) ∧
    ∀ id ∈ given (ledger group history), start < id

theorem GivenAbove.perform {start : StreamId} {history : List StreamEvent}
    (h : GivenAbove start group s history) {op : StreamOp env} (hop : op ≠ .destroyGroup group) :
    GivenAbove start group (s.perform op).2 (history ++ (s.perform op).1) := by
  obtain ⟨⟨g, hlookup, hle⟩, habove⟩ := h
  obtain ⟨g', hlookup', hadvances⟩ := perform_advances hlookup hop
  refine ⟨⟨g', hlookup', hle.trans hadvances.le⟩, fun id hid => ?_⟩
  rw [ledger, filterMap_append, given_append, mem_append] at hid
  rcases hid with hid | hid
  · exact habove id hid
  · exact hle.trans_lt (hadvances.above id hid)

theorem exists_mem_readGroup {g : StreamConsumerGroup env.Time}
    (h : s.groups.lookup group = some g) {entry : StreamEntry} (hentry : entry ∈ s.entries)
    (hlt : g.lastDeliveredId < entry.id) (consumer : Bytes) (count : UInt64) (now : ℕ → env.Time) :
    ∃ e ∈ s.entries, e ∈ (s.readGroup group consumer count now).1 := by
  obtain ⟨new, hnew, hsub, hempty, -⟩ := readLoop_spec consumer count now g.lastDeliveredId
    s.entries [] g.pendingEntries
  rw [nil_append] at hnew
  have hne : new ≠ [] := by
    intro hnil
    have hmem : entry ∈ s.entries.filter fun e => g.lastDeliveredId < e.id :=
      mem_filter.mpr ⟨hentry, decide_eq_true hlt⟩
    rw [hempty hnil] at hmem
    exact absurd hmem not_mem_nil
  obtain ⟨e, he⟩ := exists_mem_of_ne_nil new hne
  refine ⟨e, (mem_filter.mp (hsub.subset he)).1, ?_⟩
  rw [readGroup, h]
  dsimp only
  rw [hnew]
  exact he

/-- A new group is never given what was there before, if and only if all of it is up to `start`. -/
theorem createGroup_never_delivers_iff (h : group ∉ s.groups) (start : StreamId) (now : env.Time) :
    (∀ ops : List (StreamOp env), (∀ op ∈ ops, op ≠ .destroyGroup group) →
      ∀ entry ∈ s.entries, ∀ consumer, .delivered group entry consumer ∉
        (results perform (s.createGroup group start).2 ops).1.flatten) ↔
      ∀ entry ∈ s.entries, entry.id ≤ start := by
  have hlookup : (s.createGroup group start).2.groups.lookup group =
      some { name := group, lastDeliveredId := start } := by
    rw [createGroup, if_neg h]
    exact AList.lookup_insert _
  constructor
  · intro hnever entry hentry
    by_contra hlt
    have hentries : (s.createGroup group start).2.entries = s.entries := by
      obtain ⟨groups, hframe⟩ := createGroup_frame group start s
      rw [hframe]
    obtain ⟨e, he, hread⟩ := exists_mem_readGroup hlookup (hentries ▸ hentry) (not_le.mp hlt) [] 1
      fun _ => now
    refine hnever [.readGroup group [] 1 fun _ => now] (by simp) e (hentries ▸ he) [] ?_
    rw [results, flatten_cons, mem_append]
    exact .inl (mem_map_of_mem hread)
  · intro hle ops hops entry hentry consumer hmem
    have hstart : GivenAbove start group (s.createGroup group start).2 [] :=
      ⟨⟨_, hlookup, le_rfl⟩, fun id hid => absurd hid not_mem_nil⟩
    have hrun := results_invariant (GivenAbove start group)
      (fun s history op hop hs => GivenAbove.perform hs hop) (along_of_forall hops) hstart
    rw [nil_append] at hrun
    refine absurd (hle entry hentry) (not_le.mpr (hrun.2 _ ?_))
    exact mem_given (mem_filterMap.mpr ⟨_, hmem, if_pos rfl⟩)

end StreamData

namespace StreamEnv

open StreamData Runs

variable {env : StreamEnv} {other : DatabaseEnv}

/-- The entries between two IDs. -/
def between (key : Bytes) (db : Store (env.database other)) (start stop : StreamId) :
    List StreamEntry :=
  (env.stream key db).entries.filter fun e => start ≤ e.id ∧ e.id ≤ stop

theorem toNat_uint64_max : (UInt64.ofNat (2 ^ 64 - 1)).toNat = 2 ^ 64 - 1 := rfl

def xrangeStop (env : StreamEnv) (stop : CommandArg) : StreamId :=
  if stop.value = ascii "+" then ⟨UInt64.ofNat (2 ^ 64 - 1), UInt64.ofNat (2 ^ 64 - 1)⟩
  else StreamId.parse env stop.value

theorem handleXRange_eq (key start stop : CommandArg) (db : Store (env.database other)) :
    env.handleXRange [key, start, stop] db = some (reply (.ofArray ((between key.value db
      (StreamId.parse env start.value) (xrangeStop env stop)).map streamEntryToResp)), db) := by
  have hstart : (if start.value = ascii "-" then ⟨0, 0⟩ else StreamId.parse env start.value) =
      StreamId.parse env start.value := by
    split
    · next hminus =>
      rw [hminus]
      exact (parse_symbol env (by decide)).symm
    · rfl
  rw [handleXRange, hstart, between, stream]
  cases hstream : env.getStream key.value db with
  | none => rfl
  | some s =>
    rw [Option.getD_some, ← rangeLoop_eq_filter _ _ _ 0]
    rfl

theorem handleXRevRange_eq (key start stop : CommandArg) {db : Store (env.database other)}
    (h : (env.stream key.value db).entries.length < 2 ^ 64) :
    env.handleXRevRange [key, stop, start] db = (reply (.ofArray ((between key.value db
      (StreamId.parse env start.value) (StreamId.parse env stop.value)).reverse.map
        streamEntryToResp)), db) := by
  rw [stream] at h
  rw [handleXRevRange, between, stream]
  dsimp only [xrevrangeCount]
  cases hstream : env.getStream key.value db with
  | none => rfl
  | some s =>
    rw [hstream, Option.getD_some] at h
    have hlen : 0 + s.entries.reverse.length ≤ (UInt64.ofNat (2 ^ 64 - 1)).toNat := by
      rw [length_reverse, toNat_uint64_max]
      omega
    dsimp only
    rw [Option.getD_some, revRangeLoop_eq_filter _ _ hlen, filter_reverse]

theorem xrangeStop_plus {stop : CommandArg} (h : stop.value = ascii "+") (id : StreamId) :
    id ≤ xrangeStop env stop := by
  have hms := id.ms.toNat_lt
  have hseq := id.seq.toNat_lt
  rw [xrangeStop, if_pos h, le_iff, toNat_uint64_max]
  omega

theorem map_between_eq_iff {α : Type} (f : StreamEntry → α) {key : Bytes}
    {db : Store (env.database other)} {start stop stop' : StreamId} (h : stop' ≤ stop) :
    (between key db start stop').map f = (between key db start stop).map f ↔
      ∀ e ∈ between key db start stop, e.id ≤ stop' := by
  have hsub : between key db start stop' =
      (between key db start stop).filter fun e => e.id ≤ stop' := by
    rw [between, between, filter_filter]
    refine filter_congr fun e _ => ?_
    rw [← Bool.decide_and, decide_eq_decide]
    exact ⟨fun he => ⟨he.2, he.1, he.2.trans h⟩, fun he => ⟨he.2.1, he.1⟩⟩
  constructor
  · intro heq e he
    have hlen := congrArg List.length heq
    rw [length_map, length_map, hsub] at hlen
    have hall := filter_eq_self.mp (filter_sublist.eq_of_length hlen)
    exact of_decide_eq_true (hall e he)
  · intro hall
    rw [hsub, filter_eq_self.mpr fun e he => decide_eq_true (hall e he)]

/-- **Symbols in ranges.**  `XREVRANGE` returns the reverse of what `XRANGE` returns, unless the end
is `+` and there is an entry other than 0-0; and a group that is created with `$` is never given an
entry that was there before, unless there was one other than 0-0. -/
theorem range_reverse_and_dollar (db : Store (env.database other)) (key start stop : CommandArg)
    (hlen : (env.stream key.value db).entries.length < 2 ^ 64) {group : Bytes}
    (hgroup : group ∉ (env.stream key.value db).groups) (now : env.Time) :
    (∃ range revRange, env.handleXRange [key, start, stop] db =
        some (reply (.ofArray range), db) ∧
      env.handleXRevRange [key, stop, start] db = (reply (.ofArray revRange), db) ∧
      (revRange = range.reverse ↔ (stop.value = ascii "+" →
        ∀ entry ∈ (env.stream key.value db).entries,
          StreamId.parse env start.value ≤ entry.id → entry.id = {}))) ∧
    ((∀ ops : List (StreamOp env), (∀ op ∈ ops, op ≠ .destroyGroup group) →
      ∀ entry ∈ (env.stream key.value db).entries, ∀ consumer,
        .delivered group entry consumer ∉ (results perform ((env.stream key.value db).createGroup
          group (StreamId.parse env (ascii "$"))).2 ops).1.flatten) ↔
      ∀ entry ∈ (env.stream key.value db).entries, entry.id = {}) := by
  have hzero : ∀ {id : StreamId}, id ≤ {} ↔ id = {} := fun {id} =>
    ⟨fun h => le_antisymm h (zero_le id), fun h => h.le⟩
  constructor
  · refine ⟨_, _, handleXRange_eq key start stop db, handleXRevRange_eq key start stop hlen, ?_⟩
    rw [← map_reverse, map_reverse, map_reverse, reverse_inj]
    by_cases hstop : stop.value = ascii "+"
    · rw [hstop, show ascii "+" = [43] from rfl, parse_symbol env (by decide),
        map_between_eq_iff _ (zero_le _)]
      simp [between, xrangeStop_plus hstop, hzero]
    · rw [xrangeStop, if_neg hstop]
      exact iff_of_true rfl fun h => absurd h hstop
  · rw [createGroup_never_delivers_iff hgroup _ now,
      show ascii "$" = [36] from rfl, parse_symbol env (by decide)]
    simp only [hzero]

/-- With an ID for the end, both ranges are the one entry. -/
theorem range_reverse_sample : ∃ range,
    simpleStreams.handleXRange (words ["k", "-", "9-0"]) oneEntry =
      some (reply (.ofArray range), oneEntry) ∧
    simpleStreams.handleXRevRange (words ["k", "9-0", "-"]) oneEntry =
      (reply (.ofArray range.reverse), oneEntry) := by
  obtain ⟨⟨range, revRange, hrange, hrev, hiff⟩, -⟩ :=
    range_reverse_and_dollar oneEntry (.ofString (ascii "k") .kBulkString)
      (.ofString (ascii "-") .kBulkString) (.ofString (ascii "9-0") .kBulkString)
      (by decide) (show ascii "g" ∉ _ by decide) (5 : Int64)
  refine ⟨range, hrange, ?_⟩
  rw [← hiff.mpr fun h => absurd h (by decide)]
  exact hrev

/-- `XREVRANGE` finds nothing up to `+`, and a group that starts at `$` is given an old entry. -/
theorem range_plus_and_dollar_old_entry :
    simpleStreams.handleXRange (words ["k", "-", "+"]) oneEntry =
      some (reply (.ofArray [streamEntryToResp ⟨⟨7, 0⟩, []⟩]), oneEntry) ∧
    simpleStreams.handleXRevRange (words ["k", "+", "-"]) oneEntry =
      (reply (.ofArray []), oneEntry) ∧
    ∃ db db', simpleStreams.handleXGroup (words ["CREATE", "k", "g", "$"]) oneEntry = (ok, db) ∧
      simpleStreams.handleXReadGroup (words ["GROUP", "g", "c", "STREAMS", "k", ">"])
        (fun _ _ => (9 : Int64)) db =
        some (reply (.ofArray [.ofArray [bulk (ascii "k"),
          .ofArray [streamEntryToResp ⟨⟨7, 0⟩, []⟩]]]), db') :=
  ⟨rfl, rfl, _, _, rfl, rfl⟩

end StreamEnv
