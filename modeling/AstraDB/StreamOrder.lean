/-
The order of a stream.

A run is a list of operations on one stream.  Explicit IDs are compared with the last entry that is
still there, and generated IDs with the last one that was given: entries are in order all the same,
but what is given is not when the last entries were removed.

* `entries_increasing` — the IDs of the entries increase;
* `added_increasing` — the IDs that are returned increase, if no explicit ID is below the last one.
-/
import AstraDB.Runs
import AstraDB.Streams

open List

inductive StreamOp (env : StreamEnv)
  | add (now : env.Time) (fields : List (Bytes × Bytes)) (idSpec : Bytes) (maxLen : UInt64)
  | delete (ids : List StreamId)
  | trim (maxLen : UInt64)
  | setId (lastId : StreamId)
  | createGroup (group : Bytes) (startId : StreamId)
  | destroyGroup (group : Bytes)
  | readGroup (group consumer : Bytes) (count : UInt64) (now : ℕ → env.Time)
  | ack (group : Bytes) (ids : List StreamId)
  | claim (group consumer : Bytes) (minIdleTime : Int64) (ids : List StreamId) (now : env.Time)
  | autoClaim (group consumer : Bytes) (minIdleTime : Int64) (startId : StreamId) (count : UInt64)
      (now : env.Time)

/-- What the clients learn: IDs that `XADD` returns, entries that `XREADGROUP` returns, IDs that
`XCLAIM` and `XAUTOCLAIM` return, and IDs that they acknowledge themselves. -/
inductive StreamEvent
  | added (id : StreamId)
  | delivered (group : Bytes) (entry : StreamEntry) (consumer : Bytes)
  | claimed (group : Bytes) (id : StreamId) (consumer : Bytes)
  | acknowledged (group : Bytes) (id : StreamId)
  deriving DecidableEq, Repr

namespace StreamData

open Runs

variable {env : StreamEnv}

/-- `XADD` takes 0-0 for a refusal. -/
def isRefusal (id : StreamId) (idSpec : Bytes) : Bool :=
  id.ms = 0 ∧ id.seq = 0 ∧ idSpec ≠ ascii "*"

def perform (s : StreamData env.Time) : StreamOp env → List StreamEvent × StreamData env.Time
  | .add now fields idSpec maxLen =>
    let (id, s) := s.addEntry env now fields idSpec maxLen
    (if isRefusal id idSpec then [] else [.added id], s)
  | .delete ids => ([], (s.delete ids).2)
  | .trim maxLen => ([], (s.trim maxLen).2)
  | .setId lastId => ([], { s with lastId })
  | .createGroup group startId => ([], (s.createGroup group startId).2)
  | .destroyGroup group => ([], { s with groups := s.groups.erase group })
  | .readGroup group consumer count now =>
    let (entries, s) := s.readGroup group consumer count now
    (entries.map fun entry => .delivered group entry consumer, s)
  | .ack group ids => (ids.map (.acknowledged group), (s.ack group ids).2)
  | .claim group consumer minIdleTime ids now =>
    let (entries, s) := s.claim group consumer minIdleTime ids now
    (entries.map fun entry => .claimed group entry.id consumer, s)
  | .autoClaim group consumer minIdleTime startId count now =>
    let (claimed, s) := s.autoClaim group consumer minIdleTime startId count now
    ((claimed.elim [] Prod.snd).map fun entry => .claimed group entry.id consumer, s)

def step (s : StreamData env.Time) (op : StreamOp env) : StreamData env.Time := (s.perform op).2

/-! ### One step -/

theorem deleteLoop_sublist (ids : List StreamId) (entries : List StreamEntry) :
    (deleteLoop ids entries).2.Sublist entries := by
  induction ids generalizing entries with
  | nil => exact List.Sublist.refl entries
  | cons id ids ih =>
    rw [deleteLoop]
    split
    · exact (ih _).trans eraseP_sublist
    · exact ih entries

def added (events : List StreamEvent) : List StreamId :=
  events.filterMap fun
    | .added id => some id
    | _ => none

theorem added_append (events later : List StreamEvent) :
    added (events ++ later) = added events ++ added later := filterMap_append

theorem added_map {α : Type} {f : α → StreamEvent} (hf : ∀ a id, f a ≠ .added id) (l : List α) :
    added (l.map f) = [] := by
  rw [added, filterMap_map, filterMap_eq_nil_iff]
  intro a _
  show (match f a with | .added id => some id | _ => none) = none
  split
  · next id h => exact absurd h (hf a id)
  · rfl

/-! Groups are changed without the entries. -/

theorem createGroup_frame (group : Bytes) (startId : StreamId)
    (s : StreamData env.Time) : ∃ groups, (s.createGroup group startId).2 = { s with groups } := by
  rw [createGroup]
  split
  · exact ⟨s.groups, rfl⟩
  · exact ⟨_, rfl⟩

theorem perform_cases (s : StreamData env.Time) (op : StreamOp env) :
    ((s.step op).entries.Sublist s.entries ∧ (s.step op).lastGenerated = s.lastGenerated ∧
        added (s.perform op).1 = []) ∨
      ∃ now fields idSpec maxLen id, op = .add now fields idSpec maxLen ∧
        s.nextId env now idSpec = some id ∧ s.step op = s.append id fields maxLen ∧
        added (s.perform op).1 = if isRefusal id idSpec then [] else [id] := by
  -- what is left of a step that changes groups alone
  have hgroups : ∀ {events : List StreamEvent}, added events = [] →
      ∀ {s' : StreamData env.Time}, (∃ groups, s' = { s with groups }) →
      s'.entries.Sublist s.entries ∧ s'.lastGenerated = s.lastGenerated ∧ added events = [] := by
    rintro events hevents s' ⟨groups, rfl⟩
    exact ⟨List.Sublist.refl _, rfl, hevents⟩
  cases op with
  | add now fields idSpec maxLen =>
    cases hid : s.nextId env now idSpec with
    | none =>
      have hadd : s.addEntry env now fields idSpec maxLen = ({}, s) := by rw [addEntry, hid]
      have hspec : idSpec ≠ ascii "*" := by
        rintro rfl
        exact nextId_star_ne_none hid
      refine .inl ?_
      rw [step, perform, hadd]
      dsimp only
      rw [if_pos (by simp [isRefusal, hspec])]
      exact ⟨List.Sublist.refl _, rfl, rfl⟩
    | some id =>
      refine .inr ⟨now, fields, idSpec, maxLen, id, rfl, hid, ?_, ?_⟩
      · rw [step, perform, addEntry, hid]
      · rw [perform, addEntry, hid]
        dsimp only
        split <;> rfl
  | delete ids => exact .inl ⟨deleteLoop_sublist ids s.entries, rfl, rfl⟩
  | trim maxLen => exact .inl ⟨(popFront_suffix _ _).sublist, rfl, rfl⟩
  | createGroup group startId => exact .inl (hgroups rfl (createGroup_frame group startId s))
  | setId | destroyGroup => exact .inl ⟨List.Sublist.refl _, rfl, rfl⟩
  | readGroup | ack | claim | autoClaim =>
    refine .inl (hgroups (added_map nofun _) ?_)
    simp only [step, perform, readGroup, ack, claim, autoClaim]
    split
    · exact ⟨s.groups, rfl⟩
    · exact ⟨_, rfl⟩

/-! ### Entries -/

theorem le_getLast {entries : List StreamEntry} {last : StreamEntry}
    (h : entries.Pairwise fun a b => a.id < b.id) (hlast : entries.getLast? = some last) :
    ∀ e ∈ entries, e.id ≤ last.id := by
  obtain ⟨earlier, rfl⟩ := List.getLast?_eq_some_iff.mp hlast
  intro e he
  rcases mem_append.mp he with he | he
  · exact ((pairwise_append.mp h).2.2 e he last (mem_singleton_self last)).le
  · rw [mem_singleton.mp he]

/-- The entries are in order, and none is above the last ID. -/
structure Increasing (s : StreamData env.Time) : Prop where
  entries : s.entries.Pairwise fun a b => a.id < b.id
  le_last : ∀ e ∈ s.entries, e.id ≤ s.lastGenerated
  ms_lt : s.lastGenerated.ms.toNat < 2 ^ 63

variable {s : StreamData env.Time}

section

variable (h : s.Increasing) (hseq : s.lastGenerated.seq.toNat ≠ 2 ^ 64 - 1)
include h hseq

theorem Increasing.lt_nextId
    {now : env.Time} {idSpec : Bytes} {id : StreamId} (hid : s.nextId env now idSpec = some id) :
    (∀ e ∈ s.entries, e.id < id) ∧ id.ms.toNat < 2 ^ 63 := by
  by_cases hspec : idSpec = ascii "*"
  · obtain ⟨id', hid', hlt, hms⟩ := nextId_auto now h.ms_lt (.inr hseq)
    rw [hspec, hid', Option.some_inj] at hid
    subst hid
    exact ⟨fun e he => (h.le_last e he).trans_lt hlt, hms⟩
  · obtain ⟨rfl, hlast⟩ := (nextId_explicit hspec).mp hid
    refine ⟨fun e he => ?_, (StreamId.parse_lt env idSpec).1⟩
    cases hlast' : s.entries.getLast? with
    | none => exact absurd (List.getLast?_eq_none_iff.mp hlast') (ne_nil_of_mem he)
    | some last => exact (le_getLast h.entries hlast' e he).trans_lt (hlast last hlast')

theorem Increasing.step (op : StreamOp env) : (s.step op).Increasing := by
  rcases perform_cases s op with ⟨hsub, hlast, -⟩ |
    ⟨now, fields, idSpec, maxLen, id, -, hid, hstep, -⟩
  · refine ⟨h.entries.sublist hsub, fun e he => ?_, ?_⟩
    · rw [hlast]
      exact h.le_last e (hsub.subset he)
    · rw [hlast]
      exact h.ms_lt
  · obtain ⟨hlt, hms⟩ := h.lt_nextId hseq hid
    rw [hstep]
    have hsuffix := append_entries_suffix id fields maxLen s
    refine ⟨?_, fun e he => ?_, hms⟩
    · refine List.Pairwise.sublist hsuffix.sublist (pairwise_append.mpr
        ⟨h.entries, pairwise_singleton _ _, fun e he e' he' => ?_⟩)
      rw [mem_singleton.mp he']
      exact hlt e he
    · rcases mem_append.mp (hsuffix.subset he) with he | he
      · exact (hlt e he).le
      · rw [mem_singleton.mp he]
        exact le_rfl

end

theorem increasing_new : ({} : StreamData env.Time).Increasing :=
  ⟨List.Pairwise.nil, fun _ he => absurd he not_mem_nil,
    (by decide : (0 : UInt64).toNat < 2 ^ 63)⟩

/-- **The order of the entries.**  After every run from a new stream, whatever the clock says, the
IDs increase from front to back, as long as no number overflows. -/
theorem entries_increasing {ops : List (StreamOp env)}
    (hseq : Along step (fun s _ => s.lastGenerated.seq.toNat ≠ 2 ^ 64 - 1) {} ops) :
    (after step ({} : StreamData env.Time) ops).entries.Pairwise fun a b => a.id < b.id :=
  (after_invariant Increasing (fun _ op hop h => h.step hop op) hseq increasing_new).entries

theorem entries_increasing_sample :
    (after step ({} : StreamData simpleStreams.Time)
      [.add (5 : Int64) [] (ascii "7-3") 0, .delete [⟨7, 3⟩], .add (5 : Int64) [] (ascii "6-1") 0,
        .add (4 : Int64) [] (ascii "*") 1, .setId ⟨9, 9⟩, .add (3 : Int64) [] (ascii "*") 0,
        .trim 5]).entries.Pairwise fun a b => a.id < b.id :=
  entries_increasing (by decide +kernel)

/-! ### The IDs that are returned -/

/-- A new ID is above the last one that was given, wherever it is accepted. -/
def Fresh (s : StreamData env.Time) : StreamOp env → Prop
  | .add now _ idSpec _ =>
    if idSpec = ascii "*" then
      s.lastGenerated.ms.toNat < (env.toUnixMillis now).toInt ∨
        s.lastGenerated.seq.toNat ≠ 2 ^ 64 - 1
    else
      s.nextId env now idSpec = none ∨ s.lastGenerated < StreamId.parse env idSpec ∨
        StreamId.parse env idSpec = {} ∧ s.lastGenerated = {}
  | _ => True

instance (s : StreamData env.Time) (op : StreamOp env) : Decidable (s.Fresh op) :=
  match op with
  | .add now _ idSpec _ =>
    inferInstanceAs (Decidable
      (if idSpec = ascii "*" then
        s.lastGenerated.ms.toNat < (env.toUnixMillis now).toInt ∨
          s.lastGenerated.seq.toNat ≠ 2 ^ 64 - 1
      else
        s.nextId env now idSpec = none ∨ s.lastGenerated < StreamId.parse env idSpec ∨
          StreamId.parse env idSpec = {} ∧ s.lastGenerated = {}))
  | .delete _ | .trim _ | .setId _ | .createGroup _ _ | .destroyGroup _ | .readGroup _ _ _ _
  | .ack _ _ | .claim _ _ _ _ _ | .autoClaim _ _ _ _ _ _ => isTrue trivial

theorem Fresh.lt_nextId {now : env.Time} {fields : List (Bytes × Bytes)} {idSpec : Bytes}
    {maxLen : UInt64} (h : s.Fresh (.add now fields idSpec maxLen))
    (hms : s.lastGenerated.ms.toNat < 2 ^ 63) {id : StreamId}
    (hid : s.nextId env now idSpec = some id) :
    (s.lastGenerated < id ∨ isRefusal id idSpec = true ∧ s.lastGenerated = id) ∧
      id.ms.toNat < 2 ^ 63 := by
  rw [Fresh] at h
  split at h
  · next hspec =>
    obtain ⟨id', hid', hlt, hms'⟩ := nextId_auto now hms h
    rw [hspec, hid', Option.some_inj] at hid
    subst hid
    exact ⟨.inl hlt, hms'⟩
  · next hspec =>
    obtain ⟨rfl, -⟩ := (nextId_explicit hspec).mp hid
    refine ⟨?_, (StreamId.parse_lt env idSpec).1⟩
    rcases h with hnone | hlt | ⟨hzero, hlast⟩
    · rw [hid] at hnone
      exact absurd hnone (Option.some_ne_none _)
    · exact .inl hlt
    · refine .inr ⟨?_, by rw [hzero, hlast]⟩
      rw [hzero]
      simp [isRefusal, hspec]

/-- All IDs that were returned increase, up to the last one that was given. -/
structure Returned (s : StreamData env.Time) (history : List StreamEvent) : Prop where
  increasing : (added history).Pairwise (· < ·)
  le_last : ∀ id ∈ added history, id ≤ s.lastGenerated
  ms_lt : s.lastGenerated.ms.toNat < 2 ^ 63

theorem Returned.perform {history : List StreamEvent} (h : s.Returned history) {op : StreamOp env}
    (hop : s.Fresh op) : (s.perform op).2.Returned (history ++ (s.perform op).1) := by
  rcases perform_cases s op with ⟨-, hlast, hadded⟩ | ⟨now, fields, idSpec, maxLen, id, rfl, hid,
    hstep, hadded⟩
  · refine ⟨?_, fun id hid => ?_, ?_⟩
    · rw [added_append, hadded, append_nil]
      exact h.increasing
    · rw [added_append, hadded, append_nil] at hid
      exact (h.le_last id hid).trans_eq hlast.symm
    · exact hlast ▸ h.ms_lt
  · obtain ⟨hlt, hms⟩ := hop.lt_nextId h.ms_lt hid
    have hlast : (s.perform (.add now fields idSpec maxLen)).2.lastGenerated = id := by
      rw [← step, hstep]
      rfl
    have hle : s.lastGenerated ≤ id := hlt.elim le_of_lt fun heq => heq.2.le
    refine ⟨?_, fun id' hid' => ?_, hlast ▸ hms⟩
    · rw [added_append, hadded]
      split
      · rw [append_nil]
        exact h.increasing
      · next hrefusal =>
        refine pairwise_append.mpr ⟨h.increasing, pairwise_singleton _ _,
          fun id' hid' id'' hid'' => ?_⟩
        rw [mem_singleton.mp hid'']
        exact (h.le_last id' hid').trans_lt (hlt.resolve_right fun heq => hrefusal heq.1)
    · rw [hlast]
      rw [added_append, hadded, mem_append] at hid'
      rcases hid' with hid' | hid'
      · exact (h.le_last id' hid').trans hle
      · split at hid'
        · exact absurd hid' not_mem_nil
        · exact (mem_singleton.mp hid').le

/-- **The IDs that `XADD` returns** increase over every run from a new stream in which every new ID
is above the last one. -/
theorem added_increasing {ops : List (StreamOp env)} (h : Along step Fresh {} ops) :
    (added (results perform ({} : StreamData env.Time) ops).1.flatten).Pairwise (· < ·) := by
  have hreturned : ({} : StreamData env.Time).Returned [] :=
    ⟨List.Pairwise.nil, fun _ hid => absurd hid not_mem_nil, increasing_new.ms_lt⟩
  exact (results_invariant Returned (fun _ _ _ hop hs => hs.perform hop) h hreturned).increasing

theorem added_increasing_sample :
    (added (results perform ({} : StreamData simpleStreams.Time)
      [.add (5 : Int64) [] (ascii "7-3") 0, .delete [⟨7, 3⟩], .add (5 : Int64) [] (ascii "*") 0,
        .add (5 : Int64) [] (ascii "6-1") 0, .trim 0,
        .add (5 : Int64) [] (ascii "9") 0]).1.flatten).Pairwise (· < ·) :=
  added_increasing (by decide +kernel)

/-- An ID is returned again when its entry was deleted. -/
theorem added_twice :
    added (results perform ({} : StreamData simpleStreams.Time)
      [.add (5 : Int64) [] (ascii "5-1") 0, .delete [⟨5, 1⟩],
        .add (5 : Int64) [] (ascii "5-1") 0]).1.flatten = [⟨5, 1⟩, ⟨5, 1⟩] := by
  decide +kernel

def adds (ops : List (StreamOp env)) : ℕ := ops.countP (· matches .add ..)

theorem seq_step_lt {n : ℕ} (h : s.lastGenerated.seq.toNat < 2 ^ 63 + n) (op : StreamOp env) :
    (s.step op).lastGenerated.seq.toNat < 2 ^ 63 + (n + adds [op]) := by
  rcases perform_cases s op with ⟨-, hlast, -⟩ | ⟨now, fields, idSpec, maxLen, id, rfl, hid, hstep, -⟩
  · rw [hlast]
    omega
  · rw [hstep, show adds [StreamOp.add now fields idSpec maxLen] = 1 from rfl]
    show id.seq.toNat < _
    by_cases hspec : idSpec = ascii "*"
    · rw [hspec, nextId_star, Option.some_inj] at hid
      rw [← hid]
      split
      · show (s.lastGeneratedSeq + 1).toNat < _
        have hle := Nat.mod_le (s.lastGeneratedSeq.toNat + 1) (2 ^ 64)
        rw [UInt64.toNat_add]
        exact hle.trans_lt (Nat.add_lt_add_right h 1)
      · exact Nat.lt_add_right _ (show (0 : UInt64).toNat < 2 ^ 63 by decide)
    · obtain ⟨rfl, -⟩ := (nextId_explicit hspec).mp hid
      exact Nat.lt_add_right _ (StreamId.parse_lt env idSpec).2

/-- The numbers start below 2^63 and are counted up by additions only. -/
theorem increasing_after {n : ℕ} (h : s.Increasing) (hseq : s.lastGenerated.seq.toNat < 2 ^ 63 + n)
    {ops : List (StreamOp env)} (hops : n + adds ops < 2 ^ 63) : (after step s ops).Increasing := by
  induction ops generalizing s n with
  | nil => exact h
  | cons op ops ih =>
    have hadds : adds (op :: ops) = adds [op] + adds ops := @countP_append _ _ [op] ops
    exact ih (h.step (by omega) op) (seq_step_lt hseq op) (by omega)

end StreamData
