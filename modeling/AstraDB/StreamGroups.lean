/-
Groups of consumers.

Entries are given to the consumers of a group, given to others by a claim, and acknowledged; a
`Ledger` of these events is what the pending entries of the group are to agree with.

* `group_deliveries` — over every run, IDs are delivered in increasing order, and what is pending is
  what was delivered and not acknowledged, with its last owner.
-/
import AstraDB.Ledger
import AstraDB.StreamOrder

open List

namespace StreamData

open Ledger Runs

variable {env : StreamEnv}

/-! ### The ledger -/

def ledgerEntry (group : Bytes) : StreamEvent → Option (Ledger.Entry StreamId StreamEntry Bytes)
  | .delivered group' entry consumer =>
    if group' = group then some (.give entry.id entry consumer) else none
  | .claimed group' id consumer => if group' = group then some (.move id consumer) else none
  | .acknowledged group' id => if group' = group then some (.settle id) else none
  | .added _ => none

/-- What the clients know of a group. -/
def ledger (group : Bytes) (events : List StreamEvent) :
    List (Ledger.Entry StreamId StreamEntry Bytes) :=
  events.filterMap (ledgerEntry group)

theorem getElem?_insert_pending (pending : PendingEntries env.Time) (id : StreamId)
    (p : PendingEntry env.Time) (id' : StreamId) :
    (pending.insert id p)[id']? = if id = id' then some p else pending[id']? := by
  simp only [Std.TreeMap.getElem?_insert, compare_eq_iff_eq]

/-- The pending entries with their owners. -/
def owned (pending : PendingEntries env.Time) (id : StreamId) : Option (StreamEntry × Bytes) :=
  pending[id]?.map fun p => (p.entry, p.consumer)

theorem owned_insert (pending : PendingEntries env.Time) (id : StreamId)
    (p : PendingEntry env.Time) (id' : StreamId) :
    owned (pending.insert id p) id' =
      if id = id' then some (p.entry, p.consumer) else owned pending id' := by
  rw [owned, getElem?_insert_pending]
  split <;> rfl

theorem owned_erase (pending : PendingEntries env.Time) (id id' : StreamId) :
    owned (pending.erase id) id' = if id = id' then none else owned pending id' := by
  rw [owned]
  simp only [Std.TreeMap.getElem?_erase, compare_eq_iff_eq]
  split <;> rfl

/-! ### The loops -/

variable (consumer : Bytes)

theorem readLoop_spec (count : UInt64) (now : ℕ → env.Time) (last : StreamId)
    (entries result : List StreamEntry) (pending : PendingEntries env.Time) :
    ∃ new, (readLoop consumer count now last entries result pending).1 = result ++ new ∧
      new.Sublist (entries.filter fun e => last < e.id) ∧
      (new = [] → (entries.filter fun e => last < e.id) = []) ∧
      ∀ id, owned (readLoop consumer count now last entries result pending).2 id =
        (new.map fun e => .give e.id e consumer).foldl (note id) (owned pending id) := by
  induction entries generalizing result pending with
  | nil =>
    exact ⟨[], (append_nil result).symm, List.Sublist.refl _, fun _ => rfl, fun _ => rfl⟩
  | cons entry entries ih =>
    rw [readLoop]
    split
    · next hle =>
      rw [filter_cons_of_neg (by simpa using hle)]
      exact ih result pending
    · next hlt =>
      have hgive : ∀ id, owned (pending.insert entry.id
          { entry, consumer, deliveryCount := 1, lastDelivered := now result.length }) id =
          note id (owned pending id) (.give entry.id entry consumer) :=
        fun id => owned_insert pending entry.id _ id
      rw [filter_cons_of_pos (by simpa using hlt)]
      dsimp only
      split
      · exact ⟨[entry], rfl, (nil_sublist _).cons_cons entry,
          fun h => absurd h (cons_ne_nil _ _), hgive⟩
      · obtain ⟨new, hresult, hsub, -, howned⟩ := ih (result ++ [entry]) (pending.insert entry.id
          { entry, consumer, deliveryCount := 1, lastDelivered := now result.length })
        refine ⟨entry :: new, by rw [hresult, append_assoc]; rfl, hsub.cons_cons entry,
          fun h => absurd h (cons_ne_nil _ _), fun id => ?_⟩
        rw [howned, hgive]
        rfl

theorem ackLoop_spec (ids : List StreamId) (pending : PendingEntries env.Time) (id : StreamId) :
    owned (ackLoop ids pending).2 id = (ids.map .settle).foldl (note id) (owned pending id) := by
  induction ids generalizing pending with
  | nil => rfl
  | cons id' ids ih =>
    rw [ackLoop]
    dsimp only
    rw [ih, owned_erase]
    rfl

variable {pending : PendingEntries env.Time} {events : List StreamEvent}

theorem owned_transfer {id : StreamId} {p : PendingEntry env.Time} (h : pending[id]? = some p)
    (consumer : Bytes) (now : env.Time) (id' : StreamId) :
    owned (pending.insert id (transfer consumer now p)) id' =
      note id' (owned pending id') (.move id consumer) := by
  rw [owned_insert, note]
  split
  · next hid => rw [← hid, owned, h]; rfl
  · rfl

variable (minIdleTime : Int64)

theorem claimLoop_spec (now : env.Time)
    (ids : List StreamId) (pending : PendingEntries env.Time) (id : StreamId) :
    owned (claimLoop env consumer minIdleTime now ids pending).2 id =
      ((claimLoop env consumer minIdleTime now ids pending).1.map
        fun e => .move e.id consumer).foldl (note id) (owned pending id) := by
  induction ids generalizing pending with
  | nil => rfl
  | cons id' ids ih =>
    rw [claimLoop]
    split
    · exact ih pending
    · next p hp =>
      split
      · dsimp only
        rw [ih, owned_transfer hp]
        rfl
      · exact ih pending

theorem autoClaimLoop_spec (startId : StreamId)
    (count : UInt64) (now : env.Time) (rest : List (StreamId × PendingEntry env.Time))
    (hrest : rest.Pairwise fun a b => a.1 ≠ b.1) (claimed : List StreamEntry)
    (pending : PendingEntries env.Time) (hpending : ∀ x ∈ rest, pending[x.1]? = some x.2) :
    ∃ new, (autoClaimLoop env consumer minIdleTime startId count now rest claimed pending).2.1 =
        claimed ++ new ∧
      ∀ id, owned (autoClaimLoop env consumer minIdleTime startId count now rest claimed
        pending).2.2 id =
          (new.map fun e => .move e.id consumer).foldl (note id) (owned pending id) := by
  induction rest generalizing claimed pending with
  | nil => exact ⟨[], (append_nil claimed).symm, fun _ => rfl⟩
  | cons x rest ih =>
    obtain ⟨id', p⟩ := x
    obtain ⟨hx, hrest⟩ := pairwise_cons.mp hrest
    have hlater : ∀ x ∈ rest, pending[x.1]? = some x.2 :=
      fun x hmem => hpending x (mem_cons_of_mem _ hmem)
    rw [autoClaimLoop]
    split
    · exact ⟨[], (append_nil claimed).symm, fun _ => rfl⟩
    · split
      · exact ih hrest claimed pending hlater
      · split
        · obtain ⟨new, hnew, howned⟩ := ih hrest (claimed ++ [⟨id', p.entry.fields⟩])
            (pending.insert id' (transfer consumer now p)) (fun x hmem => by
              rw [getElem?_insert_pending, if_neg (hx x hmem)]
              exact hlater x hmem)
          refine ⟨⟨id', p.entry.fields⟩ :: new, by rw [hnew, append_assoc]; rfl, fun id => ?_⟩
          rw [howned, owned_transfer (hpending (id', p) mem_cons_self)]
          rfl
        · exact ih hrest claimed pending hlater

theorem autoClaimLoop_toList (startId : StreamId)
    (count : UInt64) (now : env.Time) (pending : PendingEntries env.Time) (id : StreamId) :
    owned (autoClaimLoop env consumer minIdleTime startId count now pending.toList []
        pending).2.2 id =
      ((autoClaimLoop env consumer minIdleTime startId count now pending.toList [] pending).2.1.map
        fun e => .move e.id consumer).foldl (note id) (owned pending id) := by
  obtain ⟨new, hnew, howned⟩ := autoClaimLoop_spec consumer minIdleTime startId count now
    pending.toList
    (Std.TreeMap.distinct_keys_toList.imp fun hne heq => hne (compare_eq_iff_eq.mpr heq)) []
    pending fun x hx => Std.TreeMap.mem_toList_iff_getElem?_eq_some.mp hx
  rw [howned, hnew, nil_append]

/-! ### One operation -/

/-- What a step does to a group: the ledger says what becomes of its pending entries, and what it
delivers is above what was delivered before, in order if the stream is. -/
structure Advances (group : Bytes) (s : StreamData env.Time) (g : StreamConsumerGroup env.Time)
    (events : List StreamEvent) (g' : StreamConsumerGroup env.Time) : Prop where
  owned_eq : ∀ id, owned g'.pendingEntries id =
    (ledger group events).foldl (note id) (owned g.pendingEntries id)
  le : g.lastDeliveredId ≤ g'.lastDeliveredId
  above : ∀ id ∈ given (ledger group events), g.lastDeliveredId < id
  ordered : (s.entries.Pairwise fun a b => a.id < b.id) →
    (given (ledger group events)).Pairwise (· < ·) ∧
      ∀ id ∈ given (ledger group events), id ≤ g'.lastDeliveredId

variable {group : Bytes} {g : StreamConsumerGroup env.Time} {s : StreamData env.Time}

theorem Advances.setPending (hgiven : given (ledger group events) = [])
    (h : ∀ id, owned pending id =
      (ledger group events).foldl (note id) (owned g.pendingEntries id)) :
    Advances group s g events { g with pendingEntries := pending } := by
  have hnone : ∀ {p : StreamId → Prop}, ∀ id ∈ given (ledger group events), p id := by
    rw [hgiven]
    exact fun id hid => absurd hid not_mem_nil
  refine ⟨h, le_rfl, hnone, fun _ => ⟨?_, hnone⟩⟩
  rw [hgiven]
  exact List.Pairwise.nil

theorem Advances.refl (h : ledger group events = []) : Advances group s g events g :=
  Advances.setPending (by rw [h]; rfl) fun id => by rw [h]; rfl

theorem ledger_map {α : Type} (f : α → StreamEvent)
    (f' : α → Ledger.Entry StreamId StreamEntry Bytes) (group' : Bytes)
    (h : ∀ a, ledgerEntry group (f a) = if group' = group then some (f' a) else none)
    (l : List α) : ledger group (l.map f) = if group' = group then l.map f' else [] := by
  rw [ledger, filterMap_map, show ledgerEntry group ∘ f = _ from funext h]
  split
  · exact congrFun filterMap_eq_map' l
  · exact filterMap_eq_nil_iff.mpr fun _ _ => rfl

theorem ledger_delivered (group' consumer : Bytes) (entries : List StreamEntry) :
    ledger group (entries.map fun e => .delivered group' e consumer) =
      if group' = group then entries.map fun e => .give e.id e consumer else [] :=
  ledger_map _ _ group' (fun _ => rfl) entries

theorem ledger_claimed (group' consumer : Bytes) (entries : List StreamEntry) :
    ledger group (entries.map fun e => .claimed group' e.id consumer) =
      if group' = group then entries.map fun e => .move e.id consumer else [] :=
  ledger_map _ _ group' (fun _ => rfl) entries

variable (group' : Bytes)

theorem ledger_acknowledged (ids : List StreamId) : ledger group (ids.map (.acknowledged group')) =
      if group' = group then ids.map .settle else [] :=
  ledger_map _ _ group' (fun _ => rfl) ids

theorem lookup_setPending (g' : StreamConsumerGroup env.Time) (pending : PendingEntries env.Time) :
    (s.setPending group' g' pending).groups.lookup group =
      if group = group' then some { g' with pendingEntries := pending }
      else s.groups.lookup group := by
  rw [StreamData.setPending]
  split
  · next h => rw [h, AList.lookup_insert]
  · next h => rw [AList.lookup_insert_ne h]

theorem pending_advances {s' : StreamData env.Time}
    (h : s.groups.lookup group = some g) (hother : group ≠ group' → ledger group events = [])
    (hgiven : given (ledger group' events) = []) (hnone : s.groups.lookup group' = none → s' = s)
    (hsome : ∀ g', s.groups.lookup group' = some g' →
      ∃ pending, s' = s.setPending group' g' pending ∧ ∀ id, owned pending id =
        (ledger group' events).foldl (note id) (owned g'.pendingEntries id)) :
    ∃ g', s'.groups.lookup group = some g' ∧ Advances group s g events g' := by
  by_cases hgroup : group = group'
  · subst hgroup
    obtain ⟨pending, rfl, howned⟩ := hsome g h
    exact ⟨_, by rw [lookup_setPending, if_pos rfl], Advances.setPending hgiven howned⟩
  · refine ⟨g, ?_, Advances.refl (hother hgroup)⟩
    cases hlookup : s.groups.lookup group' with
    | none => rw [hnone hlookup, h]
    | some g' =>
      obtain ⟨pending, rfl, -⟩ := hsome g' hlookup
      rw [lookup_setPending, if_neg hgroup, h]

section

variable (h : s.groups.lookup group = some g)
include h

theorem ack_advances (group' : Bytes) (ids : List StreamId) :
    ∃ g', (s.ack group' ids).2.groups.lookup group = some g' ∧
      Advances group s g (ids.map (.acknowledged group')) g' := by
  refine pending_advances group' h (fun hne => ?_) ?_ (fun hnone => ?_) fun g' hsome => ?_
  · rw [ledger_acknowledged, if_neg (Ne.symm hne)]
  · rw [ledger_acknowledged, if_pos rfl, given_map_settle]
  · rw [ack, hnone]
  · refine ⟨(ackLoop ids g'.pendingEntries).2, ?_, fun id => ?_⟩
    · rw [ack, hsome]
    · rw [ledger_acknowledged, if_pos rfl, ackLoop_spec]

theorem claim_advances (group' consumer : Bytes)
    (minIdleTime : Int64) (ids : List StreamId) (now : env.Time) :
    ∃ g', (s.claim group' consumer minIdleTime ids now).2.groups.lookup group = some g' ∧
      Advances group s g ((s.claim group' consumer minIdleTime ids now).1.map
        fun e => .claimed group' e.id consumer) g' := by
  refine pending_advances group' h (fun hne => ?_) ?_ (fun hnone => ?_) fun g' hsome => ?_
  · rw [ledger_claimed, if_neg (Ne.symm hne)]
  · rw [ledger_claimed, if_pos rfl, given_map_move]
  · rw [claim, hnone]
  · refine ⟨(claimLoop env consumer minIdleTime now ids g'.pendingEntries).2, ?_, fun id => ?_⟩
    · rw [claim, hsome]
    · rw [ledger_claimed, if_pos rfl, claimLoop_spec, claim, hsome]

theorem autoClaim_advances (group' consumer : Bytes)
    (minIdleTime : Int64) (startId : StreamId) (count : UInt64) (now : env.Time) :
    ∃ g', (s.autoClaim group' consumer minIdleTime startId count now).2.groups.lookup group =
        some g' ∧
      Advances group s g (((s.autoClaim group' consumer minIdleTime startId count now).1.elim []
        Prod.snd).map fun e => .claimed group' e.id consumer) g' := by
  refine pending_advances group' h (fun hne => ?_) ?_ (fun hnone => ?_) fun g' hsome => ?_
  · rw [ledger_claimed, if_neg (Ne.symm hne)]
  · rw [ledger_claimed, if_pos rfl, given_map_move]
  · rw [autoClaim, hnone]
  · refine ⟨(autoClaimLoop env consumer minIdleTime startId count now g'.pendingEntries.toList []
      g'.pendingEntries).2.2, ?_, fun id => ?_⟩
    · rw [autoClaim, hsome]
    · rw [ledger_claimed, if_pos rfl, autoClaimLoop_toList, autoClaim, hsome]
      rfl

end

theorem Advances.readGroup {new : List StreamEntry} {consumer : Bytes}
    (hsub : new.Sublist (s.entries.filter fun e => g.lastDeliveredId < e.id))
    (howned : ∀ id, owned pending id =
      (new.map fun e => .give e.id e consumer).foldl (note id) (owned g.pendingEntries id))
    {last : StreamEntry} (hlast : new.getLast? = some last)
    (consumers : AList fun _ : Bytes => StreamId) :
    Advances group s g (new.map fun e => .delivered group e consumer)
      { g with pendingEntries := pending, lastDeliveredId := last.id, consumers } := by
  have habove : ∀ e ∈ new, g.lastDeliveredId < e.id := fun e he => by
    simpa using (mem_filter.mp (hsub.subset he)).2
  have hledger : ledger group (new.map fun e => .delivered group e consumer) =
      new.map fun e => .give e.id e consumer := by
    rw [ledger_delivered, if_pos rfl]
  refine ⟨fun id => ?_, (habove last (mem_of_getLast? hlast)).le, fun id hid => ?_,
    fun hentries => ?_⟩
  · rw [hledger]
    exact howned id
  · rw [hledger, given_map_give, mem_map] at hid
    obtain ⟨e, he, rfl⟩ := hid
    exact habove e he
  · have hincreasing : new.Pairwise fun a b => a.id < b.id :=
      hentries.sublist (hsub.trans filter_sublist)
    rw [hledger, given_map_give]
    refine ⟨pairwise_map.mpr hincreasing, fun id hid => ?_⟩
    obtain ⟨e, he, rfl⟩ := mem_map.mp hid
    exact le_getLast hincreasing hlast e he

/-- `XREADGROUP` delivers what is above the last delivered ID. -/
theorem readGroup_advances (h : s.groups.lookup group = some g) (group' consumer : Bytes)
    (count : UInt64) (now : ℕ → env.Time) :
    ∃ g', (s.readGroup group' consumer count now).2.groups.lookup group = some g' ∧
      Advances group s g ((s.readGroup group' consumer count now).1.map
        fun e => .delivered group' e consumer) g' := by
  by_cases hgroup : group = group'
  · subst hgroup
    obtain ⟨new, hnew, hsub, -, howned⟩ := readLoop_spec consumer count now g.lastDeliveredId
      s.entries [] g.pendingEntries
    rw [nil_append] at hnew
    rw [readGroup, h]
    dsimp only
    rw [hnew]
    refine ⟨_, AList.lookup_insert _, ?_⟩
    cases hlast : new.getLast? with
    | none =>
      rw [List.getLast?_eq_none_iff] at hlast
      subst hlast
      exact Advances.setPending rfl howned
    | some last => exact Advances.readGroup hsub howned hlast _
  · refine ⟨g, ?_, Advances.refl ?_⟩
    · rw [readGroup]
      split
      · exact h
      · exact (AList.lookup_insert_ne hgroup).trans h
    · rw [ledger_delivered, if_neg (Ne.symm hgroup)]

theorem perform_advances (h : s.groups.lookup group = some g) {op : StreamOp env}
    (hop : op ≠ .destroyGroup group) :
    ∃ g', (s.perform op).2.groups.lookup group = some g' ∧
      Advances group s g (s.perform op).1 g' := by
  cases op with
  | add now fields idSpec maxLen =>
    refine ⟨g, ?_, Advances.refl ?_⟩
    · rw [perform, addEntry]
      cases s.nextId env now idSpec with
      | none => exact h
      | some id => exact h
    · rw [perform]
      dsimp only
      split
      · rfl
      · rfl
  | delete | trim | setId => exact ⟨g, h, Advances.refl rfl⟩
  | createGroup group' startId =>
    refine ⟨g, ?_, Advances.refl rfl⟩
    rw [perform, createGroup]
    split
    · exact h
    · next hgroup =>
      have hne : group ≠ group' := by
        rintro rfl
        exact hgroup (AList.lookup_isSome.mp (by rw [h]; rfl))
      exact (AList.lookup_insert_ne hne).trans h
  | destroyGroup group' =>
    have hne : group ≠ group' := fun heq => hop (by rw [heq])
    exact ⟨g, (AList.lookup_erase_ne hne).trans h, Advances.refl rfl⟩
  | readGroup group' consumer count now => exact readGroup_advances h group' consumer count now
  | ack group' ids => exact ack_advances h group' ids
  | claim group' consumer minIdleTime ids now =>
    exact claim_advances h group' consumer minIdleTime ids now
  | autoClaim group' consumer minIdleTime startId count now =>
    exact autoClaim_advances h group' consumer minIdleTime startId count now

/-! ### Runs -/

/-- The group agrees with its ledger. -/
structure Agrees (group : Bytes) (history : List StreamEvent)
    (g : StreamConsumerGroup env.Time) : Prop where
  owned_eq : ∀ id, owned g.pendingEntries id = held (ledger group history) id
  increasing : (given (ledger group history)).Pairwise (· < ·)
  le_last : ∀ id ∈ given (ledger group history), id ≤ g.lastDeliveredId

theorem Agrees.advance {history : List StreamEvent} {g' : StreamConsumerGroup env.Time}
    (h : Agrees group history g) (hentries : s.entries.Pairwise fun a b => a.id < b.id)
    (hadvances : Advances group s g events g') : Agrees group (history ++ events) g' := by
  have hledger : ledger group (history ++ events) = ledger group history ++ ledger group events :=
    filterMap_append
  obtain ⟨hincreasing, hle⟩ := hadvances.ordered hentries
  refine ⟨fun id => ?_, ?_, fun id hid => ?_⟩
  · rw [hledger, held_append, ← h.owned_eq id]
    exact hadvances.owned_eq id
  · rw [hledger, given_append, pairwise_append]
    exact ⟨h.increasing, hincreasing, fun id hid id' hid' =>
      (h.le_last id hid).trans_lt (hadvances.above id' hid')⟩
  · rw [hledger, given_append, mem_append] at hid
    rcases hid with hid | hid
    · exact (h.le_last id hid).trans hadvances.le
    · exact hle id hid

/-- **Groups.**  From a new group on, as long as the entries of the stream are in order, IDs are
delivered in increasing order, and the pending entries are those that were delivered and not
acknowledged since, each as it was delivered and with its last reader or claimer. -/
theorem group_deliveries (h : s.groups.lookup group = some g) (hnew : g.pendingEntries = ∅)
    {ops : List (StreamOp env)}
    (hops : Along step (fun s op => (s.entries.Pairwise fun a b => a.id < b.id) ∧
      op ≠ .destroyGroup group) s ops) :
    (given (ledger group (results perform s ops).1.flatten)).Pairwise (· < ·) ∧
      ∃ g', (results perform s ops).2.groups.lookup group = some g' ∧
        ∀ id entry consumer,
          (∃ p, g'.pendingEntries[id]? = some p ∧ p.entry = entry ∧ p.consumer = consumer) ↔
            Holds (ledger group (results perform s ops).1.flatten) id entry consumer := by
  have hstart : Agrees group [] g := by
    refine ⟨fun id => ?_, List.Pairwise.nil, fun id hid => absurd hid not_mem_nil⟩
    rw [owned, hnew, Std.TreeMap.getElem?_emptyc]
    rfl
  obtain ⟨g', hlookup, hagrees⟩ := results_invariant
    (fun s history => ∃ g, s.groups.lookup group = some g ∧ Agrees group history g)
    (fun s history op hop hs => by
      obtain ⟨g, hlookup, hagrees⟩ := hs
      obtain ⟨g', hlookup', hadvances⟩ := perform_advances hlookup hop.2
      exact ⟨g', hlookup', hagrees.advance hop.1 hadvances⟩) hops ⟨g, h, hstart⟩
  rw [nil_append] at hagrees
  refine ⟨hagrees.increasing, g', hlookup, fun id entry consumer => ?_⟩
  rw [← held_eq_some_iff (hagrees.increasing.imp ne_of_lt), ← hagrees.owned_eq, owned,
    Option.map_eq_some_iff]
  simp only [Prod.mk.injEq]

/-- One consumer reads two entries; one of them is acknowledged, and the other claimed. -/
theorem group_deliveries_sample :
    let ops : List (StreamOp simpleStreams) :=
      [.add (5 : Int64) [] (ascii "1-1") 0, .add (5 : Int64) [] (ascii "2-1") 0,
        .readGroup (ascii "g") (ascii "a") 9 fun _ => (6 : Int64), .ack (ascii "g") [⟨2, 1⟩],
        .claim (ascii "g") (ascii "b") 0 [⟨1, 1⟩] (7 : Int64)]
    ∃ g', (results perform (createGroup (ascii "g") {} {}).2 ops).2.groups.lookup (ascii "g") =
        some g' ∧
      ∃ p, g'.pendingEntries[(⟨1, 1⟩ : StreamId)]? = some p ∧ p.entry = ⟨⟨1, 1⟩, []⟩ ∧
        p.consumer = ascii "b" := by
  intro ops
  obtain ⟨-, g', hlookup, hiff⟩ := @group_deliveries simpleStreams (ascii "g") _
    (createGroup (ascii "g") {} {}).2 rfl rfl ops
    ⟨⟨by decide +kernel, by simp⟩, ⟨by decide +kernel, by simp⟩,
      ⟨by decide +kernel, by simp⟩, ⟨by decide +kernel, by simp⟩,
      ⟨by decide +kernel, by simp⟩, trivial⟩
  exact ⟨g', hlookup, (hiff ⟨1, 1⟩ ⟨⟨1, 1⟩, []⟩ (ascii "b")).mpr
    ⟨[], ascii "a", [.give ⟨2, 1⟩ ⟨⟨2, 1⟩, []⟩ (ascii "a"), .settle ⟨2, 1⟩,
      .move ⟨1, 1⟩ (ascii "b")], rfl, by simp, rfl⟩⟩

end StreamData
