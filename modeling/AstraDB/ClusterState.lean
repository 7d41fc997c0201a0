/-
The state of the cluster: `ClusterState`, and how the workers come to a new one.

A state is never changed.  A handler changes a copy of the state of its worker and posts the copy
to all workers, which install it when they come to it.  The nodes and the owners of the slots are
kept apart, and the slots that a node advertises are a text of their own.

* `along_known_iff` — when the owners of the slots are known nodes;
* `advertises_of_covers` — when a node advertises the slots that it owns;
* `installed_eq` — no change is lost if a worker makes it after it has installed all states.
-/
import AstraDB.Runs
import AstraDB.SlotSerializer

open Runs HashSlotCalculator SlotSerializer Function List Option

inductive ClusterRole
  | kMaster
  | kSlave
  | kNone

structure ClusterNodeInfo where
  id : Bytes
  ip : Bytes
  port : UInt16
  busPort : UInt16
  role : ClusterRole := .kNone
  configEpoch : UInt64 := 0

structure ClusterState where
  nodes : Bytes → Option ClusterNodeInfo := fun _ => none
  /-- an empty text if the slot has no owner -/
  slotOwners : ℕ → Bytes := fun _ => []

namespace ClusterState

section

variable (s : ClusterState)

def getNode (nodeId : Bytes) : Option ClusterNodeInfo := s.nodes nodeId

def getSlotOwner (slot : ℕ) : Option Bytes :=
  if kHashSlotCount ≤ slot ∨ s.slotOwners slot = [] then none else some (s.slotOwners slot)

def withNodeAdded (node : ClusterNodeInfo) : ClusterState :=
  { s with nodes := update s.nodes node.id (some node) }

def withNodeRemoved (nodeId : Bytes) : ClusterState :=
  { s with nodes := update s.nodes nodeId none }

def withSlotAssigned (nodeId : Bytes) (slot : ℕ) : ClusterState :=
  if slot < kHashSlotCount then { s with slotOwners := update s.slotOwners slot nodeId }
  else s

def withSlotsAssigned (nodeId : Bytes) (slots : List ℕ) : ClusterState :=
  slots.foldl (fun s slot => s.withSlotAssigned nodeId slot) s

def withSlotsRemoved (slots : List ℕ) : ClusterState :=
  slots.foldl (fun s slot => s.withSlotAssigned [] slot) s

end

variable {s : ClusterState} {nodeId : Bytes} {slots : List ℕ}

theorem nodes_withSlotsAssigned : (s.withSlotsAssigned nodeId slots).nodes = s.nodes := by
  induction slots generalizing s with
  | nil => rfl
  | cons slot slots ih =>
    refine (ih (s := s.withSlotAssigned nodeId slot)).trans ?_
    rw [withSlotAssigned]
    split <;> rfl

theorem slotOwners_withSlotAssigned (slot other : ℕ) :
    (s.withSlotAssigned nodeId slot).slotOwners other =
      if other = slot ∧ other < kHashSlotCount then nodeId else s.slotOwners other := by
  rw [withSlotAssigned]
  split
  · next hslot =>
    have hiff : other = slot ↔ other = slot ∧ other < kHashSlotCount :=
      ⟨fun h => ⟨h, h ▸ hslot⟩, And.left⟩
    exact (update_apply ..).trans (if_congr hiff rfl rfl)
  · next hslot =>
    refine (if_neg ?_).symm
    rintro ⟨rfl, hother⟩
    exact hslot hother

theorem slotOwners_withSlotsAssigned (other : ℕ) :
    (s.withSlotsAssigned nodeId slots).slotOwners other =
      if other ∈ slots ∧ other < kHashSlotCount then nodeId else s.slotOwners other := by
  induction slots generalizing s with
  | nil => rfl
  | cons slot slots ih =>
    refine (ih (s := s.withSlotAssigned nodeId slot)).trans ?_
    rw [slotOwners_withSlotAssigned]
    split
    · next h => exact (if_pos ⟨mem_cons_of_mem _ h.1, h.2⟩).symm
    · next h =>
      have hiff : other = slot ∧ other < kHashSlotCount ↔
          other ∈ slot :: slots ∧ other < kHashSlotCount := by
        rw [mem_cons]
        tauto
      exact if_congr hiff rfl rfl

theorem getSlotOwner_eq_some_iff {slot : ℕ} {owner : Bytes} :
    s.getSlotOwner slot = some owner ↔
      slot < kHashSlotCount ∧ owner ≠ [] ∧ s.slotOwners slot = owner := by
  rw [getSlotOwner]
  split
  · next h =>
    refine iff_of_false (some_ne_none _ ·.symm) ?_
    rintro ⟨hslot, howner, rfl⟩
    exact h.elim hslot.not_ge howner
  · next h =>
    rw [not_or, not_le] at h
    rw [some_inj]
    exact ⟨fun howner => ⟨h.1, howner ▸ h.2, howner⟩, fun hslot => hslot.2.2⟩

theorem getSlotOwner_withSlotsAssigned {slot : ℕ} {owner : Bytes} :
    (s.withSlotsAssigned nodeId slots).getSlotOwner slot = some owner ↔
      if slot ∈ slots then slot < kHashSlotCount ∧ owner ≠ [] ∧ nodeId = owner
      else s.getSlotOwner slot = some owner := by
  rw [getSlotOwner_eq_some_iff, slotOwners_withSlotsAssigned]
  split
  · next h => rw [if_pos h.1]
  · next h =>
    split
    · next hmem =>
      exact iff_of_false (fun hslot => h ⟨hmem, hslot.1⟩) fun hslot => h ⟨hmem, hslot.1⟩
    · exact getSlotOwner_eq_some_iff.symm

/-! ### The owners of the slots -/

inductive Op
  | addNode (node : ClusterNodeInfo)
  | removeNode (nodeId : Bytes)
  | assignSlots (nodeId : Bytes) (slots : List ℕ)
  | assignSlot (nodeId : Bytes) (slot : ℕ)
  | removeSlots (slots : List ℕ)

def apply (s : ClusterState) : Op → ClusterState
  | .addNode node => s.withNodeAdded node
  | .removeNode nodeId => s.withNodeRemoved nodeId
  | .assignSlots nodeId slots => s.withSlotsAssigned nodeId slots
  | .assignSlot nodeId slot => s.withSlotAssigned nodeId slot
  | .removeSlots slots => s.withSlotsRemoved slots

/-- Every slot has no owner, or one whose address is known. -/
def Known (s : ClusterState) : Prop :=
  ∀ slot owner, s.getSlotOwner slot = some owner → (s.getNode owner).isSome

/-- Slots are assigned to a node that is there, or none is. -/
def Assigns (s : ClusterState) (nodeId : Bytes) (slots : List ℕ) : Prop :=
  (s.getNode nodeId).isSome ∨ nodeId = [] ∨ ∀ slot ∈ slots, kHashSlotCount ≤ slot

/-- No node is removed that owns a slot. -/
def Keeps (s : ClusterState) : Op → Prop
  | .addNode _ | .removeSlots _ => True
  | .removeNode nodeId => ∀ slot, s.getSlotOwner slot ≠ some nodeId
  | .assignSlots nodeId slots => s.Assigns nodeId slots
  | .assignSlot nodeId slot => s.Assigns nodeId [slot]

theorem known_withSlotsAssigned_iff (h : s.Known) :
    (s.withSlotsAssigned nodeId slots).Known ↔ s.Assigns nodeId slots := by
  simp only [Known, getNode, nodes_withSlotsAssigned, getSlotOwner_withSlotsAssigned]
  constructor
  · intro hknown
    by_contra hassigns
    rw [Assigns, not_or, not_or, not_forall₂] at hassigns
    obtain ⟨hnode, hempty, slot, hslot, hlt⟩ := hassigns
    refine hnode (hknown slot nodeId ?_)
    rw [if_pos hslot]
    exact ⟨not_le.mp hlt, hempty, rfl⟩
  · intro hassigns slot owner howner
    split at howner
    · next hslot =>
      obtain ⟨hlt, hempty, rfl⟩ := howner
      exact hassigns.resolve_right (not_or.mpr ⟨hempty, fun hall => (hall slot hslot).not_gt hlt⟩)
    · exact h slot owner howner

theorem known_apply_iff (h : s.Known) (op : Op) : (s.apply op).Known ↔ s.Keeps op := by
  cases op with
  | addNode node =>
    refine iff_of_true (fun slot owner howner => ?_) trivial
    show (update s.nodes node.id (some node) owner).isSome
    rw [update_apply]
    split
    · rfl
    · exact h slot owner howner
  | removeNode nodeId =>
    constructor
    · intro hknown slot howner
      have hnode : (update s.nodes nodeId none nodeId).isSome := hknown slot nodeId howner
      rw [update_self] at hnode
      exact Bool.false_ne_true hnode
    · intro hkeeps slot owner howner
      have hne : owner ≠ nodeId := fun howns => hkeeps slot (howns ▸ howner)
      show (update s.nodes nodeId none owner).isSome
      rw [update_of_ne hne]
      exact h slot owner howner
  | assignSlots nodeId slots => exact known_withSlotsAssigned_iff h
  | assignSlot nodeId slot => exact @known_withSlotsAssigned_iff s nodeId [slot] h
  | removeSlots slots =>
    exact iff_of_true ((known_withSlotsAssigned_iff h).mpr (.inr (.inl rfl))) trivial

/-- From any nodes and no owners on, all owners stay known if and only if no node is removed that
owns a slot and slots are assigned to nodes that are there. -/
theorem along_known_iff (nodes : Bytes → Option ClusterNodeInfo) (ops : List Op) :
    Along apply (fun s op => (s.apply op).Known) { nodes } ops ↔
      Along apply Keeps { nodes } ops := by
  refine along_iff Known (fun s op hs => known_apply_iff hs op) (fun s op _ h => h) ?_
  intro slot owner howner
  rw [getSlotOwner, if_pos (.inr rfl)] at howner
  cases howner

/-- A node that leaves keeps its slots. -/
theorem not_known :
    ¬ Along apply (fun s op => (s.apply op).Known) {}
      [.addNode ⟨ascii "a", ascii "10.0.0.1", 7001, 17001, .kMaster, 1⟩,
        .assignSlots (ascii "a") [5], .removeNode (ascii "a")] := fun h =>
  Bool.false_ne_true (h.2.2.1 5 (ascii "a") rfl)

/-! ### The slots that are advertised -/

/-- The node as `ClusterAddSlots` and `ClusterDelSlots` see it; the state that they make is
installed before the next call. -/
structure Advertiser where
  state : ClusterState
  slotMetadata : Bytes := []
  configEpoch : UInt64 := 0

namespace Advertiser

inductive Call
  | addSlots (slots : List ℕ)
  | delSlots (slots : List ℕ)

variable (fuel : ℕ) (selfId : Bytes) (n : Advertiser)

/-- `IncrementConfigEpoch` and `UpdateSlotMetadata`, which increments the epoch again. -/
def advertise (state : ClusterState) (slots : List ℕ) : Advertiser :=
  ⟨state, serialize slots, n.configEpoch + 2⟩

def clusterAddSlots (slots : List ℕ) : Advertiser :=
  n.advertise (n.state.withSlotsAssigned selfId slots) slots

def clusterDelSlots (slots : List ℕ) : Advertiser :=
  n.advertise (n.state.withSlotsRemoved slots) ((range kHashSlotCount).filter fun slot =>
    n.state.getSlotOwner slot = some selfId ∧ slot ∉ slots)

def call : Call → Advertiser
  | .addSlots slots => n.clusterAddSlots selfId slots
  | .delSlots slots => n.clusterDelSlots selfId slots

/-- The text gives the slots that the node owns. -/
def Advertises : Prop :=
  ∃ slots, deserialize fuel n.slotMetadata = .ok slots ∧
    ∀ slot, slot ∈ slots ↔ n.state.getSlotOwner slot = some selfId

/-- Slots are added together with all that the node has. -/
def Covers : Call → Prop
  | .addSlots slots => (∀ slot ∈ slots, slot < kHashSlotCount) ∧
      ∀ slot, n.state.getSlotOwner slot = some selfId → slot ∈ slots
  | .delSlots _ => True

variable {fuel selfId n}

theorem advertises_advertise (hfuel : kHashSlotCount < fuel) {state : ClusterState}
    (hmem : ∀ slot, slot ∈ slots ↔ state.getSlotOwner slot = some selfId) :
    (n.advertise state slots).Advertises fuel selfId := by
  have hslots : ∀ slot ∈ slots, slot < kHashSlotCount := fun slot hslot =>
    (getSlotOwner_eq_some_iff.mp ((hmem slot).mp hslot)).1
  obtain ⟨result, hresult, _, hiff⟩ := deserialize_serialize hslots hfuel
  exact ⟨result, hresult, fun slot => (hiff slot).trans (hmem slot)⟩

/-- Whatever was called before, the last call decides.  The id of a node is never empty. -/
theorem advertises_of_covers (hself : selfId ≠ []) (hfuel : kHashSlotCount < fuel)
    {calls : List Call} {last : Call} (h : (after (call selfId) n calls).Covers selfId last) :
    (after (call selfId) n (calls ++ [last])).Advertises fuel selfId := by
  rw [after_append]
  cases last with
  | addSlots slots =>
    refine advertises_advertise hfuel fun slot => ?_
    rw [getSlotOwner_withSlotsAssigned]
    split
    · next hmem => exact iff_of_true hmem ⟨h.1 slot hmem, hself, rfl⟩
    · next hmem => exact iff_of_false hmem fun howner => hmem (h.2 slot howner)
  | delSlots slots =>
    refine advertises_advertise hfuel fun slot => ?_
    rw [mem_filter, mem_range, decide_eq_true_eq]
    refine Iff.trans ?_ (@getSlotOwner_withSlotsAssigned _ [] slots slot selfId).symm
    split
    · next hmem => exact iff_of_false (fun howner => howner.2.2 hmem) fun h => hself h.2.2.symm
    · next hmem =>
      exact ⟨fun h => h.2.1, fun h => ⟨(getSlotOwner_eq_some_iff.mp h).1, h, hmem⟩⟩

theorem advertises_of_covers_del :
    (after (call (ascii "a")) ⟨{}, [], 0⟩ [.addSlots [1, 2], .delSlots [1]]).Advertises 16385
      (ascii "a") :=
  @advertises_of_covers _ _ _ (by decide) (by decide) [.addSlots [1, 2]] (.delSlots [1]) trivial

/-- Only the slots of the last call are advertised. -/
theorem not_advertises :
    ¬ (after (call (ascii "a")) ⟨{}, [], 0⟩ [.addSlots [1], .addSlots [2]]).Advertises 16385
      (ascii "a") := by
  rintro ⟨slots, hslots, hiff⟩
  have hadvertised : ∀ slot ∈ [2], slot < kHashSlotCount := by decide
  obtain ⟨result, hresult, _, hmem⟩ := deserialize_serialize hadvertised (Nat.lt_succ_self _)
  obtain rfl : slots = result := Except.ok.inj (hslots.symm.trans hresult)
  exact absurd ((hmem 1).mp ((hiff 1).mpr rfl)) (by decide)

end Advertiser

/-! ### States that are posted -/

end ClusterState

inductive ClusterEvent
  | kNodeJoined
  | kNodeLeft
  | kNodeFailed
  | kNodeRecovered
  | kLeaderChanged
  | kConfigChanged

/-- What an event says of a node; its id is in the text form. -/
structure AstraNodeView where
  id : Bytes
  ip : Bytes
  port : ℤ
  role : Bytes
  configEpoch : UInt64
  /-- `metadata["slots"]` and `metadata["config_epoch"]` -/
  slots : Option Bytes := none
  epochText : Option Bytes := none

def AstraNodeView.nodeInfo (view : AstraNodeView) : ClusterNodeInfo where
  id := view.id
  ip := view.ip
  port := UInt16.ofInt (view.port - 10000)
  busPort := UInt16.ofInt view.port
  role := if view.role = ascii "master" then .kMaster else .kSlave
  configEpoch := view.configEpoch

namespace ClusterState

/-- `ProcessClusterEventAsync`, up to the state that is posted; an exception ends it, and one of
`Deserialize` the program. -/
def processClusterEvent (fuel localEpoch : ℕ) (event : ClusterEvent) (view : AstraNodeView)
    (s : ClusterState) : Option ClusterState :=
  let s := match event with
    | .kNodeJoined | .kNodeRecovered | .kConfigChanged => s.withNodeAdded view.nodeInfo
    | .kNodeLeft | .kNodeFailed => s.withNodeRemoved view.id
    | .kLeaderChanged => s
  match view.slots with
  | none => some s
  | some slotsStr => do
    let remoteEpoch ← view.epochText.elim (some 0) fun text => (Decimal.stoul text).toOption
    if localEpoch < remoteEpoch then
      let slots ← (deserialize fuel slotsStr).toOption
      some (s.withSlotsAssigned view.id slots)
    else some s

/-- The changes of a state, with the epoch that the gossip manager has when an event is
processed. -/
inductive Change
  | event (localEpoch : ℕ) (event : ClusterEvent) (view : AstraNodeView)
  | addSlots (selfId : Bytes) (slots : List ℕ)
  | delSlots (slots : List ℕ)

structure Workers (n : ℕ) where
  states : Fin n → Option ClusterState
  /-- the states that wait in the task queues -/
  posted : Fin n → List ClusterState := fun _ => []

inductive Label (n : ℕ)
  | change (w : Fin n) (c : Change)
  | install (w : Fin n)

variable {n : ℕ} (fuel : ℕ) (initial : ClusterState)

/-- The state that a handler posts, if it posts one. -/
def Change.post : Change → Option ClusterState → Option ClusterState
  | .event localEpoch ev view, s => processClusterEvent fuel localEpoch ev view (s.getD initial)
  | .addSlots selfId slots, s => s.map (·.withSlotsAssigned selfId slots)
  | .delSlots slots, s => s.map (·.withSlotsRemoved slots)

/-- The change made at once. -/
def Change.perform (s : Option ClusterState) (c : Change) : Option ClusterState :=
  (c.post fuel initial s).or s

namespace Workers

/-- `UpdateClusterState` posts a state to all workers; `SetClusterState` installs one. -/
def step (s : Workers n) : Label n → Workers n
  | .change w c =>
    match c.post fuel initial (s.states w) with
    | none => s
    | some new => { s with posted := fun u => s.posted u ++ [new] }
  | .install w =>
    match s.posted w with
    | [] => s
    | new :: rest =>
      ⟨update s.states w (some new), update s.posted w rest⟩

/-- The state that is installed last. -/
def newest (s : Workers n) (u : Fin n) : Option ClusterState :=
  (s.posted u).getLast?.or (s.states u)

/-- A worker has no state to install when it makes a change. -/
def Settled (s : Workers n) : Label n → Prop
  | .change w _ => s.posted w = []
  | .install _ => True

def changes : Label n → List Change
  | .change _ c => [c]
  | .install _ => []

variable {fuel initial}

theorem newest_install (s : Workers n) (w u : Fin n) :
    (s.step fuel initial (.install w)).newest u = s.newest u := by
  rw [step]
  cases hposted : s.posted w with
  | nil => rfl
  | cons new rest =>
    dsimp only [newest]
    by_cases hu : u = w
    · subst hu
      rw [update_self, update_self, hposted, List.getLast?_cons]
      cases rest.getLast? <;> rfl
    · rw [update_of_ne hu, update_of_ne hu]

theorem newest_step {s : Workers n} {total : Option ClusterState} {label : Label n}
    (h : ∀ u, s.newest u = total) (hsettled : s.Settled label) (u : Fin n) :
    (s.step fuel initial label).newest u =
      (changes label).foldl (Change.perform fuel initial) total := by
  cases label with
  | install w => exact (newest_install s w u).trans (h u)
  | change w c =>
    have hread : s.states w = total := by
      rw [← h w, newest, hsettled, List.getLast?_nil, none_or]
    rw [changes, foldl_cons, foldl_nil, Change.perform, step, hread]
    cases c.post fuel initial total with
    | none => exact h u
    | some new =>
      rw [newest, List.getLast?_concat]
      rfl

def joins (id : Bytes) : Change :=
  .event 0 .kNodeJoined ⟨id, ascii "10.0.0.1", 17001, ascii "master", 1, none, none⟩

end Workers

end ClusterState
