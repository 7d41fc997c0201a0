/-
The master's side of replication: `ReplicationManager`.

`PropagateCommand` counts the commands and keeps the last of them in the backlog; `PSYNC` and
`GetBacklogData` find commands there by their offsets.  The offset is a natural number;
differences of offsets are taken modulo `2^64`, as in the source.  A call that takes an element
out of an empty deque has no result.  The connections to the slaves are left out.

* `backlog_of_history` — after any commands, the offset, the backlog and what is found in it;
* `continueSafe_iff` — the requests for which a partial resync is right.
-/
import AstraDB.Loops
import AstraDB.RespTypes
import AstraDB.Slices

open Loops List

inductive ReplicationRole
  | kNone
  | kMaster
  | kSlave
  deriving DecidableEq, Repr

structure ReplicationManager where
  role : ReplicationRole
  /-- `config_.repl_backlog_size` -/
  replBacklogSize : UInt64
  masterReplid : Bytes
  replOffset : ℕ
  replBacklog : List Command

namespace ReplicationManager

def initMaster (replBacklogSize : UInt64) (masterReplid : Bytes) : ReplicationManager where
  role := .kMaster
  replBacklogSize := replBacklogSize
  masterReplid := masterReplid
  replOffset := 0
  replBacklog := []

def propagateCommand (m : ReplicationManager) (cmd : Command) : Option ReplicationManager :=
  if m.role ≠ .kMaster then some m
  else
    let m := { m with replOffset := m.replOffset + 1 }
    if m.replBacklogSize.toNat ≤ m.replBacklog.length then
      match m.replBacklog with
      | [] => none
      | _ :: rest => some { m with replBacklog := rest ++ [cmd] }
    else some { m with replBacklog := m.replBacklog ++ [cmd] }

def propagateAll (m : ReplicationManager) (commands : List Command) : Option ReplicationManager :=
  commands.foldlM propagateCommand m

/-- The offset of the first command of the backlog. -/
def backlogStartOffset (m : ReplicationManager) : ℕ :=
  if m.replBacklog.length ≤ m.replOffset then m.replOffset - m.replBacklog.length else 0

/-- The difference of two `uint64_t`. -/
def offsetDiff (a b : ℕ) : ℕ := (((a : ℤ) - b) % 2 ^ 64).toNat

def getBacklogData (m : ReplicationManager) (startOffset endOffset : ℕ) : List Command :=
  if startOffset < m.backlogStartOffset ∨ m.replOffset < endOffset then []
  else
    let startIdx := offsetDiff startOffset m.backlogStartOffset
    let endIdx := offsetDiff endOffset m.backlogStartOffset
    forUp startIdx (min endIdx m.replBacklog.length)
      (fun i result => result ++ m.replBacklog[i]?.toList) []

variable (strCat : ℕ → Bytes)

/-- `BuildFullResyncResponse`, with `absl::StrCat` of an offset. -/
def buildFullResyncResponse (replid : Bytes) (offset : ℕ) : Bytes :=
  ascii "FULLRESYNC " ++ replid ++ ascii " " ++ strCat offset ++ ascii "\r\n"

def buildContinueResponse : Bytes := ascii "CONTINUE\r\n"

def handlePsync (m : ReplicationManager) (replicationId : Bytes) (offset : ℕ) : Bytes :=
  if replicationId = ascii "?" ∨ replicationId = [] then
    buildFullResyncResponse strCat m.masterReplid m.replOffset
  else if m.backlogStartOffset ≤ offset ∧ offset ≤ m.replOffset then buildContinueResponse
  else buildFullResyncResponse strCat m.masterReplid m.replOffset

/-- How many commands a backlog of the size `n` keeps of a history. -/
def kept (n : UInt64) (history : List Command) : ℕ := min history.length n.toNat

/-- The manager is a master that has propagated the history. -/
structure Recorded (replBacklogSize : UInt64) (masterReplid : Bytes) (history : List Command)
    (m : ReplicationManager) : Prop where
  role : m.role = .kMaster
  size : m.replBacklogSize = replBacklogSize
  replid : m.masterReplid = masterReplid
  offset : m.replOffset = history.length
  backlog : m.replBacklog = history.drop (history.length - kept replBacklogSize history)

variable {size : UInt64} {replid : Bytes} {history : List Command} {m m' : ReplicationManager}

theorem recorded_initMaster (size : UInt64) (replid : Bytes) :
    Recorded size replid [] (initMaster size replid) := ⟨rfl, rfl, rfl, rfl, rfl⟩

namespace Recorded

section

variable (h : Recorded size replid history m)
include h

theorem length_backlog :
    m.replBacklog.length = kept size history := by
  rw [h.backlog, length_drop, kept]
  omega

theorem backlogStartOffset_eq :
    m.backlogStartOffset = history.length - kept size history := by
  rw [backlogStartOffset, h.length_backlog, h.offset, if_pos (by rw [kept]; omega)]

theorem propagateCommand {cmd : Command}
    (hm' : m.propagateCommand cmd = some m') : Recorded size replid (history ++ [cmd]) m' := by
  have hlength := h.length_backlog
  have hbacklog := h.backlog
  rw [kept] at hlength hbacklog
  have hrole : ¬ m.role ≠ .kMaster := not_not.mpr h.role
  rw [ReplicationManager.propagateCommand, if_neg hrole] at hm'
  dsimp only at hm'
  split at hm'
  · next hfull =>
    rw [h.size] at hfull
    cases hlist : m.replBacklog with
    | nil =>
      rw [hlist] at hm'
      exact absurd hm' (by simp)
    | cons oldest rest =>
      rw [hlist] at hm' hbacklog hlength
      obtain rfl := Option.some.inj hm'
      refine ⟨h.role, h.size, h.replid, by simp [h.offset], ?_⟩
      -- the oldest command is the one that the window leaves behind
      have hrest : rest = history.drop (history.length - min history.length size.toNat + 1) := by
        rw [← drop_drop, ← hbacklog]
        rfl
      rw [hlist, length_cons] at hfull
      rw [length_cons] at hlength
      dsimp only
      rw [hrest, kept, length_append, length_singleton,
        ← drop_append_of_le_length (by omega)]
      congr 1
      omega
  · next hroom =>
    rw [h.size] at hroom
    obtain rfl := Option.some.inj hm'
    refine ⟨h.role, h.size, h.replid, by simp [h.offset], ?_⟩
    dsimp only
    rw [hbacklog, kept, length_append, length_singleton,
      ← drop_append_of_le_length (by omega)]
    congr 1
    omega

theorem propagateAll {commands : List Command} (hm' : m.propagateAll commands = some m') :
    Recorded size replid (history ++ commands) m' := by
  induction commands generalizing history m with
  | nil =>
    obtain rfl := Option.some.inj hm'
    rw [append_nil]
    exact h
  | cons cmd commands ih =>
    rw [ReplicationManager.propagateAll, foldlM_cons] at hm'
    obtain ⟨m₁, hm₁, hm'⟩ := Option.bind_eq_some_iff.mp hm'
    rw [append_cons]
    exact ih (h.propagateCommand hm₁) hm'

theorem exists_propagateCommand (hsize : 1 ≤ size)
    (cmd : Command) : ∃ m', m.propagateCommand cmd = some m' := by
  have hlength := h.length_backlog
  rw [kept] at hlength
  rw [ReplicationManager.propagateCommand, if_neg (not_not.mpr h.role)]
  dsimp only
  split
  · next hfull =>
    rw [h.size] at hfull
    cases hlist : m.replBacklog with
    | nil =>
      rw [hlist, length_nil] at hfull
      have hpos : 1 ≤ size.toNat := UInt64.le_iff_toNat_le.mp hsize
      omega
    | cons oldest rest => exact ⟨_, rfl⟩
  · exact ⟨_, rfl⟩

theorem exists_propagateAll (hsize : 1 ≤ size)
    (commands : List Command) : ∃ m', m.propagateAll commands = some m' := by
  induction commands generalizing history m with
  | nil => exact ⟨m, rfl⟩
  | cons cmd commands ih =>
    obtain ⟨m₁, hm₁⟩ := h.exists_propagateCommand hsize cmd
    obtain ⟨m', hm'⟩ := ih (h.propagateCommand hm₁)
    refine ⟨m', ?_⟩
    rw [ReplicationManager.propagateAll, foldlM_cons]
    exact Option.bind_eq_some_iff.mpr ⟨m₁, hm₁, hm'⟩

end

theorem offsetDiff_of_le {a b : ℕ} (hle : b ≤ a) (hlt : a - b < 2 ^ 64) :
    offsetDiff a b = a - b := by
  rw [offsetDiff, ← Int.ofNat_sub hle, Int.emod_eq_of_lt (by omega) (by omega)]
  rfl

theorem forUp_copy (backlog : List Command) {lo hi : ℕ} (hle : lo ≤ hi)
    (hhi : hi ≤ backlog.length) :
    forUp lo hi (fun i result => result ++ backlog[i]?.toList) [] = (backlog.take hi).drop lo := by
  refine forUp_induct (P := fun i result => result = (backlog.take i).drop lo) hle ?_ ?_
  · rw [drop_take_self]
  · rintro i _ hlo hlt rfl
    rw [Slices.drop_take_add_one _ hlo (by omega)]

theorem getBacklogData_eq (h : Recorded size replid history m) {s e : ℕ} (hle : s ≤ e)
    (he : e ≤ history.length) (hs : history.length - kept size history ≤ s) :
    m.getBacklogData s e = (history.take e).drop s := by
  have hstart := h.backlogStartOffset_eq
  have hlength := h.length_backlog
  have hkept : kept size history ≤ history.length := Nat.min_le_left _ _
  have hsize : kept size history < 2 ^ 64 := Nat.lt_of_le_of_lt (Nat.min_le_right _ _) size.toNat_lt
  rw [getBacklogData, hstart, h.offset, if_neg (by omega)]
  dsimp only
  rw [offsetDiff_of_le hs (by omega), offsetDiff_of_le (Nat.le_trans hs hle) (by omega),
    Nat.min_eq_left (by omega), forUp_copy _ (by omega) (by omega), h.backlog, take_drop,
    drop_drop]
  congr 2 <;> omega

end Recorded

/-- **The backlog.**  After any sequence of commands. -/
theorem backlog_of_history {size : UInt64} (hsize : 1 ≤ size) (replid : Bytes)
    (commands : List Command) :
    ∃ m, (initMaster size replid).propagateAll commands = some m ∧
      m.replOffset = commands.length ∧
      m.replBacklog = commands.drop (commands.length - min commands.length size.toNat) ∧
      (∀ s e, s ≤ e → e ≤ commands.length →
        commands.length - min commands.length size.toNat ≤ s →
          m.getBacklogData s e = (commands.take e).drop s) ∧
      ∀ s e, s < commands.length - min commands.length size.toNat ∨ commands.length < e →
        m.getBacklogData s e = [] := by
  have hinit := recorded_initMaster size replid
  obtain ⟨m, hm⟩ := hinit.exists_propagateAll hsize commands
  have h := hinit.propagateAll hm
  rw [nil_append] at h
  refine ⟨m, hm, h.offset, h.backlog, fun s e hle he hs => h.getBacklogData_eq hle he hs,
    fun s e hout => ?_⟩
  rw [getBacklogData, h.backlogStartOffset_eq, h.offset]
  exact if_pos hout

theorem backlog_of_history_one :
    ∃ m, (initMaster 1 []).propagateAll [⟨ascii "PING", []⟩, ⟨ascii "SAVE", []⟩] = some m ∧
      m.replBacklog = [⟨ascii "SAVE", []⟩] ∧ m.getBacklogData 1 2 = [⟨ascii "SAVE", []⟩] ∧
      m.getBacklogData 0 2 = [] := by
  obtain ⟨m, hm, -, hbacklog, hinside, houtside⟩ := backlog_of_history
    (show (1 : UInt64) ≤ 1 by decide) [] [⟨ascii "PING", []⟩, ⟨ascii "SAVE", []⟩]
  exact ⟨m, hm, hbacklog, hinside 1 2 (by decide) (by decide) (by decide),
    houtside 0 2 (.inl (by decide))⟩

/-- If the slave may go on with the backlog, then it has followed this master, and all that it
lacks is there. -/
def ContinueSafe (history : List Command) (m : ReplicationManager)
    (replicationId : Bytes) (offset : ℕ) : Prop :=
  m.handlePsync strCat replicationId offset = buildContinueResponse →
    replicationId = m.masterReplid ∧ offset ≤ history.length ∧
      m.getBacklogData offset m.replOffset = history.drop offset

theorem handlePsync_eq_continue_iff (m : ReplicationManager) (id : Bytes)
    (offset : ℕ) : m.handlePsync strCat id offset = buildContinueResponse ↔
      id ≠ ascii "?" ∧ id ≠ [] ∧ m.backlogStartOffset ≤ offset ∧ offset ≤ m.replOffset := by
  have hne : buildFullResyncResponse strCat m.masterReplid m.replOffset ≠ buildContinueResponse := by
    intro h
    have hhead : some 'F'.toUInt8 = some 'C'.toUInt8 := congrArg List.head? h
    exact absurd hhead (by decide)
  rw [handlePsync]
  split
  · next hid =>
    refine ⟨fun h => absurd h hne, fun h => ?_⟩
    rcases hid with hid | hid
    · exact absurd hid h.1
    · exact absurd hid h.2.1
  · next hid =>
    rw [not_or] at hid
    split
    · next hwindow => exact ⟨fun _ => ⟨hid.1, hid.2, hwindow⟩, fun _ => rfl⟩
    · next hwindow => exact ⟨fun h => absurd h hne, fun h => absurd h.2.2 hwindow⟩

/-- **Partial resync.**  The id of the request is compared with no other than `?`, so a partial
resync is right if the id is the master's or the offset is outside of the window. -/
theorem continueSafe_iff (strCat : ℕ → Bytes) {size : UInt64} {replid : Bytes}
    {history : List Command} {m : ReplicationManager}
    (hm : (initMaster size replid).propagateAll history = some m) (id : Bytes) (offset : ℕ) :
    ContinueSafe strCat history m id offset ↔
      id = replid ∨ id = ascii "?" ∨ id = [] ∨
        offset < history.length - min history.length size.toNat ∨ history.length < offset := by
  have h := (recorded_initMaster size replid).propagateAll hm
  rw [nil_append] at h
  rw [ContinueSafe, handlePsync_eq_continue_iff, h.backlogStartOffset_eq, h.offset, h.replid, kept]
  constructor
  · intro hsafe
    by_contra hbad
    rw [not_or, not_or, not_or, not_or, Nat.not_lt, Nat.not_lt] at hbad
    obtain ⟨hid, hquestion, hempty, hwindow⟩ := hbad
    exact hid (hsafe ⟨hquestion, hempty, hwindow⟩).1
  · rintro hid ⟨hquestion, hempty, hstart, hend⟩
    have hdata := h.getBacklogData_eq hend (Nat.le_refl _) hstart
    rw [take_length] at hdata
    refine ⟨?_, hend, hdata⟩
    rcases hid with hid | hid | hid | hid | hid
    · exact hid
    · exact absurd hid hquestion
    · exact absurd hid hempty
    · exact absurd hstart (Nat.not_le.mpr hid)
    · exact absurd hend (Nat.not_le.mpr hid)

def sampleReplid (digit : Char) : Bytes := replicate 40 digit.toUInt8

theorem continueSafe_iff_own :
    ∃ m, (initMaster 4 (sampleReplid 'a')).propagateAll [⟨ascii "PING", []⟩] = some m ∧
      ContinueSafe Decimal.natText [⟨ascii "PING", []⟩] m (sampleReplid 'a') 0 := by
  have hm : (initMaster 4 (sampleReplid 'a')).propagateAll [⟨ascii "PING", []⟩] =
      some ⟨.kMaster, 4, sampleReplid 'a', 1, [⟨ascii "PING", []⟩]⟩ := rfl
  exact ⟨_, hm, (continueSafe_iff Decimal.natText hm (sampleReplid 'a') 0).mpr (.inl rfl)⟩

/-- A slave of another master goes on with this one's commands. -/
theorem not_continueSafe_other :
    ∃ m, (initMaster 4 (sampleReplid 'a')).propagateAll [⟨ascii "PING", []⟩] = some m ∧
      ¬ ContinueSafe Decimal.natText [⟨ascii "PING", []⟩] m (sampleReplid 'b') 0 := by
  refine ⟨_, rfl, fun h => ?_⟩
  exact absurd (h (by decide +kernel)).1 (by decide)

end ReplicationManager
