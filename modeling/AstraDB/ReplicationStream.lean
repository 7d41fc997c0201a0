/-
The command stream from a master to a replica.

The master sends each command as a RESP array (`CommandToResp`).  The replica collects what it
receives in a buffer, cuts commands off its front (`FindRespCommandEnd`) and hands each to the
parser (`ProcessReplicationCommand`).  Acknowledgements are recorded by their offsets.

* `decodes_iff` — the callback is called for the commands that were sent, however the stream is
  cut into pieces, if no command was sent: what is cut off ends at the first CR LF, which is
  behind the number of the array's elements.
-/
import AstraDB.Framing
import AstraDB.RespStable

open Parser CRLF RespParser List

namespace Replication

def bulk (str : Bytes) : Bytes :=
  ascii "$" ++ Decimal.natText str.length ++ [cr, lf] ++ str ++ [cr, lf]

/-- `CommandToResp`; the number of elements is an `int`. -/
def commandToResp (cmd : Command) : Bytes :=
  ascii "*" ++ Decimal.text (Int32.ofNat (cmd.args.length + 1)).toInt ++ [cr, lf] ++
    bulk cmd.name ++ cmd.args.flatMap fun arg => bulk arg.value

def findRespCommandEnd (buffer : Bytes) : Option ℕ :=
  match firstCRLF buffer with
  | some pos => if buffer.head? = some '*'.toUInt8 then some (pos + 2) else some (pos + 2)
  | none => none

/-- What the loop of `ReceiveReplicationData` cuts off as `cmd_data`. -/
def nextCommand : Parser UInt8 Bytes := fun buffer =>
  match findRespCommandEnd buffer with
  | none => (none, buffer)
  | some cmdEnd => (some (buffer.take cmdEnd), buffer.drop cmdEnd)

structure Replica where
  recvBuffer : Bytes
  replOffset : ℕ
  /-- the offsets that were sent to the master -/
  acks : List ℕ
  /-- the calls of `command_callback_` -/
  calls : List Command

namespace Replica

def init : Replica := ⟨[], 0, [], []⟩

variable (env : ParserEnv)

def processReplicationCommand (r : Replica) (cmdData : Bytes) : Replica :=
  let replOffset := r.replOffset + 1
  { r with
    replOffset := replOffset
    acks := if replOffset % 100 = 0 then r.acks ++ [replOffset] else r.acks
    calls := r.calls ++ ((parse env cmdData).1.bind parseCommand).toList }

def receive (r : Replica) (chunk : Bytes) : Replica :=
  let (commands, rest) := drain nextCommand (r.recvBuffer ++ chunk)
  { commands.foldl (processReplicationCommand env) r with recvBuffer := rest }

/-- `ReceiveReplicationData`, for the pieces that come before the connection ends. -/
def receiveReplicationData (chunks : List Bytes) : Replica := chunks.foldl (receive env) init

theorem nextCommand_eq_some {buffer cmdData rest : Bytes}
    (h : nextCommand buffer = (some cmdData, rest)) :
    ∃ line, (∀ i, ¬ CRLFAt line i) ∧ cmdData = line ++ [cr, lf] ∧ buffer = cmdData ++ rest := by
  unfold nextCommand findRespCommandEnd at h
  simp only [ite_self] at h
  cases hfirst : firstCRLF buffer with
  | none =>
    rw [hfirst] at h
    cases h
  | some pos =>
    rw [hfirst] at h
    cases h
    have huntil : untilCRLF buffer = (some (buffer.take pos), buffer.drop (pos + 2)) := by
      rw [untilCRLF, hfirst]
    obtain ⟨hline, hbuffer⟩ := untilCRLF_eq_some.mp huntil
    refine ⟨buffer.take pos, hline, ?_, (take_append_drop _ _).symm⟩
    refine append_cancel_right
      (show _ ++ buffer.drop (pos + 2) = _ ++ buffer.drop (pos + 2) from ?_)
    rw [take_append_drop, append_assoc]
    exact hbuffer

theorem takes_nextCommand : Takes 1 nextCommand := by
  intro buffer cmdData rest h
  obtain ⟨line, -, rfl, hbuffer⟩ := nextCommand_eq_some h
  refine ⟨line ++ [cr, lf], hbuffer, ?_⟩
  rw [length_append]
  exact Nat.le_add_left_of_le (by decide)

variable {env}

section

variable (henv : env.FindsCRLF)
include henv

/-- An array that ends with its first line has no elements. -/
theorem parseArray_line {line : Bytes} (hline : ∀ i, ¬ CRLFAt line i) {value : RespValue}
    {rest : Bytes} (h : parseArray env (parse env) (line ++ [cr, lf]) = (some value, rest)) :
    value.arraySize = 0 := by
  rw [parseArray, bind_of_some (readUntilCRLF_line henv hline [])] at h
  obtain ⟨count, rest, hcount, h⟩ := bind_eq_some.mp h
  obtain ⟨-, rfl⟩ := ofOption_eq_some.mp hcount
  split at h
  · cases h
    rfl
  · split at h
    · cases h
    · obtain ⟨s, rest, hs, h⟩ := bind_eq_some.mp h
      cases h
      -- an element would have to be read from nothing
      rw [parseElements, loop_eq (takes_element (takes_parse env))] at hs
      split at hs
      · obtain ⟨s', rest', helement, -⟩ := bind_eq_some.mp hs
        have hlength := (takes_element (takes_parse env) _).length_le helement
        rw [length_nil] at hlength
        omega
      · cases hs
        rfl

theorem arraySize_of_line {type : UInt8} {line rest : Bytes}
    (hline : ∀ i, ¬ CRLFAt line i) {value : RespValue}
    (h : parseTyped env (parse env) type (line ++ [cr, lf]) = (some value, rest)) :
    value.arraySize = 0 := by
  unfold parseTyped at h
  split at h
  · obtain ⟨_, _, -, h⟩ := bind_eq_some.mp h
    cases h
    rfl
  split at h
  · obtain ⟨_, _, -, h⟩ := bind_eq_some.mp h
    cases h
    rfl
  split at h
  · obtain ⟨_, _, -, h⟩ := bind_eq_some.mp h
    obtain ⟨_, _, -, h⟩ := bind_eq_some.mp h
    cases h
    rfl
  split at h
  · obtain ⟨_, _, -, h⟩ := bind_eq_some.mp h
    obtain ⟨len, _, -, h⟩ := bind_eq_some.mp h
    split at h
    · cases h
      rfl
    · split at h
      · cases h
      · obtain ⟨_, _, -, h⟩ := bind_eq_some.mp h
        cases h
        rfl
  split at h
  · exact parseArray_line henv hline h
  split at h
  · obtain ⟨_, _, -, h⟩ := bind_eq_some.mp h
    split at h
    · cases h
    · cases h
      rfl
  split at h
  · obtain ⟨_, _, -, h⟩ := bind_eq_some.mp h
    split at h
    · cases h
      rfl
    · split at h
      · cases h
        rfl
      · cases h
  split at h
  · obtain ⟨_, _, -, h⟩ := bind_eq_some.mp h
    obtain ⟨_, _, -, h⟩ := bind_eq_some.mp h
    cases h
    rfl
  · cases h

theorem parseCommand_line {line : Bytes} (hline : ∀ i, ¬ CRLFAt line i) :
    (parse env (line ++ [cr, lf])).1.bind parseCommand = none := by
  cases line with
  | nil =>
    rw [nil_append, parse_cons]
    rfl
  | cons type line =>
    rw [cons_append, parse_cons]
    rcases hvalue : parseTyped env (parse env) type (line ++ [cr, lf]) with ⟨_ | value, rest⟩
    · rfl
    · have hline' : ∀ i, ¬ CRLFAt line i := fun i hi =>
        hline (i + 1) ((crlfAt_cons_succ type line i).mpr hi)
      show parseCommand value = none
      rw [parseCommand, arraySize_of_line henv hline' hvalue]
      simp

theorem calls_receive (r : Replica) (chunk : Bytes) : (receive env r chunk).calls = r.calls := by
  have hfold : ∀ (commands : List Bytes) (r : Replica),
      (∀ cmdData ∈ commands, (parse env cmdData).1.bind parseCommand = none) →
        (commands.foldl (processReplicationCommand env) r).calls = r.calls := by
    intro commands
    induction commands with
    | nil =>
      intro r _
      rfl
    | cons cmdData commands ih =>
      intro r hnone
      rw [foldl_cons, ih _ fun data hmem => hnone data (mem_cons_of_mem _ hmem)]
      show r.calls ++ ((parse env cmdData).1.bind parseCommand).toList = r.calls
      rw [hnone cmdData mem_cons_self, Option.toList_none, append_nil]
  refine hfold _ r fun cmdData hmem => ?_
  obtain ⟨buffer, rest, hnext⟩ := of_mem_drain takes_nextCommand hmem
  obtain ⟨line, hline, rfl, -⟩ := nextCommand_eq_some hnext
  exact parseCommand_line henv hline

theorem calls_receiveReplicationData (chunks : List Bytes) :
    (receiveReplicationData env chunks).calls = [] := by
  have hfold : ∀ r : Replica, (chunks.foldl (receive env) r).calls = r.calls := by
    induction chunks with
    | nil =>
      intro r
      rfl
    | cons chunk chunks ih =>
      intro r
      rw [foldl_cons, ih, calls_receive henv]
  exact hfold init

end

/-- **Decoding of the replication stream.** -/
theorem decodes_iff (henv : env.FindsCRLF) (commands : List Command) (chunks : List Bytes) :
    chunks.flatten = commands.flatMap commandToResp →
      ((receiveReplicationData env chunks).calls = commands ↔ commands = []) := by
  intro _
  rw [calls_receiveReplicationData henv]
  exact eq_comm

def sampleSet : Command :=
  ⟨ascii "SET", [.ofString (ascii "k") .kBulkString, .ofString (ascii "v") .kBulkString]⟩

def sampleChunks : List Bytes :=
  [(commandToResp sampleSet).take 9, (commandToResp sampleSet).drop 9]

theorem flatten_sampleChunks : sampleChunks.flatten = [sampleSet].flatMap commandToResp := by
  rw [sampleChunks, flatten_cons, flatten_singleton, take_append_drop,
    flatMap_singleton]

theorem decodes_iff_sampleSet :
    (receiveReplicationData simpleEnv sampleChunks).calls = [sampleSet] ↔ [sampleSet] = [] :=
  decodes_iff simpleEnv_findsCRLF [sampleSet] sampleChunks flatten_sampleChunks

theorem not_decodes_sampleSet :
    sampleChunks.flatten = [sampleSet].flatMap commandToResp ∧
      (receiveReplicationData simpleEnv sampleChunks).calls ≠ [sampleSet] := by
  refine ⟨flatten_sampleChunks, ?_⟩
  rw [calls_receiveReplicationData simpleEnv_findsCRLF]
  exact (cons_ne_nil _ _).symm

end Replica

end Replication
