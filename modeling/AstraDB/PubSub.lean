/-
Channels: `SUBSCRIBE`, `PSUBSCRIBE` and `PUBLISH`.

Every worker keeps the subscriptions of its own clients.  `PUBLISH` puts a reply for each of them
into the response queue of its worker, and a copy of the message into the queues of the other
workers, which do the same when they come to it.  Only a worker that has answered a command looks
at its response queue.  A client that is gone leaves its subscriptions behind.

* `publish_iff` — when all replies are sent, and counted.
-/
import AstraDB.Patterns
import AstraDB.WorkerContext
import Mathlib.Algebra.BigOperators.Group.Finset.Basic
import Mathlib.Data.Fintype.Fin
import Mathlib.Data.List.AList

open Patterns List

namespace PubSub

/-- A set of connections, in some order. -/
structure ConnSet where
  members : List UInt64
  nodup : members.Nodup

variable (connId : UInt64)

def ConnSet.insert (set : ConnSet) : ConnSet :=
  ⟨set.members.insert connId, set.nodup.insert⟩

/-- The subscribers by channel, or by pattern. -/
abbrev SubscriberMap := AList fun _ : Bytes => ConnSet

structure PubSubMessage where
  channel : Bytes
  message : Bytes

structure PubSubWorker where
  channelSubscribers : SubscriberMap := ∅
  patternSubscribers : SubscriberMap := ∅
  /-- `conn_channels_` and `conn_patterns_` -/
  subscriptions : Subscriptions := {}
  /-- the clients that are connected -/
  connections : Finset UInt64 := ∅
  respQueue : List (UInt64 × Bytes) := []
  pubsubMsgQueue : List PubSubMessage := []
  responseQueueScheduled : Bool := false
  /-- what was sent to the clients -/
  delivered : List (UInt64 × Bytes) := []

def bulkText (s : Bytes) : Bytes :=
  ascii "$" ++ Decimal.text s.length ++ RespBuilder.crlf ++ s ++ RespBuilder.crlf

def messageReply (msg : PubSubMessage) : Bytes :=
  ascii "*3\r\n$7\r\nmessage\r\n" ++ bulkText msg.channel ++ bulkText msg.message

def pmessageReply (pattern : Bytes) (msg : PubSubMessage) : Bytes :=
  ascii "*4\r\n$8\r\npmessage\r\n" ++ bulkText pattern ++ bulkText msg.channel ++
    bulkText msg.message

/-- The replies to the subscribers of the channel, and to those of each pattern. -/
def localReplies (msg : PubSubMessage) (worker : PubSubWorker) : List (UInt64 × Bytes) :=
  (worker.channelSubscribers.lookup msg.channel).elim [] (fun set =>
      set.members.map fun connId => (connId, messageReply msg)) ++
    worker.patternSubscribers.entries.flatMap fun e =>
      if patternMatches e.1 msg.channel then
        e.2.members.map fun connId => (connId, pmessageReply e.1 msg)
      else []

variable (worker : PubSubWorker)

def processPubSubMessage (msg : PubSubMessage) : PubSubWorker :=
  { worker with respQueue := worker.respQueue ++ localReplies msg worker }

def processPubSubMessages : PubSubWorker :=
  { worker.pubsubMsgQueue.foldl processPubSubMessage worker with pubsubMsgQueue := [] }

/-- `ProcessResponseQueue`; replies to clients that are gone are dropped. -/
def processResponseQueue : PubSubWorker :=
  { worker with
    delivered := worker.delivered ++ worker.respQueue.filter fun r => r.1 ∈ worker.connections
    respQueue := []
    responseQueueScheduled := false }

/-- A round of the executor's loop with nothing to execute, and the callback that may have been
scheduled. -/
def settle : PubSubWorker :=
  let worker := processPubSubMessages worker
  if worker.responseQueueScheduled then processResponseQueue worker else worker

def notifyResponseQueue : PubSubWorker :=
  { worker with responseQueueScheduled := true }

def connect : PubSubWorker :=
  { worker with connections := insert connId worker.connections }

def close : PubSubWorker :=
  { worker with connections := worker.connections.erase connId }

def subscribeTo (name : Bytes) (map : SubscriberMap) : SubscriberMap :=
  map.insert name (((map.lookup name).getD ⟨[], nodup_nil⟩).insert connId)

/-- One round of the loop of `Subscribe`. -/
def subscribe (channel : Bytes) (worker : PubSubWorker) : PubSubWorker :=
  let channels := (worker.subscriptions.channels connId).insert channel
  { worker with
    channelSubscribers := subscribeTo connId channel worker.channelSubscribers
    subscriptions := { worker.subscriptions with
      channels := Function.update worker.subscriptions.channels connId channels }
    respQueue := worker.respQueue ++ [(connId, subscribeReply channel
      (channels.length + (worker.subscriptions.patterns connId).length))] }

/-- One round of the loop of `PSubscribe`. -/
def pSubscribe (pattern : Bytes) (worker : PubSubWorker) : PubSubWorker :=
  let patterns := (worker.subscriptions.patterns connId).insert pattern
  { worker with
    patternSubscribers := subscribeTo connId pattern worker.patternSubscribers
    subscriptions := { worker.subscriptions with
      patterns := Function.update worker.subscriptions.patterns connId patterns }
    respQueue := worker.respQueue ++ [(connId, subscribeReply pattern
      ((worker.subscriptions.channels connId).length + patterns.length))] }

variable {n : ℕ}

/-- `Publish` on the worker `w`: the number that is returned, and the workers afterwards. -/
def publish (w : Fin n) (msg : PubSubMessage) (workers : Fin n → PubSubWorker) :
    ℕ × (Fin n → PubSubWorker) :=
  ((localReplies msg (workers w)).length, fun u =>
    if u = w then processPubSubMessage (workers u) msg
    else { workers u with pubsubMsgQueue := (workers u).pubsubMsgQueue ++ [msg] })

/-- `PUBLISH`, which is answered; the answer itself is left out. -/
def handlePublish (w : Fin n) (msg : PubSubMessage) (workers : Fin n → PubSubWorker) :
    ℕ × (Fin n → PubSubWorker) :=
  let (subscribers, workers) := publish w msg workers
  (subscribers, Function.update workers w (notifyResponseQueue (workers w)))

/-- One reply if the client has subscribed to the channel, and one for each of its patterns that
accepts the channel. -/
def due (msg : PubSubMessage) (worker : PubSubWorker) (connId : UInt64) : List Bytes :=
  (if connId ∈ ((worker.channelSubscribers.lookup msg.channel).elim [] ConnSet.members) then
      [messageReply msg] else []) ++
    (worker.patternSubscribers.entries.filter fun e =>
      patternMatches e.1 msg.channel && decide (connId ∈ e.2.members)).map fun e =>
        pmessageReply e.1 msg

def repliesTo (replies : List (UInt64 × Bytes)) : List Bytes :=
  (replies.filter fun r => r.1 = connId).map Prod.snd

theorem repliesTo_append (replies replies' : List (UInt64 × Bytes)) :
    repliesTo connId (replies ++ replies') =
      repliesTo connId replies ++ repliesTo connId replies' := by
  rw [repliesTo, filter_append, map_append, repliesTo, repliesTo]

theorem repliesTo_set (set : ConnSet) (reply : Bytes) :
    repliesTo connId (set.members.map fun c => (c, reply)) =
      if connId ∈ set.members then [reply] else [] := by
  rw [repliesTo, filter_map, map_map]
  have hfilter : set.members.filter ((fun r : UInt64 × Bytes => decide (r.1 = connId)) ∘
      fun c => (c, reply)) = replicate (set.members.count connId) connId :=
    filter_eq connId
  rw [hfilter, map_replicate]
  split
  · next hmem =>
    rw [count_eq_one_of_mem set.nodup hmem]
    rfl
  · next hmem =>
    rw [count_eq_zero_of_not_mem hmem]
    rfl

theorem repliesTo_patterns (msg : PubSubMessage) (entries : List (Sigma fun _ : Bytes => ConnSet)) :
    repliesTo connId (entries.flatMap fun e =>
        if patternMatches e.1 msg.channel then
          e.2.members.map fun c => (c, pmessageReply e.1 msg) else []) =
      (entries.filter fun e =>
        patternMatches e.1 msg.channel && decide (connId ∈ e.2.members)).map fun e =>
          pmessageReply e.1 msg := by
  induction entries with
  | nil => rfl
  | cons e entries ih =>
    rw [flatMap_cons, repliesTo_append, ih, filter_cons]
    cases patternMatches e.1 msg.channel with
    | false => rfl
    | true =>
      rw [if_pos rfl, repliesTo_set, Bool.true_and]
      split
      · next hmem =>
        rw [if_pos (decide_eq_true hmem), map_cons, singleton_append]
      · next hmem =>
        rw [if_neg (ne_true_of_eq_false (decide_eq_false hmem)), nil_append]

theorem replies_eq_due (msg : PubSubMessage) (worker : PubSubWorker) (connId : UInt64) :
    repliesTo connId (localReplies msg worker) = due msg worker connId := by
  rw [localReplies, repliesTo_append, repliesTo_patterns, due]
  cases worker.channelSubscribers.lookup msg.channel with
  | none => rfl
  | some set => exact congrArg (· ++ _) (repliesTo_set connId set (messageReply msg))

/-- No message and no reply is on its way. -/
structure Idle (worker : PubSubWorker) : Prop where
  respQueue : worker.respQueue = []
  pubsubMsgQueue : worker.pubsubMsgQueue = []
  unscheduled : worker.responseQueueScheduled = false

/-- What is sent to the clients of a worker after `PUBLISH` on the worker `w`. -/
def sent (w : Fin n) (msg : PubSubMessage) (workers : Fin n → PubSubWorker) (u : Fin n) :
    List (UInt64 × Bytes) :=
  (settle ((handlePublish w msg workers).2 u)).delivered.drop (workers u).delivered.length

theorem sent_eq {w : Fin n} {workers : Fin n → PubSubWorker} (hidle : ∀ u, Idle (workers u))
    (msg : PubSubMessage) (u : Fin n) :
    sent w msg workers u =
      if u = w then (localReplies msg (workers u)).filter fun r => r.1 ∈ (workers u).connections
      else [] := by
  obtain ⟨hresp, hmsg, hunscheduled⟩ := hidle u
  by_cases hu : u = w
  · subst hu
    have hsettle : settle ((handlePublish u msg workers).2 u) =
        processResponseQueue (notifyResponseQueue (processPubSubMessage (workers u) msg)) := by
      simp only [handlePublish, publish, Function.update_self, if_pos]
      rw [settle, processPubSubMessages, notifyResponseQueue, processPubSubMessage]
      dsimp only
      rw [hmsg]
      rfl
    rw [sent, hsettle, if_pos rfl, processResponseQueue, notifyResponseQueue, processPubSubMessage]
    dsimp only
    rw [hresp, nil_append, drop_left]
  · have hpublish : (handlePublish w msg workers).2 u =
        { workers u with pubsubMsgQueue := [msg] } := by
      simp only [handlePublish, publish, Function.update_of_ne hu, if_neg hu]
      rw [hmsg, nil_append]
    have hsettle : settle ((handlePublish w msg workers).2 u) =
        { processPubSubMessage (workers u) msg with pubsubMsgQueue := [] } := by
      rw [hpublish]
      exact if_neg (ne_true_of_eq_false hunscheduled)
    rw [sent, hsettle, if_neg hu]
    exact drop_length

/-- Every client that is connected gets what it should, once, and all of this is counted. -/
structure Complete (w : Fin n) (msg : PubSubMessage) (workers : Fin n → PubSubWorker) : Prop where
  replies : ∀ u, ∀ connId ∈ (workers u).connections,
    repliesTo connId (sent w msg workers u) = due msg (workers u) connId
  count : (handlePublish w msg workers).1 =
    ∑ u, ∑ connId ∈ (workers u).connections, (due msg (workers u) connId).length

/-- There is nobody to be told on the other workers, and all who are told are connected. -/
structure Reached (w : Fin n) (msg : PubSubMessage) (workers : Fin n → PubSubWorker) : Prop where
  others : ∀ u, u ≠ w → ∀ connId ∈ (workers u).connections, due msg (workers u) connId = []
  own : ∀ connId, due msg (workers w) connId ≠ [] → connId ∈ (workers w).connections

theorem sum_length_repliesTo (connections : Finset UInt64) (replies : List (UInt64 × Bytes)) :
    ∑ connId ∈ connections, (repliesTo connId replies).length =
      (replies.filter fun r => r.1 ∈ connections).length := by
  induction replies with
  | nil => exact Finset.sum_const_zero
  | cons r replies ih =>
    have hcons : ∀ connId, (repliesTo connId (r :: replies)).length =
        (if r.1 = connId then 1 else 0) + (repliesTo connId replies).length := by
      intro connId
      rw [repliesTo, filter_cons]
      by_cases h : r.1 = connId
      · rw [if_pos (decide_eq_true h), if_pos h, map_cons, length_cons, repliesTo,
          Nat.add_comm]
      · rw [if_neg (ne_true_of_eq_false (decide_eq_false h)), if_neg h, repliesTo, Nat.zero_add]
    rw [Finset.sum_congr rfl fun connId _ => hcons connId, Finset.sum_add_distrib, ih,
      Finset.sum_ite_eq, filter_cons]
    split
    · next h =>
      rw [if_pos (decide_eq_true h), length_cons, Nat.add_comm]
    · next h =>
      rw [if_neg (ne_true_of_eq_false (decide_eq_false h)), Nat.zero_add]

theorem repliesTo_sent {w : Fin n} {workers : Fin n → PubSubWorker} (hidle : ∀ u, Idle (workers u))
    (msg : PubSubMessage) {u : Fin n} {connId : UInt64} (h : connId ∈ (workers u).connections) :
    repliesTo connId (sent w msg workers u) = if u = w then due msg (workers u) connId else [] := by
  rw [sent_eq hidle]
  split
  · rw [← replies_eq_due, repliesTo, filter_filter, repliesTo]
    refine congrArg _ (filter_congr fun r _ => ?_)
    by_cases hr : r.1 = connId
    · rw [decide_eq_true hr, decide_eq_true (hr ▸ h), Bool.true_and]
    · rw [decide_eq_false hr, Bool.false_and]
  · rfl

theorem due_ne_nil_iff {msg : PubSubMessage} {worker : PubSubWorker} {connId : UInt64} :
    due msg worker connId ≠ [] ↔ ∃ r ∈ localReplies msg worker, r.1 = connId := by
  rw [← replies_eq_due, repliesTo, ne_eq, map_eq_nil_iff, filter_eq_nil_iff]
  simp only [decide_eq_true_eq, not_forall, not_not, exists_prop]

theorem own_iff {msg : PubSubMessage} {worker : PubSubWorker} :
    (∀ connId, due msg worker connId ≠ [] → connId ∈ worker.connections) ↔
      (localReplies msg worker).length =
        ∑ connId ∈ worker.connections, (due msg worker connId).length := by
  simp only [due_ne_nil_iff]
  simp only [← replies_eq_due, sum_length_repliesTo]
  rw [eq_comm, length_filter_eq_length_iff]
  simp only [decide_eq_true_eq]
  constructor
  · intro h r hr
    exact h r.1 ⟨r, hr, rfl⟩
  · rintro h connId ⟨r, hr, rfl⟩
    exact h r hr

/-- When a message reaches everybody and the number that is returned is right. -/
theorem publish_iff {w : Fin n} {workers : Fin n → PubSubWorker} (hidle : ∀ u, Idle (workers u))
    (msg : PubSubMessage) : Complete w msg workers ↔ Reached w msg workers := by
  -- the other workers have nothing to add to the sum
  have hsum : (∀ u, u ≠ w → ∀ connId ∈ (workers u).connections, due msg (workers u) connId = []) →
      ∑ u, ∑ connId ∈ (workers u).connections, (due msg (workers u) connId).length =
        ∑ connId ∈ (workers w).connections, (due msg (workers w) connId).length := by
    intro hothers
    refine Finset.sum_eq_single w (fun u _ hu => ?_) fun hw => absurd (Finset.mem_univ w) hw
    exact Finset.sum_eq_zero fun connId hconn => by rw [hothers u hu connId hconn, length_nil]
  constructor
  · rintro ⟨hreplies, hcount⟩
    have hothers : ∀ u, u ≠ w → ∀ connId ∈ (workers u).connections,
        due msg (workers u) connId = [] := by
      intro u hu connId hconn
      rw [← hreplies u connId hconn, repliesTo_sent hidle msg hconn, if_neg hu]
    exact ⟨hothers, own_iff.mpr (hcount.trans (hsum hothers))⟩
  · rintro ⟨hothers, hown⟩
    refine ⟨fun u connId hconn => ?_, (own_iff.mp hown).trans (hsum hothers).symm⟩
    rw [repliesTo_sent hidle msg hconn]
    split
    · rfl
    · next hu => exact (hothers u hu connId hconn).symm

def news : PubSubMessage := ⟨ascii "news", ascii "m"⟩

/-- A client of the worker 1 has subscribed. -/
def remote : Fin 2 → PubSubWorker :=
  ![{}, settle (notifyResponseQueue (subscribe 7 (ascii "news") (connect 7 {})))]

/-- A client of the worker 0 has subscribed to a pattern, and is gone. -/
def gone : Fin 2 → PubSubWorker :=
  ![close 7 (settle (notifyResponseQueue (pSubscribe 7 (ascii "n*") (connect 7 {})))), {}]

theorem idle_remote : ∀ u, Idle (remote u) := by
  intro u
  fin_cases u
  · exact ⟨rfl, rfl, rfl⟩
  · exact ⟨rfl, rfl, rfl⟩

theorem publish_iff_remote : Complete 1 news remote ↔ Reached 1 news remote :=
  publish_iff idle_remote news

/-- The client on the other worker gets nothing, and the one that is gone is counted. -/
theorem publish_fails :
    (repliesTo 7 (sent 0 news remote 1) = [] ∧ due news (remote 1) 7 = [messageReply news] ∧
        (handlePublish 0 news remote).1 = 0) ∧
      (handlePublish 0 news gone).1 = 1 ∧ (gone 0).connections = ∅ ∧ (gone 1).connections = ∅ := by
  refine ⟨⟨?_, rfl, rfl⟩, rfl, rfl, rfl⟩
  rw [sent_eq idle_remote, if_neg (by decide)]
  rfl

end PubSub
