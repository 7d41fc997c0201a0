/-
Replies to the commands of a connection: their order and their number.

The commands of one connection wait in the queue of its worker, are away at other workers,
or have been answered: `pipeline`, an instance of `Detours`.

* `replies_pairwise` — the replies are in the order of the commands as long as no command
  overtakes one that is away at another worker;
* `replies_le_one_iff` — a command has at most one reply exactly when its handler sends none
  itself; `SUBSCRIBE` has one reply more than channels.
-/
import AstraDB.Detours
import AstraDB.Worker

open List Worker Function Detours ServerConfig

namespace Worker

variable {V : Type} (connId : UInt64) (worker : Worker)

/-- The number that a response carries, if it is for the connection. -/
def seqFor (r : Response) : Option ℕ := if r.connId = connId then r.seq else none

/-- The replies that the connection has got, or that are in the response queue: the numbers of
the commands that caused them. -/
def replies : List ℕ :=
  (worker.outbox connId).filterMap (·.seq) ++ worker.responses.filterMap (seqFor connId)

/-- The numbers of the commands of the connection, in a queue. -/
def requestsOf (requests : List Request) : List ℕ :=
  (requests.filter (·.connId = connId)).map (·.seq)

def crossResponsesOf (responses : List CrossWorkerResponse) : List ℕ :=
  (responses.filter (·.connId = connId)).map (·.seq)

/-- The commands of the connection in the command queue. -/
def waiting : List ℕ := requestsOf connId worker.commands

/-- The commands of a connection of `source` that wait here. -/
def guests (source : ℕ) : List ℕ := requestsOf connId (worker.forwarded source)

/-- The commands of the connection that `target` has answered. -/
def returned (target : ℕ) : List ℕ := crossResponsesOf connId (worker.crossResponses target)

variable {connId worker}

theorem waiting_receive (connId' : UInt64) (command : Command) :
    (worker.receive connId' command).waiting connId =
      worker.waiting connId ++ if connId' = connId then [worker.received connId] else [] := by
  by_cases h : connId' = connId <;> simp [waiting, requestsOf, receive, h]

theorem received_receive (connId' : UInt64) (command : Command) :
    (worker.receive connId' command).received connId =
      worker.received connId + if connId' = connId then 1 else 0 := by
  by_cases h : connId' = connId
  · simp [receive, h]
  · simp [receive, h, Ne.symm h]

theorem waiting_take {r : Request} {rest : List Request} (h : worker.commands = r :: rest) :
    worker.waiting connId =
      (if r.connId = connId then [r.seq] else []) ++ (worker.take r rest).waiting connId := by
  by_cases hr : r.connId = connId <;> simp [waiting, requestsOf, take, h, hr]

theorem replies_respond (r : Response) :
    (worker.respond r).replies connId = worker.replies connId ++ (seqFor connId r).toList := by
  cases h : seqFor connId r <;> simp [replies, respond, h]

theorem guests_setForwarded {source u : ℕ} {requests : List Request} :
    (worker.setForwarded source requests).guests connId u =
      if u = source then requestsOf connId requests
      else worker.guests connId u := by
  by_cases h : u = source <;> simp [guests, setForwarded, h]

/-- The replies that a handler has sent to the connection itself. -/
def ownReplies (connId : UInt64) (context : WorkerCommandContext V) : ℕ :=
  context.data.sent.countP (·.1 = connId)

theorem filterMap_sent (tag : UInt64 → Option ℕ) (sent : List (UInt64 × Bytes)) :
    (sent.map fun m => (⟨m.1, tag m.1, m.2⟩ : Response)).filterMap (seqFor connId) =
      (tag connId).elim [] (replicate (sent.countP (·.1 = connId))) := by
  induction sent with
  | nil => cases tag connId <;> rfl
  | cons m sent ih =>
    rw [map_cons, filterMap_cons, ih, seqFor]
    by_cases hm : m.1 = connId
    · subst hm
      cases tag m.1 <;> simp [replicate_succ]
    · cases tag connId <;> simp [hm]

theorem replies_putContext (tag : UInt64 → Option ℕ) (context : WorkerCommandContext V) :
    (worker.putContext tag context).replies connId =
      worker.replies connId ++
        (tag connId).elim [] (replicate (ownReplies connId context)) := by
  -- messages carry no number
  rw [replies, putContext, filterMap_append, filterMap_append, filterMap_sent,
    filterMap_sent fun _ => none, Option.elim_none, append_nil, ← append_assoc]
  rfl

theorem replies_deliver : worker.deliver.replies connId = worker.replies connId := by
  cases h : worker.responses with
  | nil => simp only [deliver, h]
  | cons r rest =>
    simp only [deliver, h]
    by_cases hr : r.connId = connId
    · subst hr
      cases hseq : r.seq <;> simp [replies, toOutbox, h, seqFor, hseq]
    · simp [replies, toOutbox, h, seqFor, hr, Ne.symm hr]

theorem replies_deliverOwn : worker.deliverOwn.replies connId = worker.replies connId := by
  cases h : worker.ioResponses with
  | nil => simp only [deliverOwn, h]
  | cons r rest =>
    simp only [deliverOwn, h]
    by_cases hr : r.1 = connId
    · subst hr
      simp [replies, toOutbox]
    · simp [replies, toOutbox, Ne.symm hr]

end Worker

namespace Server

variable {V : Type}

/-- The commands of a connection of a worker: those that wait, those that are away at another
worker, and those that have been answered. -/
def pipeline (s : Server V) (w : ℕ) (connId : UInt64) : Detours ℕ where
  answered := (s.workers w).replies connId
  away u := (s.workers w).returned connId u ++ (s.workers u).guests connId w
  waiting := (s.workers w).waiting connId
  received := (s.workers w).received connId

/-- What a step does to the commands of a connection. -/
def pipelineAct (cfg : ServerConfig V) (w : ℕ) (connId : UInt64) (s : Server V) :
    Label → Detours.Act ℕ
  | .receive w' connId' _ => if w' = w ∧ connId' = connId then .receive else .idle
  | .executeLocal w' =>
    if w' = w then
      match (s.workers w).commands with
      | [] => .idle
      | r :: rest =>
        if r.connId = connId then
          match cfg.processLocal w r.command ((s.modify w (·.take r rest)).context w) with
          | .forward target => .depart target
          | .reply _ _ context => .answer (Worker.ownReplies connId context + 1)
        else .idle
    else .idle
  | .relay w' target =>
    if w' = w then
      match (s.workers w).crossResponses target with
      | [] => .idle
      | r :: _ => if r.connId = connId then .comeBack target else .idle
    else .idle
  | _ => .idle

section Pipeline

variable {cfg : ServerConfig V} {s : Server V} {w w' : ℕ} {connId : UInt64} {f : Worker → Worker}

theorem pipeline_modify_of_ne (hw : w ≠ w')
    (hguests : (f (s.workers w')).guests connId w = (s.workers w').guests connId w) :
    (s.modify w' f).pipeline w connId = s.pipeline w connId := by
  ext1
  · simp [pipeline, hw]
  · funext u
    by_cases hu : u = w'
    · subst hu
      simp [pipeline, hw, hguests]
    · simp [pipeline, hw, hu]
  · simp [pipeline, hw]
  · simp [pipeline, hw]

theorem pipeline_modify_self
    (hguests : (f (s.workers w)).guests connId w = (s.workers w).guests connId w) :
    (s.modify w f).pipeline w connId =
      { answered := (f (s.workers w)).replies connId
        away := fun u => (f (s.workers w)).returned connId u ++ (s.workers u).guests connId w
        waiting := (f (s.workers w)).waiting connId
        received := (f (s.workers w)).received connId } := by
  ext1
  · simp [pipeline]
  · funext u
    by_cases hu : u = w
    · subst hu
      simp [pipeline, hguests]
    · simp [pipeline, hu]
  · simp [pipeline]
  · simp [pipeline]

theorem pipeline_modify_eq
    (hguests : (f (s.workers w')).guests connId w = (s.workers w').guests connId w)
    (hreplies : (f (s.workers w')).replies connId = (s.workers w').replies connId)
    (hreturned : (f (s.workers w')).returned connId = (s.workers w').returned connId)
    (hwaiting : (f (s.workers w')).waiting connId = (s.workers w').waiting connId)
    (hreceived : (f (s.workers w')).received connId = (s.workers w').received connId) :
    (s.modify w' f).pipeline w connId = s.pipeline w connId := by
  by_cases hw : w = w'
  · subst hw
    rw [pipeline_modify_self hguests, hreplies, hreturned, hwaiting, hreceived]
    rfl
  · exact pipeline_modify_of_ne hw hguests

theorem pipeline_receive (connId' : UInt64) (command : Command) :
    (s.modify w' (·.receive connId' command)).pipeline w connId =
      (s.pipeline w connId).act (pipelineAct cfg w connId s (.receive w' connId' command)) := by
  by_cases hw : w = w'
  · subst hw
    rw [pipeline_modify_self rfl, waiting_receive, received_receive, pipelineAct]
    by_cases hc : connId' = connId
    · rw [if_pos hc, if_pos hc, if_pos ⟨rfl, hc⟩]
      rfl
    · rw [if_neg hc, if_neg hc, if_neg fun h => hc h.2, append_nil]
      rfl
  · rw [pipeline_modify_of_ne hw rfl, pipelineAct, if_neg fun h => hw h.1.symm]
    rfl

theorem modify_modify (s : Server V) (w : ℕ) (f g : Worker → Worker) :
    (s.modify w f).modify w g = s.modify w (g ∘ f) := by
  simp [modify]

theorem pipeline_setForwarded (u : ℕ) (requests : List Request) :
    (s.modify u (·.setForwarded w requests)).pipeline w connId =
      { s.pipeline w connId with
        away := update (s.pipeline w connId).away u
          ((s.workers w).returned connId u ++
            requestsOf connId requests) } := by
  -- the rest of the worker stays as it is, be it `w` or another one
  have hsame : ∀ v, ((s.modify u (·.setForwarded w requests)).workers v).replies connId =
      (s.workers v).replies connId ∧
      ((s.modify u (·.setForwarded w requests)).workers v).returned connId =
        (s.workers v).returned connId ∧
      ((s.modify u (·.setForwarded w requests)).workers v).waiting connId =
        (s.workers v).waiting connId ∧
      ((s.modify u (·.setForwarded w requests)).workers v).received connId =
        (s.workers v).received connId := by
    intro v
    rw [workers_modify]
    split
    · next hv =>
      subst hv
      exact ⟨rfl, rfl, rfl, rfl⟩
    · exact ⟨rfl, rfl, rfl, rfl⟩
  obtain ⟨hreplies, hreturned, hwaiting, hreceived⟩ := hsame w
  ext1
  · exact hreplies
  · funext v
    show ((s.modify u (·.setForwarded w requests)).workers w).returned connId v ++
      ((s.modify u (·.setForwarded w requests)).workers v).guests connId w = _
    dsimp only
    rw [hreturned, workers_modify, update_apply]
    split
    · next hv => rw [hv, guests_setForwarded, if_pos rfl]
    · rfl
  · exact hwaiting
  · exact hreceived

theorem pipeline_setForwarded_of_ne {source : ℕ} (hw : w ≠ source) (u : ℕ) (requests : List Request)
    : (s.modify u (·.setForwarded source requests)).pipeline w connId = s.pipeline w connId :=
  pipeline_modify_eq (by rw [guests_setForwarded, if_neg hw]) rfl rfl rfl rfl

theorem pipeline_setCrossResponses (u : ℕ) (responses : List CrossWorkerResponse) :
    (s.modify w (·.setCrossResponses u responses)).pipeline w connId =
      { s.pipeline w connId with
        away := update (s.pipeline w connId).away u
          (crossResponsesOf connId responses ++ (s.workers u).guests connId w) } := by
  rw [pipeline_modify_self rfl]
  ext1
  · rfl
  · funext v
    dsimp only
    by_cases hv : v = u
    · simp [returned, setCrossResponses, hv]
    · simp [pipeline, returned, setCrossResponses, hv]
  · rfl
  · rfl

theorem pipeline_finishLocal_of_ne (hw : w ≠ w') (r : Request)
    (outcome : ServerConfig.LocalOutcome V) :
    (s.finishLocal w' r outcome).pipeline w connId = s.pipeline w connId := by
  cases outcome with
  | forward target => exact pipeline_setForwarded_of_ne hw target _
  | reply response decisions context =>
    show ((s.modify w' (·.putContext (tagOf r) context)).modify w'
      (·.respond ⟨r.connId, some r.seq, response⟩)).pipeline w connId = _
    rw [pipeline_modify_of_ne hw rfl, pipeline_modify_of_ne hw rfl]

theorem pipeline_respond (response : Response) :
    (s.modify w (·.respond response)).pipeline w connId =
      { s.pipeline w connId with
        answered := (s.pipeline w connId).answered ++ (seqFor connId response).toList } := by
  rw [pipeline_modify_self rfl, replies_respond]
  rfl

theorem pipeline_reply (r : Request) (response : Bytes) (decisions : List (Command × Decision))
    (context : WorkerCommandContext V) :
    (s.finishLocal w r (.reply response decisions context)).pipeline w connId =
      { s.pipeline w connId with
        answered := (s.pipeline w connId).answered ++
          if r.connId = connId then replicate (ownReplies connId context + 1) r.seq
          else [] } := by
  show ((s.modify w (·.putContext (tagOf r) context)).modify w
    (·.respond ⟨r.connId, some r.seq, response⟩)).pipeline w connId = _
  rw [modify_modify, pipeline_modify_self rfl]
  ext1
  · show (((s.workers w).putContext (tagOf r) context).respond _).replies connId = _
    rw [replies_respond, replies_putContext, seqFor, tagOf, append_assoc]
    by_cases hr : r.connId = connId
    · rw [if_pos hr, if_pos hr, if_pos hr.symm, replicate_succ']
      rfl
    · rw [if_neg hr, if_neg hr, if_neg (Ne.symm hr)]
      rfl
  · rfl
  · rfl
  · rfl

theorem pipeline_forward (r : Request) (target : ℕ) :
    (s.finishLocal w r (.forward target)).pipeline w connId =
      { s.pipeline w connId with
        away := update (s.pipeline w connId).away target
          ((s.pipeline w connId).away target ++ if r.connId = connId then [r.seq] else []) } := by
  refine (pipeline_setForwarded target ((s.workers target).forwarded w ++ [r])).trans ?_
  have hfilter : requestsOf connId ((s.workers target).forwarded w ++ [r]) =
      (s.workers target).guests connId w ++ if r.connId = connId then [r.seq] else [] := by
    by_cases hr : r.connId = connId <;> simp [guests, requestsOf, hr]
  rw [hfilter, ← append_assoc]
  rfl

theorem pipeline_executeLocal : (s.executeLocal cfg w').pipeline w connId =
      (s.pipeline w connId).act (pipelineAct cfg w connId s (.executeLocal w')) := by
  rw [executeLocal, pipelineAct]
  by_cases hw : w' = w
  · subst hw
    rw [if_pos rfl]
    cases hcommands : (s.workers w').commands with
    | nil => rfl
    | cons r rest =>
      dsimp only
      have htake : (s.modify w' (·.take r rest)).pipeline w' connId =
          { s.pipeline w' connId with waiting := ((s.workers w').take r rest).waiting connId } :=
        pipeline_modify_self rfl
      have hwaiting : (s.pipeline w' connId).waiting =
          (if r.connId = connId then [r.seq] else []) ++
            ((s.workers w').take r rest).waiting connId :=
        waiting_take hcommands
      generalize (s.modify w' (·.take r rest)) = s' at htake ⊢
      generalize cfg.processLocal w' r.command (s'.context w') = outcome
      by_cases hr : r.connId = connId
      · rw [if_pos hr] at hwaiting ⊢
        cases outcome with
        | forward target =>
          rw [pipeline_forward, htake, if_pos hr, act_depart hwaiting]
          rfl
        | reply response decisions context =>
          rw [pipeline_reply, htake, if_pos hr, act_answer hwaiting]
          rfl
      · rw [if_neg hr] at hwaiting ⊢
        rw [nil_append] at hwaiting
        rw [← hwaiting] at htake
        cases outcome with
        | forward target =>
          rw [pipeline_forward, if_neg hr, append_nil, update_eq_self, htake]
          rfl
        | reply response decisions context =>
          rw [pipeline_reply, if_neg hr, append_nil, htake]
          rfl
  · rw [if_neg hw]
    cases hcommands : (s.workers w').commands with
    | nil => rfl
    | cons r rest =>
      dsimp only
      rw [pipeline_finishLocal_of_ne (Ne.symm hw), pipeline_modify_of_ne (Ne.symm hw) rfl]
      rfl

theorem pipeline_executeForwarded (source : ℕ) :
    (s.executeForwarded cfg w' source).pipeline w connId = s.pipeline w connId := by
  rw [executeForwarded]
  cases hforwarded : (s.workers w').forwarded source with
  | nil => rfl
  | cons r rest =>
    dsimp only
    generalize cfg.execute r.command _ = result
    obtain ⟨response, decision, context⟩ := result
    show (((s.modify w' (·.setForwarded source rest)).modify w'
      (·.putContext (fun _ => none) context)).modify source fun worker =>
        worker.setCrossResponses w'
          (worker.crossResponses w' ++ [⟨r.connId, r.seq, response⟩])).pipeline w connId = _
    have hput : ∀ s : Server V,
        (s.modify w' (·.putContext (fun _ => none) context)).pipeline w connId =
          s.pipeline w connId := fun s =>
      pipeline_modify_eq rfl ((replies_putContext _ context).trans (append_nil _))
        rfl rfl rfl
    by_cases hw : w = source
    · subst hw
      -- the command goes from the end of what is away to the front of it, if it is of the connection
      refine (pipeline_setCrossResponses w' _).trans ?_
      have hcross : (((s.modify w' (·.setForwarded w rest)).modify w'
          (·.putContext (fun _ => none) context)).workers w).crossResponses =
          (s.workers w).crossResponses := by
        by_cases hw : w = w' <;> simp [hw, Worker.putContext, Worker.setForwarded]
      have hguests : (((s.modify w' (·.setForwarded w rest)).modify w'
          (·.putContext (fun _ => none) context)).workers w').guests connId w =
          Worker.requestsOf connId rest := by
        simp [Worker.guests, Worker.putContext, Worker.setForwarded]
      have haway : Worker.crossResponsesOf connId ((s.workers w).crossResponses w' ++
          [⟨r.connId, r.seq, response⟩]) ++ Worker.requestsOf connId rest =
          (s.pipeline w connId).away w' := by
        by_cases hr : r.connId = connId <;>
          simp [pipeline, Worker.returned, Worker.guests, Worker.requestsOf,
            Worker.crossResponsesOf, hforwarded, hr]
      rw [hcross, hguests, haway, hput, pipeline_setForwarded]
      dsimp only
      rw [update_idem, update_eq_self]
    · rw [pipeline_modify_of_ne hw rfl, hput, pipeline_setForwarded_of_ne hw]

theorem pipeline_relay (target : ℕ) : (s.relay w' target).pipeline w connId =
      (s.pipeline w connId).act (pipelineAct cfg w connId s (.relay w' target)) := by
  rw [pipelineAct]
  by_cases hw : w' = w
  · subst hw
    rw [relay, if_pos rfl]
    cases hcross : (s.workers w').crossResponses target with
    | nil => rfl
    | cons r rest =>
      dsimp only
      have haway : (s.pipeline w' connId).away target =
          (if r.connId = connId then [r.seq] else []) ++
            (crossResponsesOf connId rest ++ (s.workers target).guests connId w') := by
        by_cases hr : r.connId = connId <;>
          simp [pipeline, returned, crossResponsesOf, hcross, hr]
      have hmodify := modify_modify s w' (·.setCrossResponses target rest)
        (·.respond ⟨r.connId, some r.seq, r.response⟩)
      rw [comp_def] at hmodify
      rw [← hmodify, pipeline_respond, pipeline_setCrossResponses, seqFor]
      split at haway
      · next hr =>
        rw [if_pos hr, if_pos hr, act_comeBack haway]
        rfl
      · next hr =>
        rw [nil_append] at haway
        rw [if_neg hr, if_neg hr, ← haway, update_eq_self]
        simp [Detours.act]
  · rw [if_neg hw, relay]
    cases (s.workers w').crossResponses target with
    | nil => rfl
    | cons r rest => exact pipeline_modify_of_ne (Ne.symm hw) rfl

theorem pipeline_step (label : Label) : (s.step cfg label).pipeline w connId =
      (s.pipeline w connId).act (pipelineAct cfg w connId s label) := by
  cases label with
  | receive w' connId' command => exact pipeline_receive connId' command
  | executeLocal w' => exact pipeline_executeLocal
  | executeForwarded w' source => exact pipeline_executeForwarded source
  | relay w' target => exact pipeline_relay target
  | reject w' connId' response =>
    show (s.modify w' (·.reject connId' response)).pipeline w connId = s.pipeline w connId
    exact pipeline_modify_eq rfl rfl rfl rfl rfl
  | close w' connId' =>
    show (s.modify w' (·.close connId')).pipeline w connId = s.pipeline w connId
    exact pipeline_modify_eq rfl rfl rfl rfl rfl
  | publish w' connId' message =>
    show (s.modify w' (·.respond ⟨connId', none, message⟩)).pipeline w connId = s.pipeline w connId
    refine pipeline_modify_eq rfl ?_ rfl rfl rfl
    rw [replies_respond, seqFor, ite_self]
    exact append_nil _
  | deliver w' =>
    show (s.modify w' (·.deliver)).pipeline w connId = s.pipeline w connId
    refine pipeline_modify_eq ?_ replies_deliver ?_ ?_ ?_ <;> rw [deliver] <;>
      cases (s.workers w').responses <;> rfl
  | deliverOwn w' =>
    show (s.modify w' (·.deliverOwn)).pipeline w connId = s.pipeline w connId
    refine pipeline_modify_eq ?_ replies_deliverOwn ?_ ?_ ?_ <;> rw [deliverOwn] <;>
      cases (s.workers w').ioResponses <;> rfl

end Pipeline

/-! ### Order -/

open Runs

variable (cfg : ServerConfig V) (aclManager : Option AclManager) (w : ℕ) (connId : UInt64)

def replies (s : Server V) : List ℕ := (s.workers w).replies connId

/-- A command of the connection is answered at its own worker only while none is away, and
goes to another worker only while none is away at a third. -/
def KeepsOrder (s : Server V) (label : Label) : Prop :=
  (s.pipeline w connId).Clear (pipelineAct cfg w connId s label)

/-- Then the replies are in the order of the commands. -/
theorem replies_pairwise (labels : List Label)
    (h : Along (step cfg) (KeepsOrder cfg w connId) (init aclManager) labels) :
    ((after (step cfg) (init aclManager) labels).replies w connId).Pairwise (· ≤ ·) := by
  have hinv : ((after (step cfg) (init aclManager) labels).pipeline w connId).InOrder := by
    refine after_invariant (fun s : Server V => (s.pipeline w connId).InOrder)
      (fun s label hclear hs => ?_) h inOrder_init
    rw [pipeline_step]
    exact hs.act hclear
  have hsorted := hinv.sorted 0
  rw [Detours.line, append_assoc] at hsorted
  exact (pairwise_append.mp hsorted).1

/-- A command that is sent away, and one that is answered after it is back. -/
theorem replies_pairwise_exists_ping :
    let labels : List Label := [.receive 0 7 ⟨ascii "EXISTS", [⟨.kBulkString, ascii "a"⟩]⟩,
      .executeLocal 0, .receive 0 7 ⟨ascii "PING", []⟩, .executeForwarded 1 0, .relay 0 1,
      .executeLocal 0, .deliver 0, .deliver 0]
    (after (step (sampleConfig 2)) (init none) labels).replies 0 7 = [0, 1] ∧
      ((after (step (sampleConfig 2)) (init none) labels).replies 0 7).Pairwise (· ≤ ·) := by
  refine ⟨by decide +kernel, replies_pairwise (sampleConfig 2) none 0 7 _
    ⟨trivial, ?_, trivial, trivial, trivial, ?_, trivial, trivial, trivial⟩⟩
  · intro v hv
    rcases v with _ | _ | v
    · rfl
    · exact absurd (by decide +kernel) hv
    · rfl
  · intro v
    rcases v with _ | _ | v <;> rfl

/-- The same commands; the second is answered while the first is away. -/
theorem replies_overtaken :
    let labels : List Label := [.receive 0 7 ⟨ascii "EXISTS", [⟨.kBulkString, ascii "a"⟩]⟩,
      .receive 0 7 ⟨ascii "PING", []⟩, .executeLocal 0, .executeLocal 0, .executeForwarded 1 0,
      .relay 0 1, .deliver 0, .deliver 0]
    (after (step (sampleConfig 2)) (init none) labels).replies 0 7 = [1, 0] ∧
      ¬ ((after (step (sampleConfig 2)) (init none) labels).replies 0 7).Pairwise (· ≤ ·) := by
  decide +kernel

/-! ### Numbers of replies -/

/-- When command `n` of the connection is executed at its own worker, its handler sends no reply
to the connection itself. -/
def SendsNoReply (n : ℕ) (s : Server V) (label : Label) : Prop :=
  ∀ copies, pipelineAct cfg w connId s label = .answer copies →
    (s.pipeline w connId).waiting.head? = some n → copies ≤ 1

variable {cfg w connId}

theorem placed_step {n : ℕ} {s : Server V} (h : (s.pipeline w connId).Placed n) (label : Label) :
    ((s.step cfg label).pipeline w connId).Placed n := by
  rw [pipeline_step]
  exact h.act _

theorem placed_after (cfg : ServerConfig V) (aclManager : Option AclManager) (w : ℕ)
    (connId : UInt64) (n : ℕ) (labels : List Label) :
    ((after (step cfg) (init aclManager) labels).pipeline w connId).Placed n :=
  after_invariant (fun s : Server V => (s.pipeline w connId).Placed n)
    (fun _ label _ hs => placed_step hs label) (along_true _ labels) (placed_init n)

theorem count_replies_step_iff {n : ℕ} {s : Server V} (h : (s.pipeline w connId).Placed n)
    (hle : (s.replies w connId).count n ≤ 1) (label : Label) :
    ((s.step cfg label).replies w connId).count n ≤ 1 ↔ SendsNoReply cfg w connId n s label := by
  have hreplies : (s.step cfg label).replies w connId =
      ((s.pipeline w connId).act (pipelineAct cfg w connId s label)).answered := by
    rw [← pipeline_step]
    rfl
  rw [hreplies]
  constructor
  · intro hcount copies hact hhead
    obtain ⟨rest, hwaiting⟩ := List.head?_eq_some_iff.mp hhead
    have hdone := (h.done_answer hwaiting copies).answered
    rw [hact, hdone] at hcount
    exact hcount
  · intro hsends
    exact h.count_answered_le hsends hle

/-! ### `SUBSCRIBE` -/

theorem ownReplies_subscribe (channels : List Bytes) (s : WorkerCommandContext V) :
    ownReplies s.data.connectionId (channels.foldl subscribeOne s) =
      ownReplies s.data.connectionId s + channels.length := by
  induction channels generalizing s with
  | nil => rfl
  | cons channel channels ih =>
    have hone : ownReplies s.data.connectionId (subscribeOne s channel) =
        ownReplies s.data.connectionId s + 1 := by
      simp [ownReplies, subscribeOne]
    refine (ih (subscribeOne s channel)).trans ?_
    rw [length_cons, Nat.add_comm channels.length, ← Nat.add_assoc, ← hone]
    rfl

/-- The executor of `w` is about to execute a `SUBSCRIBE` to `channels` channels, which is
command `n` of the connection. -/
structure Subscribes (cfg : ServerConfig V) (w : ℕ) (connId : UInt64) (n channels : ℕ)
    (s : Server V) (r : Request) (rest : List Request) : Prop where
  commands : (s.workers w).commands = r :: rest
  connId_eq : r.connId = connId
  seq_eq : r.seq = n
  name : asciiStrToUpper r.command.name = ascii "SUBSCRIBE"
  args : r.command.args ≠ []
  channels_eq : (r.command.args.filter (·.isBulkString)).length = channels
  notQueued : ((s.workers w).transactions connId).inTransaction = false
  notForwarded : cfg.targetWorker w r.command = w
  notRedirected :
    (cfg.cluster.enabled && (DataShard.redirection cfg.cluster r.command).isSome) = false
  accepted : ∃ info, cfg.registry.accept (s.context w).toCommandContext r.command =
    .ok ⟨info, handleSubscribe⟩

theorem Subscribes.pipelineAct_eq {n channels : ℕ} {s : Server V} {r : Request}
    {rest : List Request} (h : Subscribes cfg w connId n channels s r rest) :
    pipelineAct cfg w connId s (.executeLocal w) = .answer (channels + 1) := by
  obtain ⟨info, haccept⟩ := h.accepted
  have hconn := h.connId_eq
  subst hconn
  have hwatch : isCommandName r.command.name (ascii "WATCH") = false := by
    rw [isCommandName, h.name]
    decide
  rw [pipelineAct, if_pos rfl, h.commands]
  dsimp only
  rw [if_pos rfl, context_take]
  generalize hcontext : ({ s.context w with
    data := { (s.context w).data with connectionId := r.connId } } : WorkerCommandContext V) = context
  have htransaction : context.transaction.inTransaction = false := by
    rw [← hcontext]
    exact h.notQueued
  have haccept' : cfg.registry.accept context.toCommandContext r.command =
      .ok ⟨info, handleSubscribe⟩ := by
    rw [← hcontext]
    exact haccept
  have hcall : CommandRegistry.callHandler handleSubscribe r.command context =
      ({}, ((r.command.args.filter (·.isBulkString)).map (·.value)).foldl subscribeOne context) := by
    rw [CommandRegistry.callHandler, handleSubscribe, if_neg h.args]
  have hown : ownReplies r.connId
      (((r.command.args.filter (·.isBulkString)).map (·.value)).foldl subscribeOne context) =
        channels := by
    have hsubscribe := ownReplies_subscribe
      ((r.command.args.filter (·.isBulkString)).map (·.value)) context
    rw [← hcontext] at hsubscribe ⊢
    rw [length_map, h.channels_eq] at hsubscribe
    exact hsubscribe.trans (Nat.zero_add channels)
  -- a command outside of a transaction
  simp only [processLocal, htransaction, hwatch, Bool.false_and, Bool.and_false,
    Bool.false_eq_true, if_false]
  rw [if_pos h.notForwarded, execute_of_accept h.notRedirected haccept', hcall]
  exact congrArg (fun k => Detours.Act.answer (k + 1)) hown

end Server
