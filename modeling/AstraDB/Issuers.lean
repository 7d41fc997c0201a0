/-
On whose behalf a handler is called.

The context of a worker names the connection whose command its executor has taken last.  It is
set for the commands of the worker's own clients, and not for those that other workers have
forwarded.

* `along_onBehalf_iff` — the handlers see the connection that has sent the command exactly as long
  as none of them is called for a command that was forwarded.
-/
import AstraDB.Worker

namespace Server

open Runs

variable {V : Type} (cfg : ServerConfig V)

/-- The connection that has sent the command for which the executor calls a handler, and the one
that the handler sees, with their workers: a command of a client. -/
def localCallers (s : Server V) (w : ℕ) : Option ((ℕ × UInt64) × ℕ × UInt64) :=
  match (s.workers w).commands with
  | [] => none
  | r :: rest =>
    some ((w, r.connId), w, ((s.modify w (·.take r rest)).context w).data.connectionId)

/-- Likewise, a command that `source` has forwarded. -/
def guestCallers (s : Server V) (w source : ℕ) : Option ((ℕ × UInt64) × ℕ × UInt64) :=
  match (s.workers w).forwarded source with
  | [] => none
  | r :: rest =>
    let context := (s.modify w (·.setForwarded source rest)).context w
    if cfg.decision r.command context.toCommandContext = .executed then
      some ((source, r.connId), w, context.data.connectionId)
    else none

def callers (s : Server V) : Label → Option ((ℕ × UInt64) × ℕ × UInt64)
  | .executeLocal w => localCallers s w
  | .executeForwarded w source => guestCallers cfg s w source
  | _ => none

/-- The handler sees the connection that has sent the command. -/
def OnBehalf (s : Server V) (label : Label) : Prop :=
  ∀ sender seen, callers cfg s label = some (sender, seen) → sender = seen

/-- No handler is called for a command that was forwarded. -/
def CallsNoGuest (s : Server V) (label : Label) : Prop :=
  ∀ w source, label = .executeForwarded w source → callers cfg s label = none

/-- No worker has forwarded a command to itself. -/
def ForwardsAway (s : Server V) : Prop := ∀ w, (s.workers w).forwarded w = []

variable {cfg} {s : Server V}

theorem ForwardsAway.modify (h : s.ForwardsAway) (w : ℕ) (f : Worker → Worker)
    (hf : (f (s.workers w)).forwarded w = (s.workers w).forwarded w) :
    (s.modify w f).ForwardsAway := by
  intro u
  rw [workers_modify]
  split
  · next hu => rw [hu, hf, h w]
  · exact h u

theorem ForwardsAway.step (h : s.ForwardsAway) (label : Label) :
    (s.step cfg label).ForwardsAway := by
  by_cases hlabel : label.movesResponses = true
  · obtain ⟨w, worker, hsame, heq⟩ := step_of_movesResponses cfg s hlabel
    rw [heq]
    exact h.modify w _ (congrFun hsame.forwarded w)
  cases label with
  | receive w connId command => exact h.modify w (·.receive connId command) rfl
  | close w connId => exact h.modify w (·.close connId) rfl
  | executeLocal w =>
    rw [Server.step, executeLocal]
    split
    · exact h
    · next r rest _ =>
      have htake := h.modify w (·.take r rest) rfl
      have hstep := cfg.localStep_processLocal w r.command ((s.modify w (·.take r rest)).context w)
      dsimp only
      cases houtcome : cfg.processLocal w r.command ((s.modify w (·.take r rest)).context w) with
      | forward target =>
        rw [houtcome] at hstep
        cases hstep with
        | forward hlocal =>
          rw [finishLocal]
          refine htake.modify _ _ ?_
          exact Function.update_of_ne hlocal ..
      | reply response decisions context =>
        exact (htake.modify w (·.putContext (tagOf r) context) rfl).modify w
          (·.respond ⟨r.connId, some r.seq, response⟩) rfl
  | executeForwarded w source =>
    rw [Server.step, executeForwarded]
    split
    · exact h
    · next r rest hforwarded =>
      have hsource : w ≠ source := by
        rintro rfl
        exact List.cons_ne_nil _ _ (hforwarded.symm.trans (h w))
      have htake := h.modify w (·.setForwarded source rest) (Function.update_of_ne hsource ..)
      have hput := htake.modify w (·.putContext (fun _ => none)
        (cfg.execute r.command ((s.modify w (·.setForwarded source rest)).context w)).2.2) rfl
      exact fun u => hput.modify source (·.setCrossResponses w _) rfl u
  | reject | relay | publish | deliver | deliverOwn => exact absurd rfl hlabel

theorem guestCallers_eq_some {w source : ℕ} {sender seen : ℕ × UInt64}
    (h : guestCallers cfg s w source = some (sender, seen)) :
    (s.workers w).forwarded source ≠ [] ∧ sender.1 = source ∧ seen.1 = w := by
  rw [guestCallers] at h
  split at h
  · exact nomatch h
  · next hforwarded =>
    dsimp only at h
    split at h
    · obtain ⟨rfl, rfl⟩ := Prod.mk.inj (Option.some.inj h)
      exact ⟨hforwarded ▸ List.cons_ne_nil _ _, rfl, rfl⟩
    · exact nomatch h

theorem onBehalf_iff (h : s.ForwardsAway) (label : Label) :
    OnBehalf cfg s label ↔ CallsNoGuest cfg s label := by
  cases label with
  | executeForwarded w source =>
    refine ⟨fun hbehalf _ _ _ => ?_,
      fun hnone sender seen hsome => nomatch (hnone w source rfl).symm.trans hsome⟩
    refine Option.eq_none_iff_forall_ne_some.mpr fun ⟨sender, seen⟩ hsome => ?_
    -- the connections belong to different workers
    obtain ⟨hforwarded, hsender, hseen⟩ := guestCallers_eq_some hsome
    have hworkers : sender.1 = seen.1 := congrArg Prod.fst (hbehalf sender seen hsome)
    rw [hsender, hseen] at hworkers
    exact hforwarded (hworkers ▸ h w)
  | executeLocal w =>
    refine iff_of_true (fun sender seen hsome => ?_) nofun
    rw [callers, localCallers] at hsome
    split at hsome
    · exact nomatch hsome
    · obtain ⟨rfl, rfl⟩ := Prod.mk.inj (Option.some.inj hsome)
      rw [context_take]
  | receive | reject | relay | publish | close | deliver | deliverOwn =>
    exact iff_of_true nofun nofun

/-- The handlers see the connections that have sent the commands exactly as long as none of them is
called for a command that was forwarded. -/
theorem along_onBehalf_iff (cfg : ServerConfig V) (aclManager : Option AclManager)
    (labels : List Label) :
    Along (step cfg) (OnBehalf cfg) (init aclManager) labels ↔
      Along (step cfg) (CallsNoGuest cfg) (init aclManager) labels :=
  along_iff ForwardsAway (fun _ label h => onBehalf_iff h label) (fun _ label h _ => h.step label)
    fun _ => rfl

/-- A command of connection 2 of worker 0 is executed as if connection 7 of worker 1 had sent it. -/
theorem callers_exists :
    callers (sampleConfig 2)
      (after (step (sampleConfig 2)) (init none) [.receive 1 7 ⟨ascii "PING", []⟩, .executeLocal 1,
        .receive 0 2 ⟨ascii "EXISTS", [⟨.kBulkString, ascii "a"⟩]⟩, .executeLocal 0])
      (.executeForwarded 1 0) = some ((0, 2), 1, 7) := by
  decide +kernel

end Server
