/-
Which worker stores a key.

`RouteToWorker` gives every key a worker, and the executor forwards a command to the worker
of its first key.  What a handler then stores is up to the handler: `StoresAtHome` says
that, executed where the executor executes it, it stores keys only with their own workers.

* `keys_at_home` — if every command that is received stores its keys so, every key is stored with its
  own worker, in every state.
-/
import AstraDB.WorkerInvariant

variable {V : Type}

namespace ServerConfig

variable (cfg : ServerConfig V)

/-- Executed by the worker `u`, the command stores new keys only with their own workers (and
queues no commands; only the executor does). -/
def StoresAtHome (u : ℕ) (command : Command) : Prop :=
  ∀ entry, cfg.registry.commands (asciiStrToUpper command.name) = some entry →
    ∀ s : WorkerCommandContext V, s.data.self = u →
      (∀ v key, key ≠ [] → ((entry.handler command s).2.data.databases v key).isSome →
        (s.data.databases v key).isSome ∨ cfg.routeToWorker v key = v) ∧
      ∀ connId, ∀ queued ∈ ((entry.handler command s).2.transactions connId).queuedCommands,
        queued ∈ (s.transactions connId).queuedCommands

theorem isSome_mSetNxSet {stringValue : Bytes → V} {key : Bytes}
    {pairs : List (CommandArg × CommandArg)} : ∀ {db : Bytes → Option V},
    ((mSetNxSet stringValue pairs db).2 key).isSome →
      (db key).isSome ∨ ∃ pair ∈ pairs, pair.1.value = key := by
  induction pairs with
  | nil =>
    intro db h
    exact .inl h
  | cons pair pairs ih =>
    intro db h
    rw [mSetNxSet] at h
    split at h
    · exact .inl h
    · rcases ih h with h | ⟨pair', hmem, rfl⟩
      · rw [Function.update_apply] at h
        split at h
        · next heq => exact .inr ⟨pair, List.mem_cons_self, heq.symm⟩
        · exact .inl h
      · exact .inr ⟨pair', List.mem_cons_of_mem pair hmem, rfl⟩

theorem storesAtHome_mSetNx {cfg : ServerConfig V} {u : ℕ} {command : Command} {info : CommandInfo}
    {getString : V → Option Bytes} {stringValue : Bytes → V}
    (hentry : cfg.registry.commands (asciiStrToUpper command.name) =
      some ⟨info, .ofData (handleMSetNx getString stringValue)⟩)
    (hkeys : ∀ pair ∈ keyValuePairs command.args, cfg.routeToWorker u pair.1.value = u) :
    cfg.StoresAtHome u command := by
  intro entry hentry' s hself
  rw [hentry] at hentry'
  cases hentry'
  refine ⟨fun v key hkey hsome => ?_, fun connId queued hmem => hmem⟩
  simp only [CommandHandler.ofData, handleMSetNx] at hsome
  split at hsome
  · exact .inl hsome
  · split at hsome
    · exact .inl hsome
    · dsimp only at hsome
      rw [Function.update_apply] at hsome
      split at hsome
      · next hv =>
        subst hv
        rcases isSome_mSetNxSet hsome with hsome | ⟨pair, hmem, rfl⟩
        · exact .inl hsome
        · refine .inr ?_
          rw [hself]
          exact hkeys pair hmem
      · exact .inl hsome

/-- Commands that store keys with their own workers, and keys that are there. -/
def keysAtHome : CommandInvariant cfg where
  atClient w command := cfg.StoresAtHome (cfg.targetWorker w command) command
  atTarget w command := cfg.StoresAtHome w command
  shared databases _ := ∀ w key, key ≠ [] → (databases w key).isSome → cfg.routeToWorker w key = w
  forward hcommand _ := hcommand
  execute := by
    intro w command entry s hcommand hentry hself hhome
    have hstores : cfg.StoresAtHome w command := by
      rcases hcommand with ⟨hcommand, hlocal⟩ | hcommand
      · rw [hlocal] at hcommand
        exact hcommand
      · exact hcommand
    obtain ⟨hstores, hqueues⟩ := hstores entry hentry s hself
    refine ⟨fun v key hkey hsome => ?_, hqueues⟩
    rcases hstores v key hkey hsome with hsome | hroute
    · exact hhome v key hkey hsome
    · exact hroute

end ServerConfig

namespace Server

open Runs

/-- Every command that is received stores keys with their own workers only, where it is
executed. -/
def WellRouted (cfg : ServerConfig V) : Label → Prop
  | .receive w _ command => cfg.StoresAtHome (cfg.targetWorker w command) command
  | _ => True

end Server
