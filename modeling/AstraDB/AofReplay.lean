/-
Replaying the append-only file.

Most commands that change the database do not log; `SET` logs the time of an option as a
number that means a duration when it is read again; `SPOP` does not log what it took; and
`MSET` and `MSETNX` may stop half way without a record.

* `Aof.restored_of_along` — the runs that avoid this are restored by a replay.
-/
import AstraDB.Aof
import AstraDB.Runs

open Runs List Store

namespace Stored

variable {env : DatabaseEnv}

/-- RocksDB has nothing that a read of an empty map would load. -/
def Settled {α : Type} (c : Container) (deserialize : Bytes → Option α) (s : Stored env) : Prop :=
  env.rocksdbAdapter = true → s.data c = none → s.rocksdb.bind deserialize = none

variable {s : Stored env}

def Unexpired (now : Int64) (s : Stored env) : Prop :=
  ∀ m, s.metadata = some m → m.isExpired now = false

theorem readThrough_snd {c : Container} {deserialize : Bytes → Option (Value env.toValueTypes c)}
    (h : s.Settled c deserialize) : (s.readThrough c deserialize).2 = s := by
  rw [readThrough]
  split
  · rfl
  · next hdata =>
    split
    · next hadapter =>
      rw [h hadapter hdata]
      rfl
    · rfl

theorem Unexpired.isValid_snd {now : Int64} (h : s.Unexpired now) : (s.isValid now).2 = s := by
  cases hm : s.metadata with
  | none => rw [isValid, validMetadata, hm]
  | some m => rw [isValid_of_metadata hm (h m hm)]

end Stored

namespace Store

variable {env : DatabaseEnv}

variable {db : Store env} {key : Bytes} {evictions : Evictions}
  {pairs : List (CommandArg × CommandArg)}

theorem get_snd (h : (db key).Settled .strings env.deserializeString) : (db.get key).2 = db :=
  onKey_snd (Stored.readThrough_snd h)

theorem setIf_snd {value : Bytes} {options : SetOptions}
    (h : (db key).Settled .strings env.deserializeString)
    (hdone : (db.setIf key value options evictions).1 = false) :
    (db.setIf key value options evictions).2 = db := by
  rw [setIf] at hdone ⊢
  dsimp only at hdone ⊢
  split at hdone
  · next hrefused =>
    rw [if_pos hrefused, get_snd h]
  · exact absurd hdone.symm Bool.false_ne_true

theorem setIf_of_done {value : Bytes} {options : SetOptions} (hexpire : options.expireTimeMs = none)
    (hdone : (db.setIf key value options evictions).1 = true) :
    (db.setIf key value {} evictions).2 = (db.setIf key value options evictions).2 := by
  rw [setIf] at hdone
  dsimp only at hdone
  split at hdone
  · exact absurd hdone Bool.false_ne_true
  · next hgranted =>
    rw [setIf, setIf]
    dsimp only
    rw [if_neg hgranted, hexpire]
    rfl

theorem incrBy_snd {increment : Int64} {victims : List (Bytes × KeyType)}
    (h : (db key).Settled .strings env.deserializeString)
    (hsum : (db.incrBy increment key victims).1 = none) :
    (db.incrBy increment key victims).2 = db := by
  rw [incrBy] at hsum ⊢
  dsimp only at hsum ⊢
  split at hsum
  · exact get_snd h
  · exact absurd hsum (Option.some_ne_none _)

theorem mSet_fst (h : ∀ pair ∈ pairs, pair.1.isBulkString ∧ pair.2.isBulkString) :
    (db.mSet pairs evictions).1 = true := by
  induction pairs generalizing evictions db with
  | nil => rfl
  | cons pair pairs ih =>
    obtain ⟨hkey, hvalue⟩ := h pair mem_cons_self
    rw [mSet, hkey, hvalue]
    exact ih fun pair' hpair' => h pair' (mem_cons_of_mem _ hpair')

theorem mSetNxRefusal_snd
    (h : ∀ pair ∈ pairs, (db pair.1.value).Settled .strings env.deserializeString) :
    (db.mSetNxRefusal pairs).2 = db := by
  induction pairs with
  | nil => rfl
  | cons pair pairs ih =>
    rw [mSetNxRefusal]
    split
    · rfl
    · dsimp only
      rw [get_snd (h pair mem_cons_self)]
      split
      · rfl
      · exact ih fun pair' hpair' => h pair' (mem_cons_of_mem _ hpair')

theorem mSetNxSet_fst (h : ∀ pair ∈ pairs, pair.2.isBulkString) :
    (db.mSetNxSet pairs evictions).1 = none := by
  induction pairs generalizing evictions db with
  | nil => rfl
  | cons pair pairs ih =>
    rw [mSetNxSet, h pair mem_cons_self]
    exact ih fun pair' hpair' => h pair' (mem_cons_of_mem _ hpair')

theorem mSetNx_snd (hvalues : ∀ pair ∈ pairs, pair.2.isBulkString)
    (h : ∀ pair ∈ pairs, (db pair.1.value).Settled .strings env.deserializeString)
    (hrefusal : (db.mSetNx pairs evictions).1 ≠ none) : (db.mSetNx pairs evictions).2 = db := by
  rw [mSetNx] at hrefusal ⊢
  dsimp only at hrefusal ⊢
  split at hrefusal
  · next hsome =>
    rw [if_pos hsome]
    exact mSetNxRefusal_snd h
  · exact absurd (mSetNxSet_fst hvalues) hrefusal

section

variable {db : Store env} {key : Bytes} {now : Int64}

theorem validRead_eq {c : Container} (h : (db key).Unexpired now) :
    (db.validRead c key now).2 = db := by
  refine onKey_snd ?_
  rw [Stored.checkedRead_snd, h.isValid_snd]

theorem sPop_snd {choice : ℕ} (h : (db key).Unexpired now)
    (hnone : (db.sPop key now choice).1 = none) : (db.sPop key now choice).2 = db := by
  rw [sPop] at hnone ⊢
  dsimp only at hnone ⊢
  rw [validRead_eq h] at hnone ⊢
  split at hnone
  · rfl
  · split at hnone
    · rfl
    · exact absurd hnone (Option.some_ne_none _)

theorem mem_of_validRead {c : Container} {value : Value env.toValueTypes c}
    (hunexpired : (db key).Unexpired now) (h : (db.validRead c key now).1 = some value) :
    (db key).data c = some value := by
  have h : ((db key).checkedRead c none some now).1 = some value := h
  rw [Stored.checkedRead] at h
  dsimp only at h
  rw [hunexpired.isValid_snd] at h
  split at h
  · revert h
    cases (db key).data c <;> exact id
  · exact absurd h (Option.some_ne_none _).symm

theorem sPop_choice (h : (db key).Unexpired now)
    (hfew : ∀ set, (db key).data .sets = some set → (DashSet.members set).length ≤ 1)
    (choice choice' : ℕ) : db.sPop key now choice = db.sPop key now choice' := by
  rw [sPop, sPop]
  dsimp only
  split
  · rfl
  · next set hset =>
    have hset := hfew set (mem_of_validRead h hset)
    have hindex : ∀ n, (DashSet.members set)[n % (DashSet.members set).length]? =
        (DashSet.members set).head? := by
      intro n
      obtain hzero | hone := Nat.le_one_iff_eq_zero_or_eq_one.mp hset
      · rw [length_eq_zero_iff.mp hzero]
        rfl
      · obtain ⟨member, hmembers⟩ := length_eq_one_iff.mp hone
        rw [hmembers, length_singleton, Nat.mod_one]
        rfl
    rw [hindex, hindex]

end

end Store

namespace Aof

variable {env : AofEnv} {worker : AofWorker}

/-- RocksDB has no string to load for these keys. -/
def SettledKeys (db : Store env.toDatabaseEnv) (keys : List CommandArg) : Prop :=
  ∀ key ∈ keys, (db key.value).Settled .strings env.deserializeString

/-- The arguments with which a command and its record do the same. -/
def Logged.Replayable (db : Store env.toDatabaseEnv) (now : Int64) (args : List CommandArg) :
    Logged → Prop
  | set => (∀ arg ∈ args.drop 2, arg.value ≠ ascii "EX" ∧ arg.value ≠ ascii "PX") ∧
      SettledKeys db (args.take 1)
  | incr | decr | incrBy | decrBy | setNx => SettledKeys db (args.take 1)
  | mSet => ∀ arg ∈ args, arg.isBulkString
  | mSetNx => (∀ arg ∈ args, arg.isBulkString) ∧
      SettledKeys db ((keyValuePairs args).map Prod.fst)
  | sPop => ∀ key ∈ args.take 1, (db key.value).Unexpired now ∧
      ∀ set, (db key.value).data .sets = some set → (DashSet.members set).length ≤ 1
  | del | append | getSet | setEx | setRange | hIncrByFloat | zIncrBy => True

/-- The reads that load nothing and remove nothing. -/
def DbCall.Quiet (now : Int64) (db : Store env.toDatabaseEnv) : DbCall env → Prop
  | .get key => (db key).Settled .strings env.deserializeString
  | .vecGet key => (db key).Settled .vectors env.deserializeVector
  | .isValid key => (db key).Unexpired now
  | .load c key =>
    (env.rocksdbMode = true → (db key).Settled c (Stored.recovered env.toDatabaseEnv)) ∧
      (db key).Unexpired now
  | .look => True
  | .write _ => False

/-- What is logged is logged in full, and the commands that do not log only read. -/
def Step.Replayable (s : State env) : Step env → Prop
  | .logged command args outside =>
    outside.evictions = (fun _ => []) ∧ command.Replayable s.db outside.now args
  | .unlogged calls now => ∀ call ∈ calls, call.Quiet now s.db

/-- A replay gives the same keys and values, with the same types and deadlines. -/
def Restored (worker : AofWorker) (s : State env) : Prop :=
  ∀ entries, entries.map Prod.fst = s.log → ∀ key,
    (replay env worker entries key).data = (s.db key).data ∧
      (replay env worker entries key).metadata.map (fun m => (m.type, m.expireTimeMs)) =
        (s.db key).metadata.map fun m => (m.type, m.expireTimeMs)

/-- The database is restored, and every command that changed it has logged a record. -/
structure Faithful (worker : AofWorker) (steps : List (Step env)) : Prop where
  restored : Restored worker (after (step env worker) (State.init env) steps)
  logged : ∀ earlier last later, steps = earlier ++ last :: later →
    let s := after (step env worker) (State.init env) earlier
    (step env worker s last).db ≠ s.db → (step env worker s last).log ≠ s.log

/-! ### Each command -/

theorem DbCall.run_of_quiet {now : Int64} {db : Store env.toDatabaseEnv} {call : DbCall env}
    (h : call.Quiet now db) : DbCall.run env now db call = db := by
  cases call with
  | get key => exact get_snd h
  | vecGet key => exact onKey_snd (Stored.readThrough_snd h)
  | isValid key => exact onKey_snd h.isValid_snd
  | load c key =>
    refine onKey_snd ?_
    rw [Stored.loadInMode_eq h.1, h.2.isValid_snd]
  | look => rfl
  | write effect => exact h.elim

theorem foldl_run_of_quiet {now : Int64} {db : Store env.toDatabaseEnv}
    {calls : List (DbCall env)} (h : ∀ call ∈ calls, call.Quiet now db) :
    calls.foldl (DbCall.run env now) db = db := by
  induction calls with
  | nil => rfl
  | cons call calls ih =>
    rw [foldl_cons, DbCall.run_of_quiet (h call mem_cons_self)]
    exact ih fun call' hcall' => h call' (mem_cons_of_mem _ hcall')

theorem toArgs_map {args : List CommandArg} (h : ∀ arg ∈ args, arg.isBulkString) (name : Bytes) :
    Record.toArgs ⟨name, args.map (·.value)⟩ = args := by
  rw [Record.toArgs, map_map]
  refine (map_congr_left fun arg harg => ?_).trans (map_id args)
  have htype := of_decide_eq_true (h arg harg)
  obtain ⟨type, value⟩ := arg
  exact congrArg (CommandArg.mk · value) htype.symm

/-- The command leaves the database as it is, or its record does the same again. -/
def Covered (worker : AofWorker) (command : Logged) (args : List CommandArg) (now : Int64)
    (choice : ℕ) (db : Store env.toDatabaseEnv) : Prop :=
  let (_, db', records) := run env (command.handler env worker (.calm now choice) args) db
  records = [] ∧ db' = db ∨
    ∃ values, records = [⟨command.name, values⟩] ∧ ∀ choice',
      (run env (command.handler env worker (.calm now choice')
        (Record.toArgs ⟨command.name, values⟩)) db).2.1 = db'

/-- The arguments are bulk strings, and the plan changes nothing or has them in its record. -/
structure Plan.Verbatim (plan : Plan env) (name : Bytes) (args : List CommandArg)
    (db : Store env.toDatabaseEnv) : Prop where
  bulk : ∀ arg ∈ args, arg.isBulkString
  record : (plan.reply (plan.op db).1).2 = [] ∧ (plan.op db).2 = db ∨
    (plan.reply (plan.op db).1).2 = [⟨name, args.map (·.value)⟩]

section

variable {command : Logged} {args : List CommandArg} {now : Int64} {choice : ℕ}
  {db : Store env.toDatabaseEnv}

theorem covered_of_error {err : Bytes}
    (h : command.handler env worker (.calm now choice) args = .error err) :
    Covered worker command args now choice db := by
  rw [Covered, h]
  exact .inl ⟨rfl, rfl⟩

theorem covered_of_verbatim
    (hchoice : ∀ choice', command.handler env worker (.calm now choice') args =
      command.handler env worker (.calm now choice) args)
    (h : ∀ plan, command.handler env worker (.calm now choice) args = .ok plan →
      plan.Verbatim command.name args db) :
    Covered worker command args now choice db := by
  cases hhandler : command.handler env worker (.calm now choice) args with
  | error err => exact covered_of_error hhandler
  | ok plan =>
    obtain ⟨hbulk, hrecord⟩ := h plan hhandler
    rw [Covered, hhandler]
    refine hrecord.imp id fun hrecord => ⟨_, hrecord, fun choice' => ?_⟩
    rw [toArgs_map hbulk, hchoice, hhandler]
    rfl

variable {name : Bytes} {outside : Outside} {plan : Plan env}

theorem incrPlan_verbatim {key : CommandArg} {increment : Int64}
    (hbulk : ∀ arg ∈ args, arg.isBulkString)
    (hkey : (db key.value).Settled .strings env.deserializeString) :
    (incrPlan env name key.value increment args outside).Verbatim name args db := by
  refine ⟨hbulk, ?_⟩
  rw [incrPlan]
  dsimp only
  cases hsum : (Store.incrBy increment key.value (outside.evictions 0) db).1 with
  | none => exact .inl ⟨rfl, incrBy_snd hkey hsum⟩
  | some sum => exact .inr rfl

theorem handleStep_verbatim {increment : Int64} (hkeys : SettledKeys db (args.take 1))
    (h : handleStep env name increment outside args = .ok plan) : plan.Verbatim name args db := by
  unfold handleStep at h
  split at h
  · next key =>
    split at h
    · cases h
    · next hbulk =>
      cases h
      refine incrPlan_verbatim ?_ (hkeys key mem_cons_self)
      simpa using hbulk
  · cases h

theorem handleStepBy_verbatim {increment : Int64 → Int64} (hkeys : SettledKeys db (args.take 1))
    (h : handleStepBy env name increment outside args = .ok plan) :
    plan.Verbatim name args db := by
  unfold handleStepBy at h
  split at h
  · next key arg =>
    split at h
    · cases h
    · next hbulk =>
      split at h
      · cases h
      · cases h
        refine incrPlan_verbatim ?_ (hkeys key mem_cons_self)
        simpa using hbulk
  · cases h

theorem handleKeyValue_verbatim {f : Bytes → Bytes → Plan env}
    (hf : ∀ key value, args = [key, value] →
      ((f key.value value.value).reply ((f key.value value.value).op db).1).2 = [] ∧
          ((f key.value value.value).op db).2 = db ∨
        ((f key.value value.value).reply ((f key.value value.value).op db).1).2 =
          [⟨name, [key.value, value.value]⟩])
    (h : handleKeyValue env name f args = .ok plan) : plan.Verbatim name args db := by
  unfold handleKeyValue at h
  split at h
  · next key value =>
    split at h
    · cases h
    · next hbulk =>
      cases h
      refine ⟨?_, hf key value rfl⟩
      simpa using hbulk
  · cases h

theorem handleThree_verbatim {f : Bytes → Bytes → Bytes → Except Bytes (Plan env)}
    (hf : ∀ key arg value plan, f key arg value = .ok plan →
      ∀ answer, (plan.reply answer).2 = [⟨name, [key, arg, value]⟩])
    (h : handleThree env name f args = .ok plan) : plan.Verbatim name args db := by
  unfold handleThree at h
  split at h
  · next key arg value =>
    split at h
    · cases h
    · next hbulk =>
      refine ⟨?_, .inr (hf _ _ _ plan h _)⟩
      simpa [and_assoc] using hbulk
  · cases h

theorem handleSetEx_verbatim (h : handleSetEx env outside args = .ok plan) :
    plan.Verbatim (ascii "SETEX") args db := by
  refine handleThree_verbatim (fun key arg value plan hplan => ?_) h
  split at hplan
  · cases hplan
  · split at hplan
    · cases hplan
    · cases hplan
      exact fun _ => rfl

theorem handleSetRange_verbatim (h : handleSetRange env outside args = .ok plan) :
    plan.Verbatim (ascii "SETRANGE") args db := by
  refine handleThree_verbatim (fun key arg value plan hplan => ?_) h
  split at hplan
  · cases hplan
  · split at hplan
    · cases hplan
    · cases hplan
      exact fun _ => rfl

theorem handleHIncrByFloat_verbatim (h : handleHIncrByFloat env args = .ok plan) :
    plan.Verbatim (ascii "HINCRBYFLOAT") args db := by
  refine handleThree_verbatim (fun key field arg plan hplan => ?_) h
  split at hplan
  · cases hplan
  · cases hplan
    exact fun _ => rfl

theorem handleZIncrBy_verbatim (h : handleZIncrBy env args = .ok plan) :
    plan.Verbatim (ascii "ZINCRBY") args db := by
  refine handleThree_verbatim (fun key arg member plan hplan => ?_) h
  split at hplan
  · cases hplan
  · cases hplan
    exact fun _ => rfl

theorem handleAppend_verbatim (h : handleAppend env outside args = .ok plan) :
    plan.Verbatim (ascii "APPEND") args db :=
  handleKeyValue_verbatim (fun _ _ _ => .inr rfl) h

theorem handleGetSet_verbatim (h : handleGetSet env outside args = .ok plan) :
    plan.Verbatim (ascii "GETSET") args db :=
  handleKeyValue_verbatim (fun _ _ _ => .inr rfl) h

theorem handleSetNx_verbatim (hkeys : SettledKeys db (args.take 1))
    (h : handleSetNx env outside args = .ok plan) : plan.Verbatim (ascii "SETNX") args db := by
  refine handleKeyValue_verbatim (fun key value hargs => ?_) h
  subst hargs
  dsimp only
  cases hdone : (Store.setIf key.value value.value { nx := true } outside.evictions db).1 with
  | false => exact .inl ⟨rfl, setIf_snd (hkeys key mem_cons_self) hdone⟩
  | true => exact .inr rfl

theorem handleDel_verbatim (h : handleDel env args = .ok plan) :
    plan.Verbatim (ascii "DEL") args db := by
  rw [handleDel] at h
  split at h
  · cases h
  · split at h
    · cases h
    · next hbulk =>
      cases h
      refine ⟨?_, .inr rfl⟩
      simpa using hbulk

theorem mem_of_mem_keyValuePairs {pair : CommandArg × CommandArg}
    (h : pair ∈ keyValuePairs args) : pair.1 ∈ args ∧ pair.2 ∈ args := by
  fun_induction keyValuePairs args with
  | case1 key value args ih =>
    obtain rfl | h := mem_cons.mp h
    · simp
    · simp [ih h]
  | case2 args => exact absurd h not_mem_nil

theorem handleMSet_verbatim (hbulk : ∀ arg ∈ args, arg.isBulkString)
    (h : handleMSet env worker outside args = .ok plan) :
    plan.Verbatim (ascii "MSET") args db := by
  have hpairs : ∀ pair ∈ keyValuePairs args, pair.1.isBulkString ∧ pair.2.isBulkString := by
    intro pair hpair
    obtain ⟨hkey, hvalue⟩ := mem_of_mem_keyValuePairs hpair
    exact ⟨hbulk _ hkey, hbulk _ hvalue⟩
  rw [handleMSet] at h
  dsimp only at h
  split at h
  · cases h
  · split at h
    · cases h
    · cases h
      refine ⟨hbulk, .inr ?_⟩
      dsimp only
      rw [mSet_fst]
      · rfl
      · intro pair hpair
        split at hpair
        · exact hpairs pair (mem_of_mem_filter hpair)
        · exact hpairs pair hpair

theorem handleMSetNx_verbatim (hbulk : ∀ arg ∈ args, arg.isBulkString)
    (hkeys : SettledKeys db ((keyValuePairs args).map Prod.fst))
    (h : handleMSetNx env outside args = .ok plan) : plan.Verbatim (ascii "MSETNX") args db := by
  rw [handleMSetNx] at h
  split at h
  · cases h
  · cases h
    refine ⟨hbulk, ?_⟩
    dsimp only
    cases hrefusal : (Store.mSetNx (keyValuePairs args) outside.evictions db).1 with
    | none => exact .inr rfl
    | some result =>
      refine .inl ⟨rfl, mSetNx_snd ?_ ?_ (by rw [hrefusal]; exact Option.some_ne_none _)⟩
      · exact fun pair hpair => hbulk _ (mem_of_mem_keyValuePairs hpair).2
      · exact fun pair hpair => hkeys _ (mem_map_of_mem hpair)

/-! `SET` and `SPOP`, whose records are not their arguments. -/

theorem setOptions_expireTimeMs {options options' : Store.SetOptions}
    (hargs : ∀ arg ∈ args, arg.value ≠ ascii "EX" ∧ arg.value ≠ ascii "PX")
    (h : setOptions env now args options = .ok options') :
    options'.expireTimeMs = options.expireTimeMs := by
  induction args generalizing options with
  | nil =>
    cases h
    rfl
  | cons arg args ih =>
    obtain ⟨hex, hpx⟩ := hargs arg mem_cons_self
    have hrest := fun arg' harg' => hargs arg' (mem_cons_of_mem arg harg')
    rw [setOptions.eq_def] at h
    dsimp only at h
    rw [if_neg hex, if_neg hpx] at h
    split at h
    · cases h
    · split at h
      · exact (ih hrest h).trans rfl
      · split at h
        · exact (ih hrest h).trans rfl
        · cases h

theorem handleSet_ok (h : handleSet env outside args = .ok plan) :
    ∃ key value rest options, args = key :: value :: rest ∧
      setOptions env outside.now rest {} = .ok options ∧
      plan = ⟨Bool, Store.setIf key.value value.value options outside.evictions, fun done =>
        if done then (replyOk, [setRecord env key.value value.value options])
        else (replyNull, [])⟩ := by
  unfold handleSet at h
  split at h
  · next key value rest =>
    split at h
    · cases h
    · split at h
      · cases h
      · next options hoptions =>
        split at h
        · cases h
        · exact ⟨key, value, rest, options, rfl, hoptions, (Except.ok.inj h).symm⟩
  · cases h

theorem covered_set (hargs : ∀ arg ∈ args.drop 2, arg.value ≠ ascii "EX" ∧ arg.value ≠ ascii "PX")
    (hkeys : SettledKeys db (args.take 1)) : Covered worker .set args now choice db := by
  cases hhandler : Logged.handler env worker (.calm now choice) .set args with
  | error err => exact covered_of_error hhandler
  | ok plan =>
    rw [Covered, hhandler]
    obtain ⟨key, value, rest, options, rfl, hoptions, rfl⟩ := handleSet_ok hhandler
    have hexpire := setOptions_expireTimeMs hargs hoptions
    rw [run]
    dsimp only [Outside.calm]
    cases hdone : (Store.setIf key.value value.value options (fun _ => []) db).1 with
    | false => exact .inl ⟨rfl, setIf_snd (hkeys key mem_cons_self) hdone⟩
    | true =>
      -- the record has neither `NX` nor `XX`
      refine .inr ⟨[key.value, value.value], ?_, fun _ => setIf_of_done hexpire hdone⟩
      rw [if_pos rfl, setRecord, hexpire]
      rfl

theorem covered_sPop
    (hkey : ∀ key ∈ args.take 1, (db key.value).Unexpired now ∧
      ∀ set, (db key.value).data .sets = some set → (DashSet.members set).length ≤ 1) :
    Covered worker .sPop args now choice db := by
  cases hhandler : Logged.handler env worker (.calm now choice) .sPop args with
  | error err => exact covered_of_error hhandler
  | ok plan =>
    rw [Covered, hhandler]
    rw [Logged.handler] at hhandler
    unfold handleSPop at hhandler
    split at hhandler
    · next key _ =>
      split at hhandler
      · cases hhandler
      · cases hhandler
        obtain ⟨hunexpired, hfew⟩ := hkey key mem_cons_self
        rw [run]
        dsimp only [Outside.calm]
        cases hmember : (Store.sPop key.value now choice db).1 with
        | none => exact .inl ⟨rfl, sPop_snd hunexpired hmember⟩
        | some member =>
          refine .inr ⟨[key.value], rfl, fun choice' => ?_⟩
          exact congrArg Prod.snd (sPop_choice hunexpired hfew choice' choice)
    · cases hhandler

theorem covered_of_replayable (h : command.Replayable db now args) :
    Covered worker command args now choice db := by
  cases command with
  | set => exact covered_set h.1 h.2
  | sPop => exact covered_sPop h
  | del => exact covered_of_verbatim (fun _ => rfl) fun _ => handleDel_verbatim
  | mSet => exact covered_of_verbatim (fun _ => rfl) fun _ => handleMSet_verbatim h
  | mSetNx => exact covered_of_verbatim (fun _ => rfl) fun _ => handleMSetNx_verbatim h.1 h.2
  | incr | decr => exact covered_of_verbatim (fun _ => rfl) fun _ => handleStep_verbatim h
  | incrBy | decrBy => exact covered_of_verbatim (fun _ => rfl) fun _ => handleStepBy_verbatim h
  | append => exact covered_of_verbatim (fun _ => rfl) fun _ => handleAppend_verbatim
  | getSet => exact covered_of_verbatim (fun _ => rfl) fun _ => handleGetSet_verbatim
  | setNx => exact covered_of_verbatim (fun _ => rfl) fun _ => handleSetNx_verbatim h
  | setEx => exact covered_of_verbatim (fun _ => rfl) fun _ => handleSetEx_verbatim
  | setRange => exact covered_of_verbatim (fun _ => rfl) fun _ => handleSetRange_verbatim
  | hIncrByFloat => exact covered_of_verbatim (fun _ => rfl) fun _ => handleHIncrByFloat_verbatim
  | zIncrBy => exact covered_of_verbatim (fun _ => rfl) fun _ => handleZIncrBy_verbatim

end

/-! ### Runs -/

theorem find_name (command : Logged) :
    Logged.all.find? (fun other => other.name = command.name) = some command := by
  cases command <;> decide

theorem step_cases (worker : AofWorker) {s : State env} {label : Step env}
    (hlabel : label.Replayable s) :
    step env worker s label = s ∨
      ∃ record now, (step env worker s label).log = s.log ++ [(record, now)] ∧
        ∀ choice, replayOne env worker s.db ((record, now), choice) =
          (step env worker s label).db := by
  cases label with
  | unlogged calls now => exact .inl (by rw [step, foldl_run_of_quiet hlabel])
  | logged command args outside =>
    obtain ⟨now, choice, evictions⟩ := outside
    obtain ⟨hevictions, hcommand⟩ := hlabel
    obtain rfl : evictions = fun _ => [] := hevictions
    have hcovered : Covered worker command args now choice s.db := covered_of_replayable hcommand
    rw [Covered, Outside.calm] at hcovered
    rw [step]
    generalize run env (command.handler env worker _ args) s.db = r at hcovered ⊢
    obtain ⟨reply, db, records⟩ := r
    dsimp only at hcovered ⊢
    obtain ⟨rfl, rfl⟩ | ⟨values, rfl, hagain⟩ := hcovered
    · exact .inl (by rw [map_nil, append_nil])
    · refine .inr ⟨⟨command.name, values⟩, now, rfl, fun choice' => ?_⟩
      rw [replayOne]
      dsimp only
      rw [find_name]
      exact hagain choice'

/-- A replay gives the database, down to the versions. -/
def Exact (worker : AofWorker) (s : State env) : Prop :=
  ∀ entries, entries.map Prod.fst = s.log → replay env worker entries = s.db

theorem Exact.step {s : State env} {label : Step env} (hs : Exact worker s)
    (hlabel : label.Replayable s) : Exact worker (Aof.step env worker s label) := by
  intro entries hentries
  obtain hstep | ⟨record, now, hlog, hagain⟩ := step_cases worker hlabel
  · rw [hstep] at hentries ⊢
    exact hs entries hentries
  · rw [hlog] at hentries
    obtain ⟨earlier, last, rfl, hearlier, hlast⟩ := map_eq_append_iff.mp hentries
    obtain ⟨⟨entry, choice⟩, rfl, rfl⟩ := map_eq_singleton_iff.mp hlast
    rw [replay, foldl_append, foldl_cons, foldl_nil]
    exact (congrArg (replayOne env worker · _) (hs earlier hearlier)).trans (hagain choice)

theorem exact_of_along {steps : List (Step env)}
    (h : Along (step env worker) Step.Replayable (State.init env) steps) :
    Exact worker (after (step env worker) (State.init env) steps) := by
  refine after_invariant (Exact worker) (fun s label hlabel hs => hs.step hlabel) h ?_
  intro entries hentries
  rw [map_eq_nil_iff.mp hentries]
  rfl

theorem restored_of_along (worker : AofWorker) {steps : List (Step env)}
    (h : Along (step env worker) Step.Replayable (State.init env) steps) :
    Faithful worker steps where
  restored entries hentries key := by
    rw [exact_of_along h entries hentries]
    exact ⟨rfl, rfl⟩
  logged := by
    rintro earlier last later rfl s hchanged hlog
    obtain hstep | ⟨record, now, hmore, -⟩ := step_cases worker h.at
    · exact hchanged (congrArg State.db hstep)
    · rw [hmore, append_right_eq_self] at hlog
      exact cons_ne_nil _ _ hlog

def setIncrGet : List (Step simpleAof) :=
  [.logged .set (bulkArgs ["k", "5", "NX"]) (.calm 1000 0),
    .logged .incr (bulkArgs ["k"]) (.calm 1001 0),
    .unlogged [.get (ascii "k")] 1002]

theorem restored_of_along_setIncrGet : Faithful ⟨1, 0⟩ setIncrGet := by
  refine restored_of_along ⟨1, 0⟩ ⟨⟨rfl, ?_, ?_⟩, ⟨rfl, ?_⟩, ?_, trivial⟩
  · decide
  · exact fun _ _ hadapter => nomatch hadapter
  · exact fun _ _ hadapter => nomatch hadapter
  · intro call hcall
    rw [mem_singleton.mp hcall]
    exact fun hadapter => nomatch hadapter

def hSetOnly : List (Step simpleAof) :=
  [.unlogged [.write fun db => (db.hSet (ascii "k") (ascii "f") (ascii "v") []).2] 1000]

def setPxOnly : List (Step simpleAof) :=
  [.logged .set (bulkArgs ["k", "v", "PX", "100"]) (.calm 1000 0)]

/-- `HSET` logs nothing; the record of `SET` has the deadline, which is then a duration. -/
theorem not_faithful : ¬ Faithful ⟨1, 0⟩ hSetOnly ∧ ¬ Faithful ⟨1, 0⟩ setPxOnly := by
  constructor
  · intro h
    have hmetadata := (h.restored [] rfl (ascii "k")).2
    revert hmetadata
    decide +kernel
  · intro h
    have hmetadata := (h.restored
      [((⟨ascii "SET", [ascii "k", ascii "v", ascii "PX", ascii "1100"]⟩, 1000), 0)]
      (by decide +kernel) (ascii "k")).2
    revert hmetadata
    decide +kernel

end Aof
