/-
Counters: `INCR`, `DECR`, `INCRBY`, `DECRBY` and `HINCRBY`.

The number is parsed, changed and written back, in 64 bits; signed overflow, which the
language leaves undefined, wraps.

* `Counter.lawful_iff` — the reply is the exact number, or an error if it does not fit, only as
  long as it does fit.
-/
import AstraDB.Aof

namespace Aof

variable (env : AofEnv)

/-- `HIncrBy`; a field that is not a number is left as it is, and the answer is 0. -/
def hIncrBy (key field : Bytes) (increment : Int64) :
    Store env.toDatabaseEnv → Int64 × Store env.toDatabaseEnv :=
  Store.extend .hashes (∅ : DashMap Bytes)
    (fun hash : DashMap Bytes =>
      match (hash.lookup field).elim (some 0) env.simpleAtoi with
      | none => (0, hash)
      | some old => (old + increment, hash.insert field (env.strCat (old + increment))))
    (fun _ => false) key []

/-- It does not log. -/
def handleHIncrBy : Handler env :=
  handleThree env (ascii "HINCRBY") fun key field arg =>
    match env.simpleAtoi arg with
    | none => .error notInteger
    | some increment => .ok ⟨Int64, hIncrBy env key field increment, fun sum =>
      (replyInteger sum, [])⟩

inductive Counter
  | incr
  | decr
  | incrBy
  | decrBy
  | hIncrBy
  deriving DecidableEq, Repr

namespace Counter

def handler (outside : Outside) : Counter → Handler env
  | incr => handleIncr env outside
  | decr => handleDecr env outside
  | incrBy => handleIncrBy env outside
  | decrBy => handleDecrBy env outside
  | hIncrBy => handleHIncrBy env

/-- The arguments of which each command has some. -/
def args (key field arg : CommandArg) : Counter → List CommandArg
  | incr => [key]
  | decr => [key]
  | incrBy => [key, arg]
  | decrBy => [key, arg]
  | hIncrBy => [key, field, arg]

def stored (key field : Bytes) (db : Store env.toDatabaseEnv) : Counter → Option Bytes
  | hIncrBy => Option.bind ((db key).data .hashes) fun hash : DashMap Bytes => hash.lookup field
  | _ => (db key).data .strings

/-- The exact result for the number `c` and the argument `d`. -/
def result (c d : ℤ) : Counter → ℤ
  | incr => c + 1
  | decr => c - 1
  | incrBy => c + d
  | decrBy => c - d
  | hIncrBy => c + d

def Fits (n : ℤ) : Prop := -2 ^ 63 ≤ n ∧ n < 2 ^ 63

instance (n : ℤ) : Decidable (Fits n) := inferInstanceAs (Decidable (_ ∧ _))

/-- A command replies with the exact number and stores it, or with an error. -/
def Lawful (counter : Counter) (outside : Outside) (key field arg : CommandArg) (exact : ℤ)
    (db : Store env.toDatabaseEnv) : Prop :=
  let after := Aof.run env (counter.handler env outside (counter.args key field arg)) db
  (Fits exact → ∃ sum : Int64, sum.toInt = exact ∧ after.1 = replyInteger sum ∧
    counter.stored env key.value field.value after.2.1 = some (env.strCat sum)) ∧
  (¬ Fits exact → after.1.success = false ∧
    counter.stored env key.value field.value after.2.1 =
      counter.stored env key.value field.value db)

def increment (d : Int64) : Counter → Int64
  | incr => 1
  | decr => -1
  | incrBy => d
  | decrBy => -d
  | hIncrBy => d

variable {env}

theorem toInt_sum (counter : Counter) (c d : Int64) :
    (c + counter.increment d).toInt = (counter.result c.toInt d.toInt).bmod (2 ^ 64) := by
  cases counter with
  | incr | incrBy | hIncrBy => exact Int64.toInt_add c _
  | decr | decrBy =>
    rw [increment, ← Int64.sub_eq_add_neg, Int64.toInt_sub]
    rfl

theorem run_incrPlan {db : Store env.toDatabaseEnv} {key text : Bytes} {c : Int64}
    (hdata : (db key).data .strings = some text) (hc : env.simpleAtoi text = some c)
    {outside : Outside} (hkey : key ∉ (outside.evictions 0).map Prod.fst) {name : Bytes}
    {increment : Int64} {args : List CommandArg} {plan : Except Bytes (Plan env)}
    (hplan : plan = .ok (incrPlan env name key increment args outside)) :
    (Aof.run env plan db).1 = replyInteger (c + increment) ∧
      ((Aof.run env plan db).2.1 key).data .strings = some (env.strCat (c + increment)) := by
  have hop : (incrPlan env name key increment args outside).op db =
      (some (c + increment), db.set key (env.strCat (c + increment)) (outside.evictions 0)) := by
    show db.incrBy increment key (outside.evictions 0) = _
    rw [Store.incrBy, Store.get_of_data hdata]
    dsimp only
    rw [Option.elim_some, hc]
  rw [hplan, Aof.run, hop]
  exact ⟨rfl, Store.data_set hkey _ _⟩

theorem hIncrBy_of_data {db : Store env.toDatabaseEnv} {key field text : Bytes}
    {hash : DashMap Bytes} {c : Int64} (hdata : (db key).data .hashes = some hash)
    (hfield : hash.lookup field = some text) (hc : env.simpleAtoi text = some c) (increment : Int64)
    : (Aof.hIncrBy env key field increment db).1 = c + increment ∧
      ((Aof.hIncrBy env key field increment db).2 key).data .hashes =
        some (hash.insert field (env.strCat (c + increment))) := by
  have hedit : (match (hash.lookup field).elim (some 0) env.simpleAtoi with
      | none => (0, hash)
      | some old => (old + increment, hash.insert field (env.strCat (old + increment)))) =
      (c + increment, hash.insert field (env.strCat (c + increment))) := by
    rw [hfield, Option.elim_some, hc]
  constructor
  · refine Store.extend_fst.trans ?_
    rw [hdata]
    exact congrArg Prod.fst hedit
  · refine (Store.data_extend (List.not_mem_nil : key ∉ List.map Prod.fst [])).trans ?_
    rw [hdata]
    exact congrArg (some ∘ Prod.snd) hedit

theorem run_eq (counter : Counter) {db : Store env.toDatabaseEnv} {outside : Outside}
    {key field arg : CommandArg} {text : Bytes} {c d : Int64} (hkey : key.isBulkString = true)
    (hfield : field.isBulkString = true) (harg : arg.isBulkString = true)
    (hkept : key.value ∉ (outside.evictions 0).map Prod.fst)
    (hd : env.simpleAtoi arg.value = some d) (hc : env.simpleAtoi text = some c)
    (hstored : counter.stored env key.value field.value db = some text) :
    let after := Aof.run env (counter.handler env outside (counter.args key field arg)) db
    after.1 = replyInteger (c + counter.increment d) ∧
      counter.stored env key.value field.value after.2.1 =
        some (env.strCat (c + counter.increment d)) := by
  intro after
  have hstep : ∀ name step, handleStep env name step outside [key] =
      .ok (incrPlan env name key.value step [key] outside) := by
    intro name step
    rw [handleStep, hkey]
    rfl
  have hstepBy : ∀ name step, handleStepBy env name step outside [key, arg] =
      .ok (incrPlan env name key.value (step d) [key, arg] outside) := by
    intro name step
    rw [handleStepBy, hkey, harg, hd]
    rfl
  cases counter with
  | incr => exact run_incrPlan hstored hc hkept (hstep _ 1)
  | decr => exact run_incrPlan hstored hc hkept (hstep _ (-1))
  | incrBy => exact run_incrPlan hstored hc hkept (hstepBy _ id)
  | decrBy => exact run_incrPlan hstored hc hkept (hstepBy _ Neg.neg)
  | hIncrBy =>
    obtain ⟨hash, hdata, hlookup⟩ := Option.bind_eq_some_iff.mp hstored
    obtain ⟨hsum, hhash⟩ := hIncrBy_of_data hdata hlookup hc d
    have hplan : handleHIncrBy env [key, field, arg] =
        .ok ⟨Int64, Aof.hIncrBy env key.value field.value d,
          fun sum => (replyInteger sum, [])⟩ := by
      rw [handleHIncrBy, handleThree, hkey, hfield, harg, hd]
      rfl
    have hafter : after = Aof.run env (handleHIncrBy env [key, field, arg]) db := rfl
    rw [hafter, hplan]
    refine ⟨congrArg replyInteger hsum, ?_⟩
    refine (congrArg (Option.bind · fun hash : DashMap Bytes => hash.lookup field.value)
      hhash).trans ?_
    exact AList.lookup_insert hash

/-- For which numbers a counter does what it is for. -/
theorem lawful_iff (counter : Counter) (env : AofEnv) (db : Store env.toDatabaseEnv)
    (outside : Outside) (key field arg : CommandArg) (text : Bytes) (c d : Int64)
    (hkey : key.isBulkString = true) (hfield : field.isBulkString = true)
    (harg : arg.isBulkString = true) (hkept : key.value ∉ (outside.evictions 0).map Prod.fst)
    (hd : env.simpleAtoi arg.value = some d) (hc : env.simpleAtoi text = some c)
    (hstored : counter.stored env key.value field.value db = some text) :
    counter.Lawful env outside key field arg (counter.result c.toInt d.toInt) db ↔
      Fits (counter.result c.toInt d.toInt) := by
  obtain ⟨hreply, hafter⟩ := run_eq counter hkey hfield harg hkept hd hc hstored
  constructor
  · rintro ⟨-, herror⟩
    by_contra hfits
    have hfalse := (herror hfits).1
    rw [hreply] at hfalse
    cases hfalse
  · intro hfits
    refine ⟨fun _ => ⟨_, ?_, hreply, hafter⟩, fun h => absurd hfits h⟩
    obtain ⟨hle, hlt⟩ := hfits
    rw [toInt_sum, Int.bmod_eq_of_le (by omega) (by omega)]

def oneCounter (text : Bytes) : Store simpleAof.toDatabaseEnv :=
  Store.empty.set (ascii "k") text []

def bulk (text : String) : CommandArg := .ofString (ascii text) .kBulkString

theorem lawful_iff_five_seven :
    Counter.decrBy.Lawful simpleAof (.calm 0 0) (bulk "k") (bulk "f") (bulk "7") (5 - 7)
        (oneCounter (ascii "5")) ↔ Fits (5 - 7) :=
  lawful_iff .decrBy simpleAof _ (.calm 0 0) (bulk "k") (bulk "f") (bulk "7") (ascii "5") 5 7
    rfl rfl rfl List.not_mem_nil (by decide) (by decide)
    (Store.data_set List.not_mem_nil _ _)

/-- The largest number, incremented. -/
theorem incr_wraps :
    (Aof.run simpleAof (handleIncr simpleAof (.calm 0 0) [bulk "k"])
        (oneCounter (ascii "9223372036854775807"))).1 = replyInteger Int64.minValue ∧
      ¬ Counter.incr.Lawful simpleAof (.calm 0 0) (bulk "k") (bulk "f") (bulk "0")
        (9223372036854775807 + 1) (oneCounter (ascii "9223372036854775807")) := by
  have hrun := @run_eq simpleAof .incr (oneCounter (ascii "9223372036854775807")) (.calm 0 0)
    (bulk "k") (bulk "f") (bulk "0") _ Int64.maxValue 0 rfl rfl rfl List.not_mem_nil (by decide)
    (by decide) (Store.data_set List.not_mem_nil _ _)
  refine ⟨hrun.1, fun hlawful => ?_⟩
  have hfalse := (hlawful.2 (by decide)).1
  rw [hrun.1] at hfalse
  cases hfalse

end Counter

end Aof
