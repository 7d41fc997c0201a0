/-
Deadlines of keys: `PTTL`, `EXPIRE`, `EXPIREAT`, `PEXPIRE` and `PEXPIREAT`.

A key is expired after its deadline, but it has time left only before it.  A deadline that is not
in the future deletes the key, if there is one; `EXPIREAT` compares the timestamp in milliseconds,
which may overflow.

* `deadlines_iff` — when `PTTL` tells what is left, and when a key is treated as missing.
-/
import AstraDB.Aof
import AstraDB.Expiration

open Int64 Stored Int

namespace Deadlines

variable {env : DatabaseEnv}

/-- The time left, -1 for a key without a deadline and -2 for a key that is not there any more. -/
structure Truthful (now : Int64) (s : Stored env) : Prop where
  unlimited : s.getTtlMs now = -1 ↔ ∃ m, s.metadata = some m ∧ m.expireTimeMs = none
  missing : s.getTtlMs now = -2 ↔ s.metadata = none ∨
    ∃ m deadline, s.metadata = some m ∧ m.expireTimeMs = some deadline ∧ deadline ≤ now
  left : ∀ m deadline, s.metadata = some m → m.expireTimeMs = some deadline → now < deadline →
    0 < s.getTtlMs now ∧ (s.getTtlMs now).toInt = deadline.toInt - now.toInt

/-- A deadline is positive, not this very millisecond, and not too far from a clock before 1970. -/
def Regular (now : Int64) (s : Stored env) : Prop :=
  ∀ m deadline, s.metadata = some m → m.expireTimeMs = some deadline →
    0 < deadline ∧ deadline ≠ now ∧ (now < deadline → deadline.toInt - now.toInt < 2 ^ 63)

variable {now : Int64} {s : Stored env} {n : Int64}

theorem getTtlMs_of_none (h : s.metadata = none) : s.getTtlMs now = -2 := by
  rw [getTtlMs, h]

theorem getTtlMs_of_unlimited {m : KeyMetadata} (hm : s.metadata = some m)
    (h : m.expireTimeMs = none) : s.getTtlMs now = -1 := by
  have hexpired : m.isExpired now = false := by
    rw [KeyMetadata.isExpired, h]
  rw [getTtlMs, hm]
  dsimp only
  rw [hexpired, KeyMetadata.getTtlMs, h]
  rfl

theorem getTtlMs_of_deadline {deadline : Int64} {m : KeyMetadata} (hm : s.metadata = some m)
    (h : m.expireTimeMs = some deadline) :
    s.getTtlMs now =
      if 0 < deadline ∧ deadline < now then -2
      else if deadline ≤ 0 ∨ deadline ≤ now then -1 else deadline - now := by
  have hexpired : m.isExpired now = decide (0 < deadline ∧ deadline < now) := by
    rw [KeyMetadata.isExpired, h]
  rw [getTtlMs, hm]
  dsimp only
  rw [hexpired, KeyMetadata.getTtlMs, h]
  simp only [decide_eq_true_eq]
  split
  · rfl
  · split
    · rfl
    · rfl

theorem sub_spec {deadline : Int64} (hlt : now < deadline)
    (hfits : deadline.toInt - now.toInt < 2 ^ 63) :
    0 < deadline - now ∧ (deadline - now).toInt = deadline.toInt - now.toInt := by
  rw [lt_iff_toInt_lt] at hlt
  have hsub : (deadline - now).toInt = deadline.toInt - now.toInt := by
    rw [toInt_sub]
    exact bmod_eq_of_le (by omega) (by omega)
  refine ⟨?_, hsub⟩
  rw [lt_iff_toInt_lt, hsub, toInt_zero]
  omega

theorem regular_of_truthful (h : Truthful now s) : Regular now s := by
  intro m deadline hm hdeadline
  have httl := @getTtlMs_of_deadline env now s deadline m hm hdeadline
  have hlimited : s.getTtlMs now ≠ -1 := by
    intro hunlimited
    obtain ⟨m', hm', hnone⟩ := h.unlimited.mp hunlimited
    cases hm.symm.trans hm'
    exact absurd (hdeadline.symm.trans hnone) (Option.some_ne_none deadline)
  have hpos : 0 < deadline := by
    by_contra hpos
    exact hlimited (by rw [httl, if_neg fun h => hpos h.1, if_pos (.inl (Int64.not_lt.mp hpos))])
  have hne : deadline ≠ now := by
    rintro rfl
    exact hlimited (by rw [httl, if_neg fun h => Int64.lt_irrefl h.2, if_pos (.inr Int64.le_rfl)])
  refine ⟨hpos, hne, fun hlt => ?_⟩
  rw [← (h.left m deadline hm hdeadline hlt).2]
  exact Int64.toInt_lt _

theorem truthful_of_regular (h : Regular now s) : Truthful now s := by
  cases hm : s.metadata with
  | none =>
    have httl := @getTtlMs_of_none env now s hm
    refine ⟨?_, ?_, fun m _ hm' => absurd (hm.symm.trans hm') (Option.some_ne_none m).symm⟩
    · rw [httl, hm]
      exact iff_of_false (by decide) fun ⟨m, hm', _⟩ => nomatch hm'
    · exact iff_of_true httl (.inl hm)
  | some m =>
    -- every statement about the metadata is one about `m`
    have honly : ∀ {m' d}, s.metadata = some m' → m'.expireTimeMs = some d →
        m.expireTimeMs = some d :=
      fun hm' hd => Option.some.inj (hm'.symm.trans hm) ▸ hd
    cases hdeadline : m.expireTimeMs with
    | none =>
      have httl := @getTtlMs_of_unlimited env now s m hm hdeadline
      refine ⟨iff_of_true httl ⟨m, hm, hdeadline⟩, iff_of_false (by rw [httl]; decide) ?_, ?_⟩
      · simp [hm, hdeadline]
      · intro m' d hm' hd
        cases hdeadline.symm.trans (honly hm' hd)
    | some deadline =>
      obtain ⟨hpos, hne, hfits⟩ := h m deadline hm hdeadline
      have httl := @getTtlMs_of_deadline env now s deadline m hm hdeadline
      have hlimited : ¬ ∃ m', s.metadata = some m' ∧ m'.expireTimeMs = none := by
        simp [hm, hdeadline]
      by_cases hlt : deadline < now
      · rw [if_pos ⟨hpos, hlt⟩] at httl
        refine ⟨iff_of_false (by rw [httl]; decide) hlimited, iff_of_true httl ?_, ?_⟩
        · exact .inr ⟨m, deadline, hm, hdeadline, Int64.le_of_lt hlt⟩
        · intro m' d hm' hd hnow
          obtain rfl := Option.some.inj (hdeadline.symm.trans (honly hm' hd))
          exact absurd hnow (Int64.lt_asymm hlt)
      · have hnow : now < deadline := Int64.lt_of_le_of_ne (Int64.not_lt.mp hlt) hne.symm
        have hover : ¬ (deadline ≤ 0 ∨ deadline ≤ now) :=
          not_or.mpr ⟨Int64.not_le.mpr hpos, Int64.not_le.mpr hnow⟩
        rw [if_neg fun h => hlt h.2, if_neg hover] at httl
        obtain ⟨hleft, hsub⟩ := sub_spec hnow (hfits hnow)
        rw [← httl] at hleft hsub
        have hminus : ∀ ttl, ttl < 0 → s.getTtlMs now ≠ ttl := fun ttl hneg heq =>
          Int64.lt_asymm hleft (heq ▸ hneg)
        refine ⟨iff_of_false (hminus _ (by decide)) hlimited,
          iff_of_false (hminus _ (by decide)) ?_, ?_⟩
        · simp [hm, hdeadline, Int64.not_le.mpr hnow]
        · intro m' d hm' hd _
          obtain rfl := Option.some.inj (hdeadline.symm.trans (honly hm' hd))
          exact ⟨hleft, hsub⟩

/-- In what the handlers differ. -/
structure Family where
  name : Bytes
  /-- what the second argument is called -/
  argument : Bytes
  /-- whether the key is deleted, for the number and the clock -/
  past : Int64 → Int64 → Bool
  expireTimeMs : Int64 → Int64 → Int64

def handleDeadline (f : Family) (now : Int64) (args : List CommandArg) (db : Store env) :
    CommandResult × Store env :=
  match args with
  | [key, arg] =>
    if !key.isBulkString then (.ofError (ascii "ERR wrong type of key argument"), db)
    else if !arg.isBulkString then
      (.ofError (ascii "ERR wrong type of " ++ f.argument ++ ascii " argument"), db)
    else
      match Decimal.strtoll arg.value with
      | none => (.ofError Aof.notInteger, db)
      | some n =>
        if f.past n now then
          let (found, db) := db.onKey key.value (Stored.isValid now)
          if found then (Aof.replyInteger 1, (db.del key.value).2) else (Aof.replyInteger 0, db)
        else
          let (success, db) := db.setExpireMs key.value (f.expireTimeMs n now)
          (Aof.replyInteger (if success then 1 else 0), db)
  | _ => (.ofError (Aof.wrongNumber f.name), db)

inductive ExpireCommand
  | expire
  | expireAt
  | pExpire
  | pExpireAt
  deriving DecidableEq, Repr

namespace ExpireCommand

def family : ExpireCommand → Family
  | expire => ⟨ascii "EXPIRE", ascii "seconds", fun n _ => n ≤ 0, fun n now => now + n * 1000⟩
  | expireAt => ⟨ascii "EXPIREAT", ascii "timestamp", fun n now => n * 1000 ≤ now / 1000 * 1000,
      fun n _ => n * 1000⟩
  | pExpire => ⟨ascii "PEXPIRE", ascii "milliseconds", fun n _ => n ≤ 0, fun n now => now + n⟩
  | pExpireAt => ⟨ascii "PEXPIREAT", ascii "timestamp", fun n now => n ≤ now, fun n _ => n⟩

/-- The deadline that is asked for, as an exact number. -/
def requested (n now : Int64) : ExpireCommand → ℤ
  | expire => now.toInt + n.toInt * 1000
  | expireAt => n.toInt * 1000
  | pExpire => now.toInt + n.toInt
  | pExpireAt => n.toInt

end ExpireCommand

def handleExpire (now : Int64) (args : List CommandArg) (db : Store env) :
    CommandResult × Store env := handleDeadline ExpireCommand.expire.family now args db

def handleExpireAt (now : Int64) (args : List CommandArg) (db : Store env) :
    CommandResult × Store env := handleDeadline ExpireCommand.expireAt.family now args db

def handlePExpire (now : Int64) (args : List CommandArg) (db : Store env) :
    CommandResult × Store env := handleDeadline ExpireCommand.pExpire.family now args db

def handlePExpireAt (now : Int64) (args : List CommandArg) (db : Store env) :
    CommandResult × Store env := handleDeadline ExpireCommand.pExpireAt.family now args db

def ExpireCommand.handler : ExpireCommand → Int64 → List CommandArg → Store env →
    CommandResult × Store env
  | expire => handleExpire
  | expireAt => handleExpireAt
  | pExpire => handlePExpire
  | pExpireAt => handlePExpireAt

theorem le_div_mul (h : n.toInt * 1000 ≤ now.toInt) (hfits : -2 ^ 63 ≤ n.toInt * 1000) :
    n * 1000 ≤ now / 1000 * 1000 := by
  have hnow := toInt_lt now
  have hnow' := le_toInt now
  have hthousand : (1000 : Int64).toInt = 1000 := rfl
  have hsplit := mul_tdiv_add_tmod now.toInt 1000
  -- the remainder has the sign of the clock
  have hrest : (0 ≤ now.toInt → 0 ≤ now.toInt.tmod 1000 ∧ now.toInt.tmod 1000 < 1000) ∧
      (now.toInt < 0 → now.toInt.tmod 1000 ≤ 0 ∧ -1000 < now.toInt.tmod 1000) := by
    refine ⟨fun hpos => ⟨tmod_nonneg _ hpos, tmod_lt_of_pos _ (by decide)⟩, fun hneg => ?_⟩
    have hflip := neg_tmod (-now.toInt) 1000
    rw [neg_neg] at hflip
    have h0 := tmod_nonneg 1000 (show 0 ≤ -now.toInt by omega)
    have h1 := tmod_lt_of_pos (-now.toInt) (show (0 : ℤ) < 1000 by decide)
    omega
  have hproduct : (n * 1000).toInt = n.toInt * 1000 := by
    rw [toInt_mul, hthousand]
    exact bmod_eq_of_le (by omega) (by omega)
  have hseconds : (now / 1000).toInt = now.toInt.tdiv 1000 := by
    rw [toInt_div, hthousand]
    exact bmod_eq_of_le (by omega) (by omega)
  have hstart : (now / 1000 * 1000).toInt = now.toInt.tdiv 1000 * 1000 := by
    rw [toInt_mul, hseconds, hthousand]
    exact bmod_eq_of_le (by omega) (by omega)
  rw [le_iff_toInt_le, hproduct, hstart]
  omega

/-- A deadline that is not in the future is recognised, but for overflow. -/
theorem past_of_requested {command : ExpireCommand} (h : command.requested n now ≤ now.toInt)
    (hfits : command = .expireAt → -2 ^ 63 ≤ n.toInt * 1000) :
    command.family.past n now = true := by
  cases command with
  | expireAt => exact decide_eq_true (le_div_mul h (hfits rfl))
  | expire | pExpire =>
    rw [ExpireCommand.requested] at h
    refine decide_eq_true (le_iff_toInt_le.mpr ?_)
    rw [toInt_zero]
    omega
  | pExpireAt => exact decide_eq_true (le_iff_toInt_le.mpr h)

/-- `PTTL` says so, and no read finds anything. -/
def Missing (now : Int64) (s : Stored env) : Prop := s.getTtlMs now = -2 ∧ s.FindsNothing now

theorem getTtlMs_of_not_valid (h : (s.isValid now).1 = false) : s.getTtlMs now = -2 := by
  rw [isValid_fst] at h
  rw [getTtlMs]
  cases hm : s.metadata with
  | none => rfl
  | some m =>
    rw [hm, Option.any_some, Bool.not_eq_false'] at h
    dsimp only
    rw [h, if_pos rfl]

theorem missing_iff_blank : Missing now s ↔ (s.isValid now).1 = false ∧ s.Blank :=
  ⟨fun h => findsNothing_iff.mp h.2,
    fun h => ⟨getTtlMs_of_not_valid h.1, findsNothing_iff.mpr h⟩⟩

theorem blank_withMetadata (metadata : Option KeyMetadata) (s : Stored env) :
    Stored.Blank { s with metadata } ↔ s.Blank :=
  ⟨fun h => ⟨h.data, h.string, h.vector, h.loaded⟩,
    fun h => ⟨h.data, h.string, h.vector, h.loaded⟩⟩

theorem removable_withMetadata (metadata : Option KeyMetadata) (s : Stored env) :
    Stored.Removable { s with metadata } ↔ s.Removable :=
  ⟨fun h => ⟨h.first, h.rocksdb⟩, fun h => ⟨h.first, h.rocksdb⟩⟩

theorem isValid_setExpireMs (ms now : Int64) (s : Stored env) :
    ((s.setExpireMs ms).2.isValid now).1 = false ↔ s.metadata = none ∨ 0 < ms ∧ ms < now := by
  have hexpired : ∀ m : KeyMetadata, (m.setExpireMs ms).isExpired now = true ↔
      0 < ms ∧ ms < now := by
    intro m
    rw [KeyMetadata.isExpired, KeyMetadata.setExpireMs]
    dsimp only
    by_cases hms : ms ≤ 0
    · rw [if_pos hms]
      exact iff_of_false Bool.false_ne_true fun h => Int64.not_le.mpr h.1 hms
    · rw [if_neg hms]
      exact decide_eq_true_iff
  rw [isValid_fst, setExpireMs]
  cases s.metadata with
  | none => exact iff_of_true rfl (.inl rfl)
  | some m =>
    rw [Option.map_some, Option.any_some, Bool.not_eq_false', hexpired m]
    exact ⟨.inr, fun h => h.resolve_left (Option.some_ne_none m)⟩

/-- When the key is treated as missing after a deadline that is not in the future: a key that is
there can be removed and one that is not there has left nothing.  If the deadline is not recognised,
the one that is stored instead has passed. -/
def Lapsed (command : ExpireCommand) (n now : Int64) (s : Stored env) : Prop :=
  if command.family.past n now then
    if (s.isValid now).1 then s.Removable else s.Blank
  else
    (s.metadata = none ∨
      0 < command.family.expireTimeMs n now ∧ command.family.expireTimeMs n now < now) ∧ s.Blank

theorem handleDeadline_key (f : Family) {text : Bytes} (htext : Decimal.strtoll text = some n)
    (now : Int64) (key : Bytes) (db : Store env) :
    (handleDeadline f now [.ofString key .kBulkString, .ofString text .kBulkString] db).2 key =
      if f.past n now then
        if ((db key).isValid now).1 then ((db key).isValid now).2.del.2
        else ((db key).isValid now).2
      else ((db key).setExpireMs (f.expireTimeMs n now)).2 := by
  have hkey : (db.onKey key (isValid now)).2 key = ((db key).isValid now).2 :=
    db.modify_self key fun s => (s.isValid now).2
  have hread : handleDeadline f now [.ofString key .kBulkString, .ofString text .kBulkString] db =
      if f.past n now then
        if ((db key).isValid now).1 then
          (Aof.replyInteger 1, ((db.onKey key (isValid now)).2.del key).2)
        else (Aof.replyInteger 0, (db.onKey key (isValid now)).2)
      else
        (Aof.replyInteger (if (db.setExpireMs key (f.expireTimeMs n now)).1 then 1 else 0),
          (db.setExpireMs key (f.expireTimeMs n now)).2) := by
    unfold handleDeadline
    simp only [CommandArg.ofString, CommandArg.isBulkString, htext]
    rfl
  rw [hread]
  split
  · split
    · rw [Store.del_self, hkey]
    · exact hkey
  · exact db.modify_self key fun s => (s.setExpireMs (f.expireTimeMs n now)).2

theorem missing_iff (command : ExpireCommand) {text : Bytes} (htext : Decimal.strtoll text = some n)
    (now : Int64) (key : Bytes) (db : Store env) :
    Missing now ((command.handler now
        [.ofString key .kBulkString, .ofString text .kBulkString] db).2 key) ↔
      Lapsed command n now (db key) := by
  have hhandler : @ExpireCommand.handler env command = handleDeadline command.family := by
    cases command <;> rfl
  rw [hhandler, handleDeadline_key command.family htext, Lapsed, missing_iff_blank]
  split
  · split
    · rw [blank_del_iff, isValid_snd, removable_withMetadata]
      exact and_iff_right (isValid_del now _)
    · next hvalid =>
      rw [isValid_isValid, isValid_snd, blank_withMetadata]
      exact and_iff_right (Bool.eq_false_iff.mpr hvalid)
  · rw [isValid_setExpireMs]
    exact and_congr_right' (blank_withMetadata _ _)

/-- `PTTL`, and the deadlines that are not in the future. -/
theorem deadlines_iff (now : Int64) (key : Bytes) (db : Store env) :
    (Truthful now (db key) ↔ Regular now (db key)) ∧
      ∀ (command : ExpireCommand) (text : Bytes) (n : Int64), Decimal.strtoll text = some n →
        command.requested n now ≤ now.toInt →
        ((command = .expireAt → -2 ^ 63 ≤ n.toInt * 1000) → command.family.past n now = true) ∧
        (Missing now ((command.handler now
            [.ofString key .kBulkString, .ofString text .kBulkString] db).2 key) ↔
          Lapsed command n now (db key)) :=
  ⟨⟨regular_of_truthful, truthful_of_regular⟩, fun command _ _ htext hrequested =>
    ⟨past_of_requested hrequested, missing_iff command htext now key db⟩⟩

theorem deadlines_iff_expiringString :
    (Truthful 3 (Store.expiringString (ascii "k")) ↔
        Regular 3 (Store.expiringString (ascii "k"))) ∧
      (Missing 3 ((handleExpire 3
          [.ofString (ascii "k") .kBulkString, .ofString (ascii "-1") .kBulkString]
          Store.expiringString).2 (ascii "k")) ↔
        Lapsed .expire (-1) 3 (Store.expiringString (ascii "k"))) := by
  have h := deadlines_iff 3 (ascii "k") Store.expiringString
  exact ⟨h.1, (h.2 .expire (ascii "-1") (-1) (by decide +kernel) (by decide)).2⟩

/-- At its deadline a key is said to have none; and a string that is expired survives. -/
theorem deadlines_fail : (Store.expiringString (ascii "k")).getTtlMs 5 = -1 ∧
      ((handleExpire 10 [.ofString (ascii "k") .kBulkString, .ofString (ascii "0") .kBulkString]
        Store.expiringString).2 (ascii "k")).get.1 = some (ascii "v") := by
  decide +kernel

end Deadlines
