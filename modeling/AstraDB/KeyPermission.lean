/-
Key permissions: which keys a command can touch.

Before a command is executed, its first argument is checked against the key patterns of
the user, unless the command is on a list of exempt ones.

* `touched_permitted_iff` — a command touches permitted keys only, for every user without
  access to all keys, exactly when its first argument is checked and, read as a pattern,
  matches every key that the command touches, or when it touches none.
-/
import AstraDB.Glob
import AstraDB.Keyspace

open Glob CommandRegistry List CommandContext Matches

abbrev keyStar : UInt8 := '*'.toUInt8

namespace AclUser

/-- The key matches one of the patterns of the user. -/
def Permits (user : AclUser) (key : Bytes) : Prop :=
  ∃ p, '~'.toUInt8 :: p ∈ user.keyPatterns ∧ Matches keyStar p key

theorem eq_append_of_take_drop {before after key : Bytes}
    (hlen : before.length + after.length ≤ key.length) (hbefore : key.take before.length = before)
    (hafter : key.drop (key.length - after.length) = after) :
    ∃ mid, key = before ++ (mid ++ after) := by
  refine ⟨(key.drop before.length).take (key.length - after.length - before.length), ?_⟩
  conv_lhs => rw [← take_append_drop before.length key, hbefore,
    ← take_append_drop (key.length - after.length - before.length) (key.drop before.length),
    drop_drop, Nat.add_sub_cancel' (by omega), hafter]

theorem matchesGlob_sound {p key : Bytes} (h : matchesGlob p key = true) :
    Matches keyStar p key := by
  rw [matchesGlob] at h
  split at h
  · next hstar =>
    rw [hstar]
    exact single keyStar key
  · split at h
    · next pos hpos =>
      obtain ⟨hlt, hget, -⟩ := List.idxOf?_eq_some_iff.mp hpos
      simp only [Bool.and_eq_true, decide_eq_true_eq] at h
      obtain ⟨⟨hlen, hbefore⟩, hafter⟩ := h
      obtain ⟨mid, hkey⟩ := eq_append_of_take_drop hlen hbefore hafter
      have hp : p = p.take pos ++ keyStar :: p.drop (pos + 1) := by
        rw [show keyStar = p[pos] from hget.symm, ← drop_eq_getElem_cons hlt,
          take_append_drop]
      -- the parts around the first star stand for themselves, other stars included
      have hmatch := (refl keyStar (p.take pos)).append
        (star mid (refl keyStar (p.drop (pos + 1))))
      rwa [← hp, ← hkey] at hmatch
    · rw [of_decide_eq_true h]
      exact refl keyStar p

theorem matchesGlob_self (p : Bytes) : matchesGlob p p = true := by
  rw [matchesGlob]
  split
  · rfl
  · split
    · next pos hpos =>
      obtain ⟨hlt, -, -⟩ := List.idxOf?_eq_some_iff.mp hpos
      have htake : (p.take pos).length = pos := by
        rw [length_take]
        omega
      have hdrop : p.length - (p.drop (pos + 1)).length = pos + 1 := by
        rw [length_drop]
        omega
      have hle : (p.take pos).length + (p.drop (pos + 1)).length ≤ p.length := by
        rw [htake, length_drop]
        omega
      simp only [htake, hdrop, Bool.and_eq_true, decide_eq_true_eq, and_true]
      rwa [htake] at hle
    · exact decide_eq_true rfl

theorem matchesGlob_nil {p : Bytes} (hp : p ≠ []) (h : matchesGlob p [] = true) :
    p = ascii "*" := by
  rw [matchesGlob] at h
  split at h
  · next hstar => exact hstar
  · next hstar =>
    split at h
    · next pos hpos =>
      obtain ⟨hlt, hget, -⟩ := List.idxOf?_eq_some_iff.mp hpos
      simp only [Bool.and_eq_true, decide_eq_true_eq, length_take, length_drop,
        length_nil] at h
      -- nothing stands before the star and nothing behind it
      have hlen : p.length = 1 := by omega
      obtain ⟨c, rfl⟩ := length_eq_one_iff.mp hlen
      have hpos0 : pos = 0 := by
        rw [length_singleton] at hlt
        omega
      subst hpos0
      rw [getElem_cons_zero] at hget
      rw [hget]
      rfl
    · exact absurd (of_decide_eq_true h).symm hp

theorem matchesPattern_iff {pattern key : Bytes} : matchesPattern pattern key = true ↔
    ∃ p, p ≠ [] ∧ pattern = '~'.toUInt8 :: p ∧ matchesGlob p key = true := by
  unfold matchesPattern
  split
  · next sign c rest =>
    rw [Bool.and_eq_true, decide_eq_true_eq]
    constructor
    · rintro ⟨rfl, h⟩
      exact ⟨_, cons_ne_nil c rest, rfl, h⟩
    · rintro ⟨p, -, heq, h⟩
      obtain ⟨rfl, rfl⟩ := List.cons.inj heq
      exact ⟨rfl, h⟩
  · next hshort =>
    constructor
    · intro h
      cases h
    · rintro ⟨p, hp, rfl, -⟩
      obtain ⟨c, rest, rfl⟩ := exists_cons_of_ne_nil hp
      exact absurd rfl (hshort _ c rest)

theorem Permits.of_mayAccess {user : AclUser} (hall : user.allKeys = false) {key : Bytes}
    (h : user.mayAccess key = true) : user.Permits key := by
  rw [mayAccess, hall] at h
  split at h
  · cases h
  · obtain ⟨pattern, hmem, hpattern⟩ := any_eq_true.mp (by simpa using h)
    obtain ⟨p, -, rfl, hglob⟩ := matchesPattern_iff.mp hpattern
    exact ⟨p, hmem, matchesGlob_sound hglob⟩

theorem Permits.of_mayAccess_nil {user : AclUser} (hall : user.allKeys = false)
    (h : user.mayAccess [] = true) (key : Bytes) : user.Permits key := by
  rw [mayAccess, hall] at h
  split at h
  · cases h
  · obtain ⟨pattern, hmem, hpattern⟩ := any_eq_true.mp (by simpa using h)
    obtain ⟨p, hp, rfl, hglob⟩ := matchesPattern_iff.mp hpattern
    refine ⟨p, hmem, ?_⟩
    rw [matchesGlob_nil hp hglob]
    exact single keyStar key

end AclUser

namespace CommandRegistry

variable {S : Type}

theorem checkKeyPermission_of_permissionError {context : CommandContext} {command : Command}
    {key : Bytes} (hkey : checkedKey command = some key)
    (h : permissionError context command = none) : context.checkKeyPermission key = true := by
  rw [permissionError] at h
  split at h
  · next hnone =>
    rw [checkKeyPermission, Option.isNone_iff_eq_none.mp hnone]
  · split at h
    · cases h
    · rw [hkey] at h
      simp only [Bool.not_eq_true', ite_eq_right_iff, reduceCtorEq, imp_false, Bool.not_eq_false]
        at h
      exact h

theorem permissionError_eq_none {m : AclManager} {username : Bytes} {user : AclUser}
    (huser : m.users username = some user) (hname : username ≠ [])
    (henabled : user.enabled = true) (hcommands : user.commands = [ascii "+@all"])
    {command : Command} (hkey : ∀ key, checkedKey command = some key → user.mayAccess key = true) :
    permissionError ⟨some m, true, username⟩ command = none := by
  have hexec : user.mayExecute command.name = true := by
    rw [AclUser.mayExecute, henabled, hcommands]
    rfl
  have hcommand : checkCommandPermission ⟨some m, true, username⟩ command.name = true := by
    simp only [checkCommandPermission, hname, AclManager.checkCommandPermission, huser,
      hexec]
    simp
  rw [permissionError, hcommand]
  cases hchecked : checkedKey command with
  | none => rfl
  | some key =>
    have hpermitted : checkKeyPermission ⟨some m, true, username⟩ key = true := by
      simp only [checkKeyPermission, hname, AclManager.checkKeyPermission, huser,
        hkey key hchecked]
      simp
    simp only [hpermitted]
    rfl

end CommandRegistry

namespace CommandRegistry

open CommandHandler

variable {V : Type}

/-- What the check of the first argument covers. -/
def Covers (command : Command) (touched : Bytes → Prop) : Prop :=
  match checkedKey command with
  | none => ∀ key, ¬ touched key
  | some arg => arg = [] ∨ ∀ key, touched key → Matches keyStar arg key

theorem permits_of_covers {m : AclManager} {username : Bytes} {user : AclUser}
    (huser : m.users username = some user) (hall : user.allKeys = false) {command : Command}
    (hperm : permissionError ⟨some m, true, username⟩ command = none) {touched : Bytes → Prop}
    (hcovers : Covers command touched) {key : Bytes} (hkey : touched key) : user.Permits key := by
  rw [Covers] at hcovers
  cases hchecked : checkedKey command with
  | none =>
    rw [hchecked] at hcovers
    exact absurd hkey (hcovers key)
  | some arg =>
    rw [hchecked] at hcovers
    have hcheck := checkKeyPermission_of_permissionError hchecked hperm
    have haccess : user.mayAccess arg = true := by
      simp only [checkKeyPermission, AclManager.checkKeyPermission, huser] at hcheck
      split at hcheck
      · cases hcheck
      · exact hcheck
    rcases hcovers with rfl | hcovers
    · exact AclUser.Permits.of_mayAccess_nil hall haccess key
    · -- a pattern of the user matches the argument, and the argument the key
      obtain ⟨p, hmem, hmatch⟩ := AclUser.Permits.of_mayAccess hall haccess
      exact ⟨p, hmem, hmatch.trans (hcovers key hkey)⟩

/-- A user who may execute everything, with one key pattern or none. -/
def probeUser (patterns : List Bytes) : AclUser :=
  { username := ascii "u", commands := [ascii "+@all"], keyPatterns := patterns }

def probeManager (patterns : List Bytes) : AclManager := ⟨fun _ => some (probeUser patterns)⟩

theorem touched_permitted_iff (reg : CommandRegistry (DataView V)) (command : Command)
    (view : DataView V) :
    (∀ m username user entry, m.users username = some user → user.allKeys = false →
        reg.accept ⟨some m, true, username⟩ command = .ok entry →
        ∀ key, Touches entry.handler command view key → user.Permits key) ↔
      ∀ entry, command.name ≠ [] → reg.commands (asciiStrToUpper command.name) = some entry →
        arityOk entry.info.arity command = true →
        Covers command (Touches entry.handler command view) := by
  constructor
  · intro h entry hname hentry harity
    -- probe with a user whose only pattern is the checked argument
    have hprobe : ∀ patterns, (∀ key, checkedKey command = some key →
        (probeUser patterns).mayAccess key = true) →
        ∀ key, Touches entry.handler command view key → (probeUser patterns).Permits key := by
      intro patterns haccess
      refine h (probeManager patterns) (ascii "u") _ entry rfl rfl (accept_eq_ok.mpr ?_)
      exact ⟨hname, hentry, harity,
        permissionError_eq_none rfl (by decide) rfl rfl haccess⟩
    rw [Covers]
    cases hchecked : checkedKey command with
    | none =>
      intro key hkey
      obtain ⟨p, hmem, -⟩ := hprobe [] (fun key hkey => by rw [hchecked] at hkey; cases hkey) key hkey
      cases hmem
    | some arg =>
      by_cases harg : arg = []
      · exact .inl harg
      · refine .inr fun key hkey => ?_
        have haccess : (probeUser ['~'.toUInt8 :: arg]).mayAccess arg = true := by
          have hself : AclUser.matchesPattern ('~'.toUInt8 :: arg) arg = true :=
            AclUser.matchesPattern_iff.mpr ⟨arg, harg, rfl, AclUser.matchesGlob_self arg⟩
          simp [AclUser.mayAccess, probeUser, hself]
        obtain ⟨p, hmem, hmatch⟩ := hprobe ['~'.toUInt8 :: arg]
          (fun key hkey => by rw [hchecked, Option.some.injEq] at hkey; rw [← hkey]; exact haccess)
          key hkey
        rw [(List.cons.inj (mem_singleton.mp hmem)).2] at hmatch
        exact hmatch
  · intro h m username user entry huser hall haccept key hkey
    obtain ⟨hname, hentry, harity, hperm⟩ := accept_eq_ok.mp haccept
    exact permits_of_covers huser hall hperm (h entry hname hentry harity) hkey

/-- A user who may access `a` only deletes `b` with it, and asks whether `b` exists. -/
theorem touched_not_permitted :
    let reg := ((empty : CommandRegistry (DataView Unit)).register ⟨ascii "DEL", -2, .kByFirstKey⟩
      handleDel).register ⟨ascii "EXISTS", -2, .kByFirstKey⟩ handleExists
    let m := AclManager.init.setUser (ascii "alice") [ascii "on", ascii "+@all", ascii "~a"]
    let view : DataView Unit := { self := 0, connectionId := 1, databases := fun _ _ => some () }
    let del : Command := ⟨ascii "DEL", [⟨.kBulkString, ascii "a"⟩, ⟨.kBulkString, ascii "b"⟩]⟩
    let ask : Command := ⟨ascii "EXISTS", [⟨.kBulkString, ascii "b"⟩]⟩
    (∃ user, m.users (ascii "alice") = some user ∧ user.allKeys = false ∧
      ¬ user.Permits (ascii "b")) ∧
    (∃ entry, reg.accept ⟨some m, true, ascii "alice"⟩ del = .ok entry ∧
      Writes entry.handler del view (ascii "b")) ∧
    (∃ entry, reg.accept ⟨some m, true, ascii "alice"⟩ ask = .ok entry ∧
      Reads entry.handler ask view (ascii "b")) := by
  refine ⟨⟨_, rfl, rfl, ?_⟩, ⟨_, rfl, 0, ?_⟩, ⟨_, rfl, 0, none, .inl ?_⟩⟩
  · rintro ⟨p, hmem, hmatch⟩
    rw [(List.cons.inj (mem_singleton.mp hmem)).2] at hmatch
    obtain ⟨v, hb, -⟩ := hmatch.of_cons (by decide)
    exact absurd (List.cons.inj hb).1 (by decide)
  · decide
  · intro h
    cases h

end CommandRegistry
