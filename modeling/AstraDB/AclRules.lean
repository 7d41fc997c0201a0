/-
Command rules: what a user may execute after a sequence of `+@all`, `-@all`, `+CMD` and
`-CMD`.

The rules read as an order: the last one that matches a command decides.  `SetUser` drops
what was stored when it meets an `@all` rule and appends otherwise, and
`CheckCommandPermission` then looks for the kinds of rules one after the other.

* `checkCommandPermission_iff` — when the last rule that matches decides.
-/
import AstraDB.AclManager
import Mathlib.Data.List.Induction

open List

/-- A rule `+@all`, `-@all`, `+CMD` or `-CMD`. -/
structure CommandRule where
  plus : Bool
  name : Bytes
  name_ne_nil : name ≠ []

namespace CommandRule

def sign (r : CommandRule) : UInt8 := if r.plus then '+'.toUInt8 else '-'.toUInt8

def text (r : CommandRule) : Bytes := r.sign :: r.name

def isAll (r : CommandRule) : Bool := r.name = ascii "@all"

/-- The rule is about the command: it names it, in any letter case, or it is about all. -/
def isAbout (command : Bytes) (r : CommandRule) : Bool :=
  r.isAll || asciiStrToUpper r.name = asciiStrToUpper command

/-- The sign of the last rule with a property. -/
def lastSign (p : CommandRule → Bool) (rules : List CommandRule) : Option Bool :=
  (rules.reverse.find? p).map plus

@[simp] theorem lastSign_concat (p : CommandRule → Bool) (rules : List CommandRule)
    (r : CommandRule) :
    lastSign p (rules ++ [r]) = if p r then some r.plus else lastSign p rules := by
  rw [lastSign, reverse_concat, List.find?_cons]
  cases p r <;> rfl

theorem exists_lastSign_of_imp {p q : CommandRule → Bool} (hpq : ∀ r, p r = true → q r = true)
    {rules : List CommandRule} {plus : Bool} (h : lastSign p rules = some plus) :
    ∃ sign, lastSign q rules = some sign := by
  obtain ⟨r, hr, -⟩ := Option.map_eq_some_iff.mp h
  have hsome : (rules.reverse.find? q).isSome = true := by
    rw [List.find?_isSome]
    exact ⟨r, mem_of_find?_eq_some hr, hpq r (List.find?_some hr)⟩
  obtain ⟨r', hr'⟩ := Option.isSome_iff_exists.mp hsome
  exact ⟨r'.plus, by rw [lastSign, hr', Option.map_some]⟩

end CommandRule

namespace AclUser

open CommandRule

variable (user : AclUser) (rules : List CommandRule)
def applyRules : AclUser :=
  (rules.map text).foldl applyRule user

@[simp] theorem applyRules_concat (r : CommandRule) :
    user.applyRules (rules ++ [r]) = (user.applyRules rules).applyRule r.text := by
  simp [applyRules]

variable {r : CommandRule}

theorem text_eq_of_isAll (hr : r.isAll = true) :
    r.text = if r.plus then ascii "+@all" else ascii "-@all" := by
  rw [text, sign, of_decide_eq_true hr]
  cases r.plus <;> rfl

theorem text_ne_of_not_isAll (hr : r.isAll = false) :
    r.text ≠ ascii "+@all" ∧ r.text ≠ ascii "-@all" ∧ r.text ≠ ascii "allcommands" := by
  have hname : r.name ≠ ascii "@all" := of_decide_eq_false hr
  refine ⟨fun h => hname (List.cons.inj h).2, fun h => hname (List.cons.inj h).2, fun h => ?_⟩
  have hsign : r.sign = 'a'.toUInt8 := (List.cons.inj h).1
  rw [sign] at hsign
  split at hsign <;> exact absurd hsign (by decide)

/-- A rule about all replaces what was stored, and any other one is appended. -/
theorem applyRule_of_isAll (hr : r.isAll = true) : user.applyRule r.text = { user with
        commands := [r.text]
        categories := if r.plus then user.categories ++ [ascii "+@all"] else [] } := by
  rw [text_eq_of_isAll hr]
  cases r.plus <;> rfl

theorem applyRule_of_not_isAll (hr : r.isAll = false) : user.applyRule r.text = { user with
        commands := user.commands ++ [r.text]
        categories :=
          if r.name.head? = some '@'.toUInt8 then user.categories ++ [r.text]
          else user.categories } := by
  obtain ⟨c, suffix, hname⟩ := exists_cons_of_ne_nil r.name_ne_nil
  obtain ⟨hplus, hminus, -⟩ := text_ne_of_not_isAll hr
  have hsign : r.sign = '+'.toUInt8 ∨ r.sign = '-'.toUInt8 := by
    rw [sign]
    cases r.plus
    · exact .inr rfl
    · exact .inl rfl
  have hletter : isLetter r.sign = false := by
    rcases hsign with h | h <;> rw [h] <;> decide
  rw [text, hname] at hplus hminus
  rw [text, hname, applyRule_eq_applySigned hletter hplus hminus, applySigned, if_pos hsign]

theorem mayExecute_iff {user : AclUser} (henabled : user.enabled = true) (command : Bytes) :
    user.mayExecute command = true ↔
      ascii "-@all" ∉ user.commands ∧
        (ascii "+@all" ∈ user.commands ∨ ascii "allcommands" ∈ user.commands ∨
          '+'.toUInt8 :: command ∈ user.commands ∨
          ascii "+@all" ∈ user.categories ∨ ascii "allcommands" ∈ user.categories) := by
  rw [mayExecute, henabled]
  by_cases hminus : ascii "-@all" ∈ user.commands
  · simp [hminus]
  · by_cases hplus : ascii "+@all" ∈ user.commands ∨ ascii "allcommands" ∈ user.commands
    · simp only [Bool.not_true, Bool.false_eq_true, if_false, hminus, hplus, if_true, true_iff]
      exact ⟨not_false, hplus.elim .inl fun h => .inr (.inl h)⟩
    · rw [not_or] at hplus
      simp [hminus, hplus]

@[simp] theorem enabled_applyRules : (user.applyRules rules).enabled = user.enabled := by
  induction rules using List.reverseRecOn with
  | nil => rfl
  | append_singleton rules r ih =>
    rw [applyRules_concat]
    cases hr : r.isAll
    · rw [applyRule_of_not_isAll _ hr]
      exact ih
    · rw [applyRule_of_isAll _ hr]
      exact ih

/-- After an `@all` rule, the last one of these is stored, and none of the other sign. -/
theorem commands_of_lastSign_all {plus : Bool} (hlast : lastSign isAll rules = some plus) :
    (if plus then ascii "+@all" else ascii "-@all") ∈ (user.applyRules rules).commands ∧
      (plus = true → ascii "-@all" ∉ (user.applyRules rules).commands) := by
  induction rules using List.reverseRecOn with
  | nil => cases hlast
  | append_singleton rules r ih =>
    rw [lastSign_concat] at hlast
    rw [applyRules_concat]
    cases hr : r.isAll with
    | true =>
      rw [if_pos hr, Option.some.injEq] at hlast
      rw [applyRule_of_isAll _ hr, text_eq_of_isAll hr, hlast]
      refine ⟨mem_singleton_self _, ?_⟩
      rintro rfl
      exact not_mem_cons_of_ne_of_not_mem (by decide) not_mem_nil
    | false =>
      rw [hr, if_neg Bool.false_ne_true] at hlast
      obtain ⟨hmem, hnot⟩ := ih hlast
      rw [applyRule_of_not_isAll _ hr]
      refine ⟨mem_append_left _ hmem, fun hplus => ?_⟩
      simp only [mem_append, mem_singleton, not_or]
      exact ⟨hnot hplus, (text_ne_of_not_isAll hr).2.1.symm⟩

/-- Without one, the rules are appended, and the categories give no more than before. -/
theorem commands_of_no_all (hlast : lastSign isAll rules = none) :
    (user.applyRules rules).commands = user.commands ++ rules.map text ∧
      (∀ w, w = ascii "+@all" ∨ w = ascii "allcommands" →
        (w ∈ (user.applyRules rules).categories ↔ w ∈ user.categories)) ∧
      ∀ w, w = ascii "+@all" ∨ w = ascii "-@all" ∨ w = ascii "allcommands" → w ∉ rules.map text := by
  induction rules using List.reverseRecOn with
  | nil => simp [applyRules]
  | append_singleton rules r ih =>
    rw [lastSign_concat] at hlast
    cases hr : r.isAll with
    | true =>
      rw [if_pos hr] at hlast
      cases hlast
    | false =>
      rw [hr, if_neg Bool.false_ne_true] at hlast
      obtain ⟨hcommands, hcategories, htexts⟩ := ih hlast
      obtain ⟨hplus, hminus, hallcommands⟩ := text_ne_of_not_isAll hr
      rw [applyRules_concat, applyRule_of_not_isAll _ hr, hcommands]
      refine ⟨by simp, fun w hw => ?_, fun w hw => ?_⟩
      · have hne : w ≠ r.text := by
          rcases hw with rfl | rfl
          · exact hplus.symm
          · exact hallcommands.symm
        rw [← hcategories w hw]
        dsimp only
        split <;> simp [hne]
      · have hne : w ≠ r.text := by
          rcases hw with rfl | rfl | rfl
          · exact hplus.symm
          · exact hminus.symm
          · exact hallcommands.symm
        simp [htexts w hw, hne]

theorem mayExecute_applyRules {user : AclUser} (henabled : user.enabled = true)
    (rules : List CommandRule) (command : Bytes) :
    (user.applyRules rules).mayExecute command = true ↔
      match lastSign isAll rules with
      | some plus => plus = true
      | none => user.mayExecute command = true ∨
          ascii "-@all" ∉ user.commands ∧ '+'.toUInt8 :: command ∈ rules.map text := by
  have henabled' : (user.applyRules rules).enabled = true := by rw [enabled_applyRules, henabled]
  rw [mayExecute_iff henabled', mayExecute_iff henabled]
  cases hlast : lastSign isAll rules with
  | some plus =>
    obtain ⟨hmem, hnot⟩ := commands_of_lastSign_all user rules hlast
    cases plus with
    | true => exact ⟨fun _ => rfl, fun _ => ⟨hnot rfl, .inl hmem⟩⟩
    | false => exact ⟨fun h => absurd hmem h.1, fun h => absurd h Bool.false_ne_true⟩
  | none =>
    obtain ⟨hcommands, hcategories, htexts⟩ := commands_of_no_all user rules hlast
    rw [hcommands, hcategories _ (.inl rfl), hcategories _ (.inr rfl)]
    simp only [mem_append, htexts _ (.inl rfl), htexts _ (.inr (.inl rfl)),
      htexts _ (.inr (.inr rfl)), or_false]
    rw [← and_or_left]
    exact and_congr_right fun _ => iff_of_eq (by ac_rfl)

end AclUser

namespace AclManager

open CommandRule

/-- The last rule about a command decides exactly when, with an `@all` rule, it has the
sign of the last of these, and without one, it is a plus rule just when the user could
execute the command before, or is given it by its very name and not kept from all. -/
theorem checkCommandPermission_iff (m : AclManager) (username : Bytes) (user : AclUser)
    (huser : m.users username = some user) (henabled : user.enabled = true)
    (rules : List CommandRule) (command : Bytes) :
    ((m.setUser username (rules.map text)).checkCommandPermission username command = true ↔
        lastSign (isAbout command) rules = some true) ↔
      match lastSign isAll rules with
      | some plus => lastSign (isAbout command) rules = some plus
      | none => (user.mayExecute command = true ∨
          ascii "-@all" ∉ user.commands ∧ '+'.toUInt8 :: command ∈ rules.map text) ↔
            lastSign (isAbout command) rules = some true := by
  have hcheck : (m.setUser username (rules.map text)).checkCommandPermission username command =
      (user.applyRules rules).mayExecute command := by
    rw [checkCommandPermission, setUser_users huser]
    rfl
  rw [hcheck, AclUser.mayExecute_applyRules henabled]
  cases hlast : lastSign isAll rules with
  | none => exact Iff.rfl
  | some plus =>
    -- some rule is about all, so some rule is about the command
    obtain ⟨sign, hsign⟩ := exists_lastSign_of_imp (q := isAbout command)
      (fun r hr => by rw [isAbout, hr, Bool.true_or]) hlast
    rw [hsign]
    cases plus <;> cases sign <;> simp

/-- With `-GET` and `+@all` on a new user, `GET` is allowed, by the last rule. -/
theorem checkCommandPermission_minus_plus_all :
    let rules := [⟨false, ascii "GET", by decide⟩, ⟨true, ascii "@all", by decide⟩]
    let m := init.setUser (ascii "alice") [ascii "on"]
    (m.setUser (ascii "alice") (rules.map text)).checkCommandPermission (ascii "alice")
      (ascii "GET") = true ↔ lastSign (isAbout (ascii "GET")) rules = some true :=
  (checkCommandPermission_iff (init.setUser (ascii "alice") [ascii "on"]) (ascii "alice")
    { username := ascii "alice" } rfl rfl _ (ascii "GET")).mpr rfl

/-- With the rules the other way round, `GET` is allowed against the last rule. -/
theorem checkCommandPermission_plus_all_minus :
    let rules := [⟨true, ascii "@all", by decide⟩, ⟨false, ascii "GET", by decide⟩]
    let m := init.setUser (ascii "alice") [ascii "on"]
    (m.setUser (ascii "alice") (rules.map text)).checkCommandPermission (ascii "alice")
      (ascii "GET") = true ∧ lastSign (isAbout (ascii "GET")) rules = some false := by
  decide

end AclManager
