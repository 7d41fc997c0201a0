/-
Passwords: what is left of a password after it has been revoked.

`>p` appends a password to a list, `<p` takes one copy of it out, and `SetPassword(q)`
is `>q`.  So how many copies of a password there are is all that counts
(`count_applyOp`).

* `authenticate_revoked_iff` — a revoked password is refused exactly when as many copies
  are taken out as there were, or the list is cleared.
-/
import AstraDB.AclManager

open List

/-- What is done to the passwords of a user: a rule of `SetUser`, or `SetPassword`. -/
inductive PasswordOp
  /-- the rule `>p` -/
  | add (p : Bytes)
  /-- the rule `<p` -/
  | remove (p : Bytes)
  | nopass
  | resetpass
  | setPassword (q : Bytes)
  deriving DecidableEq, Repr

namespace PasswordOp

def rule : PasswordOp → Bytes
  | add p => '>'.toUInt8 :: p
  | remove p => '<'.toUInt8 :: p
  | nopass => ascii "nopass"
  | resetpass => ascii "resetpass"
  | setPassword q => if q = [] then ascii "nopass" else '>'.toUInt8 :: q

def run (username : Bytes) (m : AclManager) : PasswordOp → AclManager
  | setPassword q => m.setPassword username q
  | op => m.setUser username [op.rule]

def Revokes (p : Bytes) : PasswordOp → Prop
  | remove q => q = p
  | setPassword q => q ≠ p
  | _ => False

def Adds (p : Bytes) : PasswordOp → Prop
  | add q => q = p
  | setPassword q => q = p
  | _ => False

def clears : PasswordOp → Bool
  | nopass => true
  | resetpass => true
  | setPassword q => q = []
  | _ => false

/-- The operation takes a copy of `p` out.  The rule `<` alone does nothing. -/
def takes (p : Bytes) : PasswordOp → Bool
  | remove q => q = p ∧ q ≠ []
  | _ => false

theorem Revokes.not_adds {p : Bytes} {op : PasswordOp} (h : op.Revokes p) : ¬ op.Adds p := by
  cases op with
  | remove q => exact not_false
  | setPassword q => exact h
  | _ => exact h.elim

theorem run_eq_setUser (username : Bytes) (m : AclManager) (op : PasswordOp) :
    run username m op = m.setUser username [op.rule] := by
  cases op <;> rfl

end PasswordOp

namespace AclUser

open PasswordOp

theorem applyRule_add (user : AclUser) {p : Bytes} (hp : p ≠ []) :
    user.applyRule ('>'.toUInt8 :: p) =
      { user with noPassword := false, passwords := user.passwords ++ [p] } := by
  obtain ⟨c, suffix, rfl⟩ := exists_cons_of_ne_nil hp
  rw [applyRule_eq_applySigned (by decide) (fun h => absurd (List.cons.inj h).1 (by decide))
    (fun h => absurd (List.cons.inj h).1 (by decide))]
  rfl

theorem applyRule_remove (user : AclUser) {p : Bytes} (hp : p ≠ []) :
    user.applyRule ('<'.toUInt8 :: p) = { user with passwords := user.passwords.erase p } := by
  obtain ⟨c, suffix, rfl⟩ := exists_cons_of_ne_nil hp
  rw [applyRule_eq_applySigned (by decide) (fun h => absurd (List.cons.inj h).1 (by decide))
    (fun h => absurd (List.cons.inj h).1 (by decide))]
  rfl

@[simp] theorem enabled_applyOp (user : AclUser) (op : PasswordOp) :
    (user.applyRule op.rule).enabled = user.enabled := by
  have hadd : ∀ q, (user.applyRule ('>'.toUInt8 :: q)).enabled = user.enabled := by
    intro q
    by_cases hq : q = []
    · rw [hq]
      rfl
    · rw [applyRule_add user hq]
  cases op with
  | add q => exact hadd q
  | remove q =>
    by_cases hq : q = []
    · rw [rule, hq]
      rfl
    · rw [rule, applyRule_remove user hq]
  | nopass | resetpass => rfl
  | setPassword q =>
    rw [rule]
    split
    · rfl
    · exact hadd q

/-- An operation that does not add `p` forgets all passwords, takes a copy of `p` out, or
leaves the copies of `p` alone. -/
theorem count_applyOp (user : AclUser) {op : PasswordOp} {p : Bytes} (hop : ¬ op.Adds p) :
    (user.applyRule op.rule).passwords.count p =
      if op.clears then 0 else user.passwords.count p - if op.takes p then 1 else 0 := by
  have hadd : ∀ q, q ≠ p →
      (user.applyRule ('>'.toUInt8 :: q)).passwords.count p = user.passwords.count p := by
    intro q hqp
    by_cases hq : q = []
    · rw [hq]
      rfl
    · rw [applyRule_add user hq, count_append, count_singleton,
        if_neg (by simpa using hqp), Nat.add_zero]
  cases op with
  | add q => exact hadd q hop
  | remove q =>
    by_cases hq : q = []
    · rw [rule, hq]
      simp [clears, takes]
      rfl
    · rw [rule, applyRule_remove user hq, count_erase]
      simp [clears, takes, hq]
  | nopass | resetpass => rfl
  | setPassword q =>
    by_cases hq : q = []
    · rw [rule, if_pos hq, clears, if_pos (decide_eq_true hq)]
      rfl
    · rw [rule, if_neg hq, clears, if_neg (by simpa using hq)]
      exact hadd q hop

@[simp] theorem enabled_applyOps (ops : List PasswordOp) (user : AclUser) :
    ((ops.map rule).foldl applyRule user).enabled = user.enabled := by
  induction ops generalizing user with
  | nil => rfl
  | cons op ops ih => rw [map_cons, foldl_cons, ih, enabled_applyOp]

theorem count_applyOps {p : Bytes} (ops : List PasswordOp) (hops : ∀ op ∈ ops, ¬ op.Adds p)
    (user : AclUser) : ((ops.map rule).foldl applyRule user).passwords.count p =
      if ops.any clears then 0 else user.passwords.count p - ops.countP (takes p) := by
  induction ops generalizing user with
  | nil => rfl
  | cons op ops ih =>
    rw [forall_mem_cons] at hops
    rw [map_cons, foldl_cons, ih hops.2, count_applyOp user hops.1, any_cons,
      countP_cons]
    cases op.clears
    · simp only [Bool.false_or, Bool.false_eq_true, if_false]
      split
      · rfl
      · omega
    · simp

end AclUser

namespace AclManager

open PasswordOp

theorem users_run {username : Bytes} (ops : List PasswordOp) {m : AclManager} {user : AclUser}
    (huser : m.users username = some user) : (ops.foldl (run username) m).users username =
      some ((ops.map rule).foldl AclUser.applyRule user) := by
  induction ops generalizing m user with
  | nil => exact huser
  | cons op ops ih =>
    rw [foldl_cons, run_eq_setUser, ih (setUser_users huser _)]
    rfl

/-- After a revocation of `p`, and until it is added again, `p` is refused exactly when
all passwords have been forgotten, or every copy of `p` has been taken out. -/
theorem authenticate_revoked_iff (m : AclManager) (username p : Bytes) (user : AclUser)
    (huser : m.users username = some user) (henabled : user.enabled = true)
    (revoke : PasswordOp) (later : List PasswordOp)
    (hrevoke : revoke.Revokes p) (hlater : ∀ op ∈ later, ¬ op.Adds p)
    (hnopass : ∀ user', ((revoke :: later).foldl (run username) m).users username = some user' →
      user'.noPassword = false) :
    ((revoke :: later).foldl (run username) m).authenticate username p = false ↔
      (revoke :: later).any clears = true ∨
        user.passwords.count p ≤ (revoke :: later).countP (takes p) := by
  have hops : ∀ op ∈ revoke :: later, ¬ op.Adds p :=
    forall_mem_cons.mpr ⟨hrevoke.not_adds, hlater⟩
  generalize hgen : revoke :: later = ops at hnopass hops ⊢
  have husers := users_run ops huser
  have hcount := AclUser.count_applyOps ops hops user
  have henabled' := (AclUser.enabled_applyOps ops user).trans henabled
  rw [authenticate, husers]
  simp only [AclUser.accepts, henabled', hnopass _ husers, Bool.not_true, Bool.false_eq_true,
    if_false]
  rw [contains_eq_mem, decide_eq_false_iff_not, ← count_eq_zero, hcount]
  split
  · next hclears => simp [hclears]
  · next hclears => simp [hclears, Nat.sub_eq_zero_iff_le]

theorem authenticate_one_copy :
    let m := init.setUser (ascii "alice") [ascii "on", ascii ">secret"]
    ([remove (ascii "secret")].foldl (run (ascii "alice")) m).authenticate (ascii "alice")
      (ascii "secret") = false :=
  (authenticate_revoked_iff _ (ascii "alice") (ascii "secret")
    { username := ascii "alice", passwords := [ascii "secret"] } rfl rfl (remove (ascii "secret")) []
    rfl (by simp) (by rintro _ ⟨⟩; rfl)).mpr (by decide)

/-- Two copies and one `<secret`; and one copy, which `SetPassword` leaves where it is. -/
theorem authenticate_revoked :
    let m := init.setUser (ascii "alice") [ascii "on", ascii ">secret"]
    ([add (ascii "secret"), remove (ascii "secret")].foldl (run (ascii "alice")) m).authenticate
      (ascii "alice") (ascii "secret") = true ∧
    ([PasswordOp.setPassword (ascii "other")].foldl (run (ascii "alice")) m).authenticate
      (ascii "alice") (ascii "secret") = true := by
  decide

end AclManager
