/-
The users of the server and what they may do: `AclManager`.

`SetUser` applies a list of rules to a user, in order; the rest of the source reads what
the rules have left behind: `Authenticate` the passwords, `CheckCommandPermission` the
command rules, `CheckKeyPermission` the key patterns.

The hash map of users is a partial function.  `SetUser`, `CreateUser` and `SetPassword`
always return `true`, so they are their effect.  Logging and the listings are left out.
-/
import AstraDB.CRLF

def asciiToUpper (c : UInt8) : UInt8 :=
  if 'a'.toUInt8 ≤ c ∧ c ≤ 'z'.toUInt8 then c - 32 else c

def asciiStrToUpper (s : Bytes) : Bytes := s.map asciiToUpper

structure AclUser where
  username : Bytes
  enabled : Bool := true
  allKeys : Bool := false
  allChannels : Bool := false
  noPassword : Bool := false
  passwords : List Bytes := []
  categories : List Bytes := []
  commands : List Bytes := []
  keyPatterns : List Bytes := []
  channelPatterns : List Bytes := []
  deriving DecidableEq, Repr

namespace AclUser

variable (user : AclUser)

/-- The rules that are a sign and a text: the last branch of the loop of `SetUser`. -/
def applySigned (sign : UInt8) (suffix : Bytes) : AclUser :=
  let rule := sign :: suffix
  if sign = '+'.toUInt8 ∨ sign = '-'.toUInt8 then
    { user with
      commands := user.commands ++ [rule]
      categories :=
        if suffix.head? = some '@'.toUInt8 then user.categories ++ [rule] else user.categories }
  else if sign = '>'.toUInt8 then
    { user with noPassword := false, passwords := user.passwords ++ [suffix] }
  else if sign = '#'.toUInt8 then
    { user with noPassword := false, passwords := user.passwords ++ [suffix] }
  else if sign = '<'.toUInt8 then
    { user with passwords := user.passwords.erase suffix }
  else if sign = '~'.toUInt8 then
    if suffix = ascii "*" then { user with allKeys := true, keyPatterns := [] }
    else { user with keyPatterns := user.keyPatterns ++ [rule] }
  else if sign = '&'.toUInt8 then
    if suffix = ascii "*" then { user with allChannels := true, channelPatterns := [] }
    else { user with channelPatterns := user.channelPatterns ++ [rule] }
  else user

/-- The body of the loop of `SetUser`. -/
def applyRule (rule : Bytes) : AclUser :=
  if rule = ascii "on" then { user with enabled := true }
  else if rule = ascii "off" then { user with enabled := false }
  else if rule = ascii "nopass" then { user with noPassword := true, passwords := [] }
  else if rule = ascii "allkeys" then { user with allKeys := true, keyPatterns := [] }
  else if rule = ascii "allchannels" then { user with allChannels := true, channelPatterns := [] }
  else if rule = ascii "reset" then { username := user.username, enabled := false }
  else if rule = ascii "resetkeys" then { user with allKeys := false, keyPatterns := [] }
  else if rule = ascii "resetchannels" then
    { user with allChannels := false, channelPatterns := [] }
  else if rule = ascii "resetpass" then { user with noPassword := false, passwords := [] }
  else if rule = ascii "allcommands" ∨ rule = ascii "+@all" then
    { user with
      commands := [ascii "+@all"]
      categories := user.categories ++ [ascii "+@all"] }
  else if rule = ascii "nocommands" ∨ rule = ascii "-@all" then
    { user with commands := [ascii "-@all"], categories := [] }
  else
    match rule with
    | sign :: c :: suffix => user.applySigned sign (c :: suffix)
    | _ => user

/-- The checks of `CheckCommandPermission`, after the user has been found. -/
def mayExecute (command : Bytes) : Bool :=
  if !user.enabled then false
  else if ascii "-@all" ∈ user.commands then false
  else if ascii "+@all" ∈ user.commands ∨ ascii "allcommands" ∈ user.commands then true
  else if '+'.toUInt8 :: command ∈ user.commands then true
  else if ascii "+@all" ∈ user.categories ∨ ascii "allcommands" ∈ user.categories then true
  else false

/-- The simple glob matching of `CheckKeyPermission`; only the first star is one. -/
def matchesGlob (patternStr key : Bytes) : Bool :=
  if patternStr = ascii "*" then true
  else
    match patternStr.idxOf? '*'.toUInt8 with
    | some pos =>
      let before := patternStr.take pos
      let after := patternStr.drop (pos + 1)
      before.length + after.length ≤ key.length && key.take before.length = before &&
        key.drop (key.length - after.length) = after
    | none => key = patternStr

/-- One round of the loop of `CheckKeyPermission`. -/
def matchesPattern (pattern key : Bytes) : Bool :=
  match pattern with
  | sign :: c :: rest => sign = '~'.toUInt8 && matchesGlob (c :: rest) key
  | _ => false

/-- The checks of `CheckKeyPermission`, after the user has been found. -/
def mayAccess (key : Bytes) : Bool :=
  if !user.enabled then false
  else if user.allKeys then true
  else user.keyPatterns.any (matchesPattern · key)

/-- The checks of `Authenticate`, after the user has been found. -/
def accepts (password : Bytes) : Bool :=
  if !user.enabled then false
  else if user.noPassword then true
  else user.passwords.contains password

def isLetter (c : UInt8) : Bool := 'a'.toUInt8 ≤ c && c ≤ 'z'.toUInt8

theorem applyRule_eq_applySigned {user : AclUser} {sign c : UInt8} {suffix : Bytes}
    (hsign : isLetter sign = false)
    (hplus : sign :: c :: suffix ≠ ascii "+@all") (hminus : sign :: c :: suffix ≠ ascii "-@all") :
    user.applyRule (sign :: c :: suffix) = user.applySigned sign (c :: suffix) := by
  have hletters : ∀ w ∈ [ascii "on", ascii "off", ascii "nopass", ascii "allkeys",
      ascii "allchannels", ascii "reset", ascii "resetkeys", ascii "resetchannels",
      ascii "resetpass", ascii "allcommands", ascii "nocommands"],
      w.head?.any isLetter = true := by decide
  have hwords := fun w hmem => show sign :: c :: suffix ≠ w by
    rintro rfl
    have hletter := hletters _ hmem
    rw [List.head?_cons, Option.any_some, hsign] at hletter
    exact Bool.false_ne_true hletter
  simp only [List.forall_mem_cons] at hwords
  simp only [applyRule, hwords, hplus, hminus, or_self, if_false]

end AclUser

structure AclManager where
  users : Bytes → Option AclUser

namespace AclManager

/-- `Init`, of a new manager. -/
def init : AclManager where
  users := Function.update (fun _ => none) (ascii "default") <| some
    { username := ascii "default"
      enabled := true
      allKeys := true
      allChannels := true
      noPassword := true
      categories := [ascii "+@all"]
      commands := [ascii "+@all"] }

variable (m : AclManager)

def authenticate (username password : Bytes) : Bool :=
  match m.users username with
  | none => false
  | some user => user.accepts password

def setUser (username : Bytes) (rules : List Bytes) : AclManager where
  users := Function.update m.users username <| some <|
    rules.foldl AclUser.applyRule ((m.users username).getD { username := username, enabled := false })

def createUser (username password : Bytes) (permissions : UInt32) (enabled : Bool) : AclManager :=
  m.setUser username <|
    [if enabled then ascii "on" else ascii "off"] ++
    [if password ≠ [] then '>'.toUInt8 :: password else ascii "nopass"] ++
    if permissions ≠ 0 then [ascii "+@all"] else []

def deleteUser (username : Bytes) : Bool × AclManager :=
  match m.users username with
  | none => (false, m)
  | some _ =>
    if username = ascii "default" then (false, m)
    else (true, ⟨Function.update m.users username none⟩)

def setPassword (username password : Bytes) : AclManager :=
  m.setUser username [if password = [] then ascii "nopass" else '>'.toUInt8 :: password]

def checkCommandPermission (username command : Bytes) : Bool :=
  match m.users username with
  | none => false
  | some user => user.mayExecute command

def checkKeyPermission (username key : Bytes) : Bool :=
  match m.users username with
  | none => false
  | some user => user.mayAccess key

theorem setUser_users {m : AclManager} {username : Bytes} {user : AclUser}
    (h : m.users username = some user) (rules : List Bytes) :
    (m.setUser username rules).users username = some (rules.foldl AclUser.applyRule user) := by
  simp [setUser, h]

end AclManager
