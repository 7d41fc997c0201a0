/-
Reply framing: when what is sent for a command is exactly one RESP value.

`Reply` is the grammar of RESP.  A value that ends with its line is one reply only if the
line holds no CR LF, and errors and simple strings are such lines: the name of an unknown
command, the key of a refused access or whatever text a handler returns goes into them as
it is.

* `execute_reply_iff` — when `DataShard::Execute` sends one reply, in terms of the command, the
  address of the other node and what the handler returns.
-/
import AstraDB.DataShard

open CRLF RespBuilder List

/-- A line without CR LF inside. -/
def Unbroken (line : Bytes) : Prop := ∀ i, ¬ CRLFAt line i

/-- The RESP values. -/
inductive Reply : Bytes → Prop
  | simpleString {str : Bytes} (hstr : Unbroken str) : Reply ('+'.toUInt8 :: (str ++ crlf))
  | error {msg : Bytes} (hmsg : Unbroken msg) : Reply ('-'.toUInt8 :: (msg ++ crlf))
  | integer (num : ℤ) : Reply (':'.toUInt8 :: (Decimal.text num ++ crlf))
  | bulkString (str : Bytes) :
      Reply ('$'.toUInt8 :: (Decimal.text str.length ++ crlf ++ str ++ crlf))
  | nullBulkString : Reply buildNullBulkString
  | array {elems : List Bytes} (helems : ∀ e ∈ elems, Reply e) :
      Reply ('*'.toUInt8 :: (Decimal.text elems.length ++ crlf ++ elems.flatten))
  | nullArray : Reply buildNullArray
  | boolean (b : Bool) : Reply (buildBoolean b)
  | double {text : Bytes} (htext : Unbroken text) : Reply (','.toUInt8 :: (text ++ crlf))
  | null : Reply buildNull
  | map {entries : List (Bytes × Bytes)} (hkeys : ∀ e ∈ entries, Reply e.1)
      (hvalues : ∀ e ∈ entries, Reply e.2) :
      Reply ('%'.toUInt8 :: (Decimal.text entries.length ++ crlf ++
        (entries.map fun e => e.1 ++ e.2).flatten))

theorem reply_line_iff {type : UInt8} (htype : type = '+'.toUInt8 ∨ type = '-'.toUInt8)
    (line : Bytes) : Reply (type :: (line ++ crlf)) ↔ Unbroken line := by
  constructor
  · intro h
    generalize heq : type :: (line ++ crlf) = b at h
    cases h with
    | simpleString hstr =>
      rw [append_cancel_right (List.cons.inj heq).2]
      exact hstr
    | error hmsg =>
      rw [append_cancel_right (List.cons.inj heq).2]
      exact hmsg
    -- the other values start with other bytes
    | _ =>
      exfalso
      have := (List.cons.inj heq).1
      rcases htype with rfl | rfl <;> exact absurd this (by decide)
  · intro h
    rcases htype with rfl | rfl
    · exact .simpleString h
    · exact .error h

/-- The text of a `double` is a line. -/
def BuilderEnv.WritesLine (env : BuilderEnv) : Prop := ∀ num, Unbroken (env.strCatDouble num)

namespace RespValue

/-- Values whose lines hold no CR LF, at any depth, of the sizes that a `std::string` or a
container can have. -/
inductive Clean : RespValue → Prop
  | ofType (type : RespType) : Clean (.ofType type)
  | ofString {str : Bytes} {type : RespType} (hlen : str.length < 2 ^ 63)
      (hstr : type = .kSimpleString ∨ type = .kError → Unbroken str) : Clean (.ofString str type)
  | ofInteger (num : Int64) : Clean (.ofInteger num)
  | ofDouble (num : Double) : Clean (.ofDouble num)
  | ofBool (b : Bool) : Clean (.ofBool b)
  | ofArray {arr : List RespValue} (hlen : arr.length < 2 ^ 63) (harr : ∀ v ∈ arr, Clean v) :
      Clean (.ofArray arr)
  | ofMap {map : List (Bytes × RespValue)} (hlen : map.length < 2 ^ 63)
      (hkeys : ∀ e ∈ map, e.1.length < 2 ^ 63) (hvalues : ∀ e ∈ map, Clean e.2) :
      Clean (.ofMap map)

/-- The values inside are clean. -/
def CleanInside : RespValue → Prop
  | .ofString str _ => str.length < 2 ^ 63
  | .ofArray arr => arr.length < 2 ^ 63 ∧ ∀ v ∈ arr, Clean v
  | .ofMap map => map.length < 2 ^ 63 ∧ (∀ e ∈ map, e.1.length < 2 ^ 63) ∧ ∀ e ∈ map, Clean e.2
  | _ => True

/-- The value is not a line with CR LF. -/
def UnbrokenLine : RespValue → Prop
  | .ofString str .kSimpleString => Unbroken str
  | .ofString str .kError => Unbroken str
  | _ => True

end RespValue

section Build

variable {env : BuilderEnv}

section

variable (henv : env.WritesDecimal)
include henv

theorem strCat_size {n : ℕ} (hn : n < 2 ^ 63) :
    env.strCat (Int64.ofNat n) = Decimal.text n := by
  rw [henv, (toInt_ofNat_size hn).1]

theorem reply_buildBulkString {str : Bytes} (hlen : str.length < 2 ^ 63) :
    Reply (buildBulkString env str) := by
  rw [buildBulkString, strCat_size henv hlen]
  exact .bulkString str

theorem reply_build_string (hline : env.WritesLine) {str : Bytes}
    (hlen : str.length < 2 ^ 63) (type : RespType) :
    Reply (build env (.ofString str type)) ↔ (RespValue.ofString str type).UnbrokenLine := by
  rw [build]
  cases type with
  | kSimpleString => exact reply_line_iff (.inl rfl) str
  | kError => exact reply_line_iff (.inr rfl) str
  | kInteger =>
    rw [buildAs, henv]
    exact iff_of_true (.integer _) trivial
  | kBulkString => exact iff_of_true (reply_buildBulkString henv hlen) trivial
  | kArray =>
    rw [buildAs, buildArray, strCat_size henv (show 0 < 2 ^ 63 by decide)]
    exact iff_of_true (@Reply.array [] (by simp)) trivial
  | kBoolean => exact iff_of_true (.boolean false) trivial
  | kDouble => exact iff_of_true (.double (hline _)) trivial
  | kNullArray => exact iff_of_true .nullArray trivial
  | kNull => exact iff_of_true .null trivial
  | kMap =>
    rw [buildAs, buildMap, strCat_size henv (show 0 < 2 ^ 63 by decide)]
    exact iff_of_true (@Reply.map [] (by simp) (by simp)) trivial
  | _ => exact iff_of_true .nullBulkString trivial

theorem reply_build_type (hline : env.WritesLine) (type : RespType) :
    Reply (build env (.ofType type)) := by
  -- as with the empty text
  refine (reply_build_string henv hline (show ([] : Bytes).length < 2 ^ 63 by decide) type).mpr ?_
  cases type <;> first | exact trivial | exact not_crlfAt_of_notMem not_mem_nil

end

theorem buildElements_eq (arr : List RespValue) :
    buildElements env arr = (arr.map (build env)).flatten := by
  induction arr with
  | nil => rfl
  | cons v arr ih => rw [buildElements, ih, map_cons, flatten_cons]

theorem buildEntries_eq (map : List (Bytes × RespValue)) :
    buildEntries env map =
      ((map.map fun e => (buildBulkString env e.1, build env e.2)).map fun e => e.1 ++ e.2).flatten := by
  induction map with
  | nil => rfl
  | cons e map ih =>
    rw [buildEntries, ih]
    rfl

section

variable (henv : env.WritesDecimal)
include henv

theorem reply_build_array {arr : List RespValue}
    (hlen : arr.length < 2 ^ 63) (harr : ∀ v ∈ arr, Reply (build env v)) :
    Reply (build env (.ofArray arr)) := by
  rw [build, buildAs, buildArray, strCat_size henv hlen, buildElements_eq,
    ← length_map (build env)]
  exact .array (forall_mem_map.mpr harr)

theorem reply_build_map {map : List (Bytes × RespValue)}
    (hlen : map.length < 2 ^ 63) (hkeys : ∀ e ∈ map, e.1.length < 2 ^ 63)
    (hvalues : ∀ e ∈ map, Reply (build env e.2)) : Reply (build env (.ofMap map)) := by
  rw [build, buildAs, buildMap, strCat_size henv hlen, buildEntries_eq,
    ← length_map fun e : Bytes × RespValue => (buildBulkString env e.1, build env e.2)]
  refine .map (forall_mem_map.mpr fun e he => ?_) (forall_mem_map.mpr hvalues)
  exact reply_buildBulkString henv (hkeys e he)

theorem RespValue.Clean.reply (hline : env.WritesLine) {v : RespValue}
    (hv : v.Clean) : Reply (build env v) := by
  induction hv with
  | ofType type => exact reply_build_type henv hline type
  | @ofString str type hlen hstr =>
    refine (reply_build_string henv hline hlen type).mpr ?_
    cases type <;> first | exact trivial | exact hstr (by simp)
  | ofInteger num =>
    rw [build, buildAs, henv]
    exact .integer _
  | ofDouble num => exact .double (hline num)
  | ofBool b => exact .boolean b
  | ofArray hlen _ ih => exact reply_build_array henv hlen ih
  | ofMap hlen hkeys _ ih => exact reply_build_map henv hlen hkeys ih

theorem reply_build_iff (hline : env.WritesLine) {v : RespValue}
    (hv : v.CleanInside) : Reply (build env v) ↔ v.UnbrokenLine := by
  cases v with
  | ofString str type => exact reply_build_string henv hline hv type
  | ofType type => exact iff_of_true (reply_build_type henv hline type) trivial
  | ofInteger num => exact iff_of_true ((RespValue.Clean.ofInteger num).reply henv hline) trivial
  | ofDouble num => exact iff_of_true ((RespValue.Clean.ofDouble num).reply henv hline) trivial
  | ofBool b => exact iff_of_true ((RespValue.Clean.ofBool b).reply henv hline) trivial
  | ofArray arr =>
    exact iff_of_true (reply_build_array henv hv.1 fun w hw => (hv.2 w hw).reply henv hline) trivial
  | ofMap map =>
    exact iff_of_true
      (reply_build_map henv hv.1 hv.2.1 fun e he => (hv.2.2 e he).reply henv hline) trivial

end

end Build

theorem unbroken_quoted {before after : Bytes} (hbefore : cr ∉ before) (hafter : lf ∉ after)
    (text : Bytes) : Unbroken (before ++ text ++ after) ↔ Unbroken text := by
  rw [Unbroken, not_crlfAt_append_right hafter, not_crlfAt_append_left hbefore]
  rfl

theorem asciiToUpper_eq_iff {c d : UInt8} (hd : d < 'A'.toUInt8) : asciiToUpper c = d ↔ c = d := by
  rw [asciiToUpper]
  split
  · next hc =>
    -- a small letter, which becomes a capital one
    have ha : 'a'.toUInt8.toNat = 97 := rfl
    have hA : 'A'.toUInt8.toNat = 65 := rfl
    rw [UInt8.lt_iff_toNat_lt, hA] at hd
    rw [UInt8.le_iff_toNat_le, ha] at hc
    have hsub : (c - 32).toNat = c.toNat - 32 :=
      UInt8.toNat_sub_of_le c 32 (UInt8.le_iff_toNat_le.mpr (show 32 ≤ c.toNat by omega))
    constructor
    · rintro rfl
      omega
    · rintro rfl
      omega
  · rfl

theorem unbroken_upper (text : Bytes) : Unbroken (asciiStrToUpper text) ↔ Unbroken text := by
  have hat : ∀ i, CRLFAt (asciiStrToUpper text) i ↔ CRLFAt text i := by
    intro i
    simp only [CRLFAt, asciiStrToUpper, List.getElem?_map, Option.map_eq_some_iff,
      asciiToUpper_eq_iff (show cr < 'A'.toUInt8 by decide),
      asciiToUpper_eq_iff (show lf < 'A'.toUInt8 by decide), exists_eq_right]
  exact forall_congr' fun i => not_congr (hat i)

/-- The bytes of the client that are in the text of a refusal. -/
def CommandRegistry.Refusal.quoted (command : Command) : CommandRegistry.Refusal → Bytes
  | .emptyName => []
  | .unknownCommand => command.name
  | .wrongArity => command.name
  | .noCommandPermission => command.name
  | .noKeyPermission key => key

theorem unbroken_refusal (command : Command) (refusal : CommandRegistry.Refusal) :
    Unbroken (refusal.text command) ↔ Unbroken (refusal.quoted command) := by
  cases refusal with
  | emptyName =>
    exact iff_of_true
      (not_crlfAt_of_notMem (show cr ∉ ascii "ERR empty command name" by decide))
      (not_crlfAt_of_notMem not_mem_nil)
  | wrongArity => exact (unbroken_quoted (by decide) (by decide) _).trans (unbroken_upper _)
  | unknownCommand | noCommandPermission | noKeyPermission =>
    exact unbroken_quoted (by decide) (by decide) _

theorem reply_moved_iff {env : BuilderEnv} (henv : env.WritesDecimal) (slot : ℕ) (ip : Bytes)
    (port : UInt16) : Reply (buildMoved env slot ip port) ↔ Unbroken ip := by
  have hslot : cr ∉ ascii "MOVED " ++ env.strCat (Int64.ofNat slot) ++ ascii " " := by
    rw [henv, mem_append, mem_append, not_or, not_or]
    exact ⟨⟨by decide, Decimal.cr_notMem_text _⟩, by decide⟩
  have hport : lf ∉ ascii ":" ++ env.strCat (Int64.ofNat port.toNat) := by
    rw [henv, mem_append, not_or]
    exact ⟨by decide, Decimal.lf_notMem_text _⟩
  rw [buildMoved, buildError, reply_line_iff (.inr rfl), append_assoc _ (ascii ":")]
  exact unbroken_quoted hslot hport ip

/-- The line that is sent for the outcome of a handler, if it is one, holds no CR LF. -/
def HandlerOutcome.UnbrokenReply : HandlerOutcome → Prop
  | .returns result =>
    if result.success then result.response.UnbrokenLine else Unbroken result.error
  | .throws what => Unbroken what
  | .throwsOther => True

namespace DataShard

variable {S : Type} {env : BuilderEnv}

theorem reply_buildResult_iff (henv : env.WritesDecimal) (hline : env.WritesLine)
    {handler : CommandHandler S} {command : Command} {s : S}
    (hinside : ∀ result s', handler command s = (.returns result, s') →
      result.response.CleanInside) :
    Reply (buildResult env (CommandRegistry.callHandler handler command s).1) ↔
      (handler command s).1.UnbrokenReply := by
  rw [CommandRegistry.callHandler]
  rcases hout : handler command s with ⟨result | what | _, s'⟩
  · simp only [buildResult, HandlerOutcome.UnbrokenReply]
    cases result.success
    · exact reply_line_iff (.inr rfl) _
    · exact reply_build_iff henv hline (hinside result s' hout)
  · refine (reply_line_iff (.inr rfl) (ascii "ERR " ++ what)).trans ?_
    exact not_crlfAt_append_left (by decide) what
  · refine iff_of_true ((reply_line_iff (.inr rfl) _).mpr ?_) trivial
    exact not_crlfAt_of_notMem (show cr ∉ ascii "ERR unknown error" by decide)

/-- The bytes that `execute` puts into a line hold no CR LF. -/
def UnbrokenLines (cluster : S → ClusterView) (context : S → CommandContext)
    (reg : CommandRegistry S) (command : Command) (s : S) : Prop :=
  match if (cluster s).enabled then redirection (cluster s) command else none with
  | some (_, node) => Unbroken node.ip
  | none =>
    match reg.accept (context s) command with
    | .error refusal => Unbroken (refusal.quoted command)
    | .ok entry => (entry.handler command s).1.UnbrokenReply

/-- What is sent is one reply exactly when the bytes that go into a line hold no CR LF: the
address of the node that the command is redirected to, the name or key of a command that
is refused, or the text that the handler returns. -/
theorem execute_reply_iff (env : BuilderEnv) (henv : env.WritesDecimal) (hline : env.WritesLine)
    (cluster : S → ClusterView) (context : S → CommandContext) (reg : CommandRegistry S)
    (command : Command) (s : S)
    (hinside : ∀ entry result s', reg.accept (context s) command = .ok entry →
      entry.handler command s = (.returns result, s') → result.response.CleanInside) :
    Reply (execute env cluster context reg command s).1 ↔
      UnbrokenLines cluster context reg command s := by
  have hslot : (if (cluster s).enabled then checkClusterSlot env (cluster s) command else none) =
      (if (cluster s).enabled then redirection (cluster s) command else none).map
        fun moved => buildMoved env moved.1 moved.2.ip (dataPort moved.2) := by
    split
    · rfl
    · rfl
  rw [execute, hslot, UnbrokenLines]
  rcases if (cluster s).enabled then redirection (cluster s) command else none with
    _ | ⟨slot, node⟩
  · simp only [Option.map_none, CommandRegistry.execute]
    rcases haccept : reg.accept (context s) command with refusal | entry
    · exact (reply_line_iff (.inr rfl) _).trans (unbroken_refusal command refusal)
    · exact reply_buildResult_iff henv hline fun result s' => hinside entry result s' haccept
  · exact reply_moved_iff henv slot node.ip (dataPort node)

theorem simpleBuilder_writesLine : simpleBuilder.WritesLine :=
  fun _ => not_crlfAt_of_notMem not_mem_nil

def pingRegistry : CommandRegistry Unit :=
  CommandRegistry.empty.register ⟨ascii "PING", 1, .kNone⟩ handlePing

theorem execute_reply_ping :
    Reply (execute simpleBuilder (fun _ => {}) (fun _ => ⟨none, false, []⟩) pingRegistry
      ⟨ascii "ping", []⟩ ()).1 := by
  refine (execute_reply_iff simpleBuilder (fun _ => rfl) simpleBuilder_writesLine (fun _ => {})
    (fun _ => ⟨none, false, []⟩) pingRegistry ⟨ascii "ping", []⟩ () ?_).mpr ?_
  · rintro entry result s' ⟨⟩ ⟨⟩
    exact show 4 < 2 ^ 63 by decide
  · exact not_crlfAt_of_notMem (show cr ∉ ascii "PONG" by decide)

/-- The name of an unknown command with a reply inside. -/
theorem execute_reply_forged :
    let sent := (execute simpleBuilder (fun _ => {}) (fun _ => ⟨none, false, []⟩) pingRegistry
      ⟨ascii "X'\r\n+OK\r\n-", []⟩ ()).1
    sent = ascii "-ERR unknown command 'X'\r\n" ++ ascii "+OK\r\n" ++ ascii "-'\r\n" ∧
      Reply (ascii "-ERR unknown command 'X'\r\n") ∧ Reply (ascii "+OK\r\n") ∧
      Reply (ascii "-'\r\n") ∧ ¬ Reply sent := by
  have hone : Unbroken (ascii "ERR unknown command 'X'") := not_crlfAt_of_notMem (by decide)
  have htwo : Unbroken (ascii "OK") := not_crlfAt_of_notMem (by decide)
  have hthree : Unbroken (ascii "'") := not_crlfAt_of_notMem (by decide)
  refine ⟨by decide, (reply_line_iff (.inr rfl) _).mpr hone,
    (reply_line_iff (.inl rfl) _).mpr htwo, (reply_line_iff (.inr rfl) _).mpr hthree, ?_⟩
  intro h
  have hline := (reply_line_iff (.inr rfl) (ascii "ERR unknown command 'X'\r\n+OK\r\n-'")).mp h
  exact hline 23 (by decide)

end DataShard
