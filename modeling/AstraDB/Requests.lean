/-
Requests: commands as arrays of bulk strings, and a connection that receives them.

* `doRead_requests` — however the bytes arrive, the commands are enqueued as they were sent, in
  order, and nothing else is done.
-/
import AstraDB.ChunkIndependence
import AstraDB.RespBuilder

open Parser RespParser RespBuilder CRLF List

namespace Connection

/-- A command of bulk strings, of sizes that can be counted. -/
structure Sendable (command : Command) : Prop where
  bulk : ∀ arg ∈ command.args, arg.type = .kBulkString
  size : ∀ str ∈ command.name :: command.args.map (·.value), str.length < 2 ^ 63
  count : command.args.length + 1 < 2 ^ 31

def request (command : Command) : RespValue :=
  .ofArray ((command.name :: command.args.map (·.value)).map (.ofString · .kBulkString))

variable {benv : BuilderEnv} {env : ParserEnv} {command : Command} {commands : List Command}

theorem parse_request (hbenv : benv.WritesDecimal) (henv : env.FindsCRLF) (h : Sendable command)
    (rest : Bytes) :
    parse env (build benv (request command) ++ rest) = (some (request command), rest) := by
  have hlen : (request command).asArray.length < 2 ^ 31 := by
    simpa [request, RespValue.asArray] using h.count
  obtain ⟨-, hne, hnn⟩ := toInt_ofNat_size (hlen.trans (by decide))
  have happ : build benv (request command) ++ rest = '*'.toUInt8 ::
      (benv.strCat (Int64.ofNat (request command).asArray.length) ++ cr :: lf ::
        (buildElements benv (request command).asArray ++ rest)) := by
    simp [request, RespValue.asArray, build, buildAs, buildArray, crlf]
  have hbulks : ∀ v ∈ (request command).asArray, ∀ rest,
      parse env (build benv v ++ rest) = (some v, rest) := by
    intro v hv rest
    obtain ⟨str, hstr, rfl⟩ := mem_map.mp hv
    rw [build]
    exact parse_buildBulkString hbenv henv (h.size str hstr) rest
  have hloop := parseElements_build hlen rest (request command).asArray [] hbulks (Nat.zero_add _)
  rw [nil_append] at hloop
  rw [happ, parse_strCat hbenv henv rfl, if_neg hne, if_neg hnn]
  exact bind_of_some hloop

theorem mapM_toCommandArg {args : List CommandArg} (h : ∀ arg ∈ args, arg.type = .kBulkString) :
    (args.map fun arg => RespValue.ofString arg.value .kBulkString).mapM toCommandArg =
      some args := by
  induction args with
  | nil => rfl
  | cons arg args ih =>
    obtain ⟨harg, hargs⟩ := forall_mem_cons.mp h
    rw [map_cons, mapM_cons, ih hargs]
    obtain ⟨type, value⟩ := arg
    obtain rfl : type = .kBulkString := harg
    rfl

theorem parseCommand_request (h : Sendable command) :
    parseCommand (request command) = some command := by
  simp [parseCommand, request, RespValue.isArray, RespValue.getType, RespValue.arraySize,
    RespValue.asArray, RespValue.isBulkString, RespValue.asString, Function.comp_def,
    mapM_toCommandArg h.bulk]

theorem frame_request (hbenv : benv.WritesDecimal) (henv : env.FindsCRLF) (h : Sendable command)
    (conn : Connection) (rest : Bytes) :
    frame env conn (build benv (request command) ++ rest) =
      (some (conn.enqueueCommand command), rest) := by
  rw [frame, bind_of_some (parse_request hbenv henv h rest), effectOf, parseCommand_request h]
  rfl

theorem drain_requests (hbenv : benv.WritesDecimal) (henv : env.FindsCRLF)
    (h : ∀ command ∈ commands, Sendable command) (conn : Connection) :
    drain (frame env conn) (commands.flatMap (build benv <| request ·)) =
      (commands.map conn.enqueueCommand, []) := by
  induction commands with
  | nil => rfl
  | cons command commands ih =>
    obtain ⟨hcommand, hcommands⟩ := forall_mem_cons.mp h
    rw [flatMap_cons, drain_of_some takes_frame (frame_request hbenv henv hcommand conn _),
      ih hcommands]
    rfl

/-- **Requests.**  Any commands, in any pieces. -/
theorem doRead_requests (hbenv : benv.WritesDecimal) (henv : env.FindsCRLF)
    (h : ∀ command ∈ commands, Sendable command) {chunks : List Bytes}
    (hchunks : chunks.flatten = commands.flatMap (build benv <| request ·))
    (workerId : ℕ) (connId : UInt64) (notifyCallback onCloseCallback : Bool) :
    let conn := accept workerId connId notifyCallback onCloseCallback
    (doRead env conn chunks).2.filter Effect.isReport =
      commands.map conn.enqueueCommand ++ if onCloseCallback then [.close connId] else [] := by
  intro conn
  rw [doRead_eq henv, feed_eq_drain takes_frame (stable_frame henv) rfl, hchunks]
  exact congrArg (·.1 ++ _) (drain_requests hbenv henv h conn)

/-- A `PING` in two pieces. -/
theorem doRead_requests_ping :
    (doRead simpleEnv (accept 0 7 false false) [ascii "*1\r\n$4\r\nPI", ascii "NG\r\n"]).2.filter
      Effect.isReport = [(accept 0 7 false false).enqueueCommand ⟨ascii "PING", []⟩] :=
  @doRead_requests simpleBuilder _ [⟨ascii "PING", []⟩] (fun _ => rfl) simpleEnv_findsCRLF
    (forall_mem_singleton.mpr ⟨nofun, by decide, by decide⟩) _ (by decide) 0 7 false false

end Connection
