/-
The RESP parser: `RespParser`.

The source passes the unread bytes as a `std::string_view&`: a function returns a value
or `nullopt` and leaves the view where it stopped.  That is a `Parser UInt8`.  `Parse`
calls itself through `ParseArray`, and is the fixed point of its body `parseStep`.

`FindCRLF` is the one of the build's instruction set, and `absl::SimpleAtod` comes from
outside; both are in the environment `ParserEnv`.  Signed integers wrap around.
-/
import AstraDB.RespTypes

open Parser CRLF

structure ParserEnv where
  /-- `simd::FindCRLF(data, size)`, as an offset from `data`. -/
  findCRLF : Bytes → Option ℕ
  /-- `absl::SimpleAtod`. -/
  simpleAtod : Bytes → Option Double

namespace RespParser

def toCommandArg (value : RespValue) : Option CommandArg :=
  if value.isBulkString then some (.ofString value.asString .kBulkString)
  else if value.isSimpleString then some (.ofString value.asString .kSimpleString)
  else if value.isInteger then some (.ofInteger value.asInteger)
  else if value.isNull then some (.ofType .kNullBulkString)
  else none

def kMaxBeforeMul : Int64 := Int64.maxValue / 10

/-- The loop over the digits, up to CR LF. -/
def digitsLoop : Int64 → Bytes → Option (Int64 × Bytes)
  | _, [] => none
  | value, c :: rest =>
    if c = cr then
      if rest.head? ≠ some lf then none else some (value, rest.tail)
    else if !Decimal.isDigit c then none
    else if kMaxBeforeMul < value then none
    else
      let value := value * 10 + Int64.ofNat (Decimal.digit c)
      if value < 0 then none else digitsLoop value rest

def isNegative (input : Bytes) : Bool := decide (input.head? = some '-'.toUInt8)

def afterSign (input : Bytes) : Bytes := if isNegative input then input.tail else input

def parseIntLineFast (allowNegative : Bool) : Parser UInt8 Int64 := fun input =>
  if isNegative input && !allowNegative then (none, input)
  -- also when the input is empty or ends with the sign
  else if !(afterSign input).head?.any Decimal.isDigit then (none, input)
  else
    match digitsLoop 0 (afterSign input) with
    | none => (none, input)
    | some (value, rest) => (some (if isNegative input then -value else value), rest)

section Parse

variable (env : ParserEnv)

/-- `ReadUntilCRLF`: short inputs are searched by `find`. -/
def readUntilCRLF : Parser UInt8 Bytes := fun data =>
  match if 32 ≤ data.length then env.findCRLF data else firstCRLF data with
  | none => (none, data)
  | some pos => (some (data.take pos), data.drop (pos + 2))

def parseInt (str : Bytes) : Option Int64 := Decimal.fromChars str

def parseDouble (str : Bytes) : Option Double := env.simpleAtod str

def parseSimpleString : Parser UInt8 RespValue := do
  let line ← readUntilCRLF env
  pure (.ofString line .kSimpleString)

def parseError : Parser UInt8 RespValue := do
  let line ← readUntilCRLF env
  pure (.ofString line .kError)

def parseInteger : Parser UInt8 RespValue := do
  let line ← readUntilCRLF env
  let num ← ofOption (parseInt line)
  pure (.ofInteger num)

def parseBulkString : Parser UInt8 RespValue := do
  let line ← readUntilCRLF env
  let len ← ofOption (parseInt line)
  if len = -1 then pure (.ofType .kNullBulkString)
  else if len < 0 then fail
  else do
    -- the two bytes behind the string are not looked at
    let str ← block len.toInt.toNat 2
    pure (.ofString str .kBulkString)

/-- The elements of an array: `for (int i = 0; i < *count; ++i)`. -/
def parseElements (parse : Parser UInt8 RespValue) (count : Int64) :
    Int32 × List RespValue → Parser UInt8 (Int32 × List RespValue) :=
  loop (fun s => decide (s.1.toInt < count.toInt)) fun s => do
    let value ← parse
    pure (s.1 + 1, s.2 ++ [value])

def parseArray (parse : Parser UInt8 RespValue) : Parser UInt8 RespValue := do
  let line ← readUntilCRLF env
  let count ← ofOption (parseInt line)
  if count = -1 then pure (.ofType .kNullArray)
  else if count < 0 then fail
  else do
    let s ← parseElements parse count (0, [])
    pure (.ofArray s.2)

def parseNull : Parser UInt8 RespValue := do
  let line ← readUntilCRLF env
  if line ≠ [] then fail else pure (.ofType .kNull)

def parseBoolean : Parser UInt8 RespValue := do
  let line ← readUntilCRLF env
  if line = ['t'.toUInt8] then pure (.ofBool true)
  else if line = ['f'.toUInt8] then pure (.ofBool false)
  else fail

def parseDoubleValue : Parser UInt8 RespValue := do
  let line ← readUntilCRLF env
  let num ← ofOption (parseDouble env line)
  pure (.ofDouble num)

/-- The `switch` of `Parse`, for `parse` as `Parse` itself. -/
def parseTyped (parse : Parser UInt8 RespValue) (type : UInt8) : Parser UInt8 RespValue :=
  if type = '+'.toUInt8 then parseSimpleString env
  else if type = '-'.toUInt8 then parseError env
  else if type = ':'.toUInt8 then parseInteger env
  else if type = '$'.toUInt8 then parseBulkString env
  else if type = '*'.toUInt8 then parseArray env parse
  else if type = '_'.toUInt8 then parseNull env
  else if type = '#'.toUInt8 then parseBoolean env
  else if type = ','.toUInt8 then parseDoubleValue env
  else fail

/-- The body of `Parse`. -/
def parseStep (parse : Parser UInt8 RespValue) : Parser UInt8 RespValue := do
  let type ← next
  parseTyped env parse type

def parse : Parser UInt8 RespValue :=
  fix (fun (self : Unit → Parser UInt8 RespValue) _ => parseStep env (self ())) ()

def hasCompleteValue (data : Bytes) : Bool := (parse env data).1.isSome

end Parse

def parseCommand (value : RespValue) : Option Command :=
  if !value.isArray || value.arraySize = 0 then none
  else
    match value.asArray with
    | [] => none
    | first :: rest =>
      if !first.isBulkString then none
      else do
        let args ← rest.mapM toCommandArg
        some ⟨first.asString, args⟩

section CommandFromArray

variable (env : ParserEnv)

/-- The payload of a bulk string, here with a look at the CR LF behind it. -/
def bulkPayload (len : ℕ) : Parser UInt8 Bytes := fun working =>
  if working.length < len + 2 then (none, working)
  else if working[len]? ≠ some cr ∨ working[len + 1]? ≠ some lf then (none, working)
  else (some (working.take len), working.drop (len + 2))

/-- An element behind its `'$'`; the first one is the name of the command. -/
def bulkElement (s : Int32 × Command) : Parser UInt8 (Int32 × Command) := do
  let bulkLen64 ← parseIntLineFast true
  if s.1 = 0 ∧ bulkLen64 = -1 then fail
  else if bulkLen64 = -1 then
    pure (s.1 + 1, { s.2 with args := s.2.args ++ [.ofType .kNullBulkString] })
  else if bulkLen64 < 0 then fail
  else do
    let str ← bulkPayload bulkLen64.toInt.toNat
    if s.1 = 0 then pure (s.1 + 1, { s.2 with name := str })
    else pure (s.1 + 1, { s.2 with args := s.2.args ++ [.ofString str .kBulkString] })

/-- An element of any other type. -/
def otherElement (s : Int32 × Command) : Parser UInt8 (Int32 × Command) := do
  let value ← parse env
  if s.1 = 0 then
    if !value.isBulkString then fail
    else pure (s.1 + 1, { s.2 with name := value.asString })
  else do
    let arg ← ofOption (toCommandArg value)
    pure (s.1 + 1, { s.2 with args := s.2.args ++ [arg] })

def commandElement (s : Int32 × Command) : Parser UInt8 (Int32 × Command) := fun working =>
  if working.head? = some '$'.toUInt8 then bulkElement s working.tail
  else otherElement env s working

def commandArray : Parser UInt8 Command := do
  let type ← next
  if type ≠ '*'.toUInt8 then fail
  else do
    let count64 ← parseIntLineFast false
    if count64 ≤ 0 ∨ Int32.maxValue.toInt < count64.toInt then fail
    else do
      let count := count64.toInt32
      let s ← loop (fun s => decide (s.1 < count)) (commandElement env) (0, ⟨[], []⟩)
      pure s.2

/-- `ParseCommandFromArray`: works on a copy of the view. -/
def parseCommandFromArray : Parser UInt8 Command := attempt (commandArray env)

end CommandFromArray

end RespParser
