/-
Snapshot files: `RdbWriter` and `RdbReader`.

`Write` appends to the file and to the running CRC32C; what the methods of the writer write
is given as the list of the data of these calls, in order.  The reader streams a CRC over
the buffers that it fills.  A read past the end of the file sets `eofbit` besides
`failbit`, and so `Read` returns true: the variables that are read into keep what they
held (`SourceReader`), and strings the zeros that they were made of.

The loops of `Load` take fuel, as on a file that ends too early they need not end.  The
entries that are handed to the callback are returned.  Opening and renaming files and logging
are left out; the machine is little-endian.
-/
import AstraDB.Endian
import AstraDB.RespBuilder
import AstraDB.ShortReads

open Endian SourceReader

structure RdbEnv extends BuilderEnv where
  /-- `absl::ExtendCrc32c`. -/
  extendCrc32c : UInt32 → Bytes → UInt32

namespace Rdb

def opcodeEof : UInt8 := 0xFF
def opcodeSelectDb : UInt8 := 0xFE
def opcodeExpireTimeMs : UInt8 := 0xFD
def opcodeResizeDb : UInt8 := 0xFB
def opcodeAux : UInt8 := 0xFA

def version : UInt8 := 10

def magic : Bytes := ascii "REDIS"

end Rdb

structure RdbKeyValue where
  type : UInt8
  key : Bytes
  value : Bytes
  /-- the absolute time at which it expires, in milliseconds -/
  expireMs : Int64
  deriving DecidableEq, Repr

namespace RdbWriter

open Rdb

def writeLength (len : UInt64) : List Bytes :=
  if len < 0x40 then [[len.toUInt8]]
  else if len < 0x4000 then
    let v := len.toUInt16 ||| 0x4000
    [[(v >>> 8).toUInt8], [v.toUInt8]]
  else [[0x80], bigEndian 8 len.toNat]

def writeString (str : Bytes) : List Bytes := writeLength (UInt64.ofNat str.length) ++ [str]

def writeAux (key value : Bytes) : List Bytes := [opcodeAux] :: (writeString key ++ writeString value)

def selectDb (dbNum : Int32) : List Bytes :=
  [opcodeSelectDb] :: writeLength dbNum.toInt64.toUInt64

def resizeDb (dbSize expiresSize : UInt64) : List Bytes :=
  [opcodeResizeDb] :: (writeLength dbSize ++ writeLength expiresSize)

def writeKv (kv : RdbKeyValue) : List Bytes :=
  (if 0 ≤ kv.expireMs then [[opcodeExpireTimeMs], littleEndian 8 kv.expireMs.toUInt64.toNat]
    else []) ++
    [kv.type] :: (writeString kv.key ++ writeString kv.value)

/-- What a `save_callback` may call. -/
inductive Call
  | selectDb (dbNum : Int32)
  | resizeDb (dbSize expiresSize : UInt64)
  | writeKv (kv : RdbKeyValue)

def Call.writes : Call → List Bytes
  | .selectDb dbNum => RdbWriter.selectDb dbNum
  | .resizeDb dbSize expiresSize => RdbWriter.resizeDb dbSize expiresSize
  | .writeKv kv => RdbWriter.writeKv kv

def Call.currentDb : Call → Int32 → Int32
  | .selectDb dbNum, _ => dbNum
  | _, currentDb => currentDb

def Call.entry : Call → Option RdbKeyValue
  | .writeKv kv => some kv
  | _ => none

variable (env : RdbEnv)

/-- What `Save` writes before it calls the callback. -/
def writePreamble (unixSeconds : Int64) : List Bytes :=
  [magic, [version]] ++ writeAux (ascii "redis-ver") (ascii "6.0.0") ++
    writeAux (ascii "redis-bits") (ascii "64") ++ writeAux (ascii "ctime") (env.strCat unixSeconds)

/-- The content of the file that `Save` leaves. -/
def save (checksum : Bool) (unixSeconds : Int64) (calls : List Call) : Bytes :=
  let written := writePreamble env unixSeconds ++ calls.flatMap Call.writes ++ [[opcodeEof]]
  written.flatten ++
    if checksum then littleEndian 4 (written.foldl env.extendCrc32c 0).toNat else []

end RdbWriter

abbrev RdbReader (α : Type) := SourceReader UInt8 UInt32 α

/-- The database number and the entry of a call of the callback. -/
abbrev RdbDelivery := Int32 × RdbKeyValue

namespace RdbReader

open Rdb

variable (env : RdbEnv)

def readByte : RdbReader UInt8 := do
  let data ← fillNew env.extendCrc32c 1
  pure (data.headD 0)

def readOpcode : RdbReader UInt8 := readByte env

def readHeader : RdbReader Bool := do
  let data ← fillNew env.extendCrc32c 5
  if data ≠ magic then pure false
  else
    let v ← readByte env
    pure (decide (v = version))

def readLength : RdbReader UInt64 := do
  let first ← readByte env
  if first < 0x40 then pure first.toUInt64
  else if first < 0x80 then
    let second ← readByte env
    let v := first.toUInt16 <<< 8 ||| second.toUInt16
    pure (v &&& 0x3FFF).toUInt64
  else
    let second ← readByte env
    if second ≠ 0x80 then
      let third ← readByte env
      pure (second.toUInt64 <<< 8 ||| third.toUInt64)
    else pure 0

def readString : RdbReader Bytes := do
  let len ← readLength env
  if len = 0 then pure []
  else fill env.extendCrc32c (List.replicate len.toNat 0)

def readUint64 : RdbReader UInt64 := do
  let data ← fillNew env.extendCrc32c 8
  pure (UInt64.ofNat (ofLittleEndian data))

/-- The entry for the callback, if it is called. -/
def readKeyValue (type : UInt8) (expireMs : Int64) : RdbReader (Option RdbKeyValue) := do
  let key ← readString env
  if key = [] then pure none
  else
    let value ← readString env
    if value = [] then pure none
    else pure (some ⟨type, key, value, expireMs⟩)

/-- The next opcode that is not of an auxiliary field. -/
def readAuxFields : ℕ → RdbReader UInt8
  | 0 => fun _ => none
  | fuel + 1 => do
    let opcode ← readOpcode env
    if opcode = opcodeEof then pure opcode
    else if opcode ≠ opcodeAux then pure opcode
    else
      let _ ← readString env
      let _ ← readString env
      readAuxFields fuel

/-- What the loop of `Load` does for an opcode other than the one of the end: the database
that is current then, and the entry for the callback. -/
def readSection (opcode : UInt8) (currentDb : Int32) : RdbReader (Int32 × Option RdbKeyValue) := do
  if opcode = opcodeSelectDb then
    let len ← readLength env
    pure (len.toUInt32.toInt32, none)
  else if opcode = opcodeResizeDb then
    let _ ← readLength env
    let _ ← readLength env
    pure (currentDb, none)
  else if opcode = opcodeExpireTimeMs then
    let exp ← readUint64 env
    let type ← readOpcode env
    let kv ← readKeyValue env type exp.toInt64
    pure (currentDb, kv)
  else
    let kv ← readKeyValue env opcode (-1)
    pure (currentDb, kv)

/-- The loop of `Load`, which has called the callback with `delivered`. -/
def readSections : ℕ → UInt8 → Int32 → List RdbDelivery → RdbReader (List RdbDelivery)
  | 0, _, _, _ => fun _ => none
  | fuel + 1, opcode, currentDb, delivered =>
    if opcode = opcodeEof then pure delivered
    else do
      let (currentDb', kv) ← readSection env opcode currentDb
      let opcode ← readOpcode env
      readSections fuel opcode currentDb' (delivered ++ (kv.map (currentDb, ·)).toList)

/-- The checksum of the file is not part of the sum. -/
def verifyChecksum : RdbReader Bool := do
  let data ← fillNew (fun crc _ => crc) 4
  let computed := (← get).sum
  pure (decide (ofLittleEndian data = computed.toNat))

def loadFile (fuel : ℕ) (verify : Bool) : RdbReader (Bool × List RdbDelivery) := do
  if !(← readHeader env) then pure (false, [])
  else
    let opcode ← readAuxFields env fuel
    let delivered ← readSections env fuel opcode 0 []
    if !verify then pure (true, delivered)
    else
      let verified ← verifyChecksum
      pure (verified, delivered)

/-- `Load`: what it returns, and the calls of the callback. -/
def load (fuel : ℕ) (verify : Bool) (file stale : Bytes) : Option (Bool × List RdbDelivery) :=
  (loadFile env fuel verify ⟨file, stale, 0⟩).map (·.1)

/-- A sum of the bytes in the place of the CRC. -/
def simpleRdb : RdbEnv :=
  { RespBuilder.simpleBuilder with
    extendCrc32c := fun sum data => data.foldl (fun sum b => sum + b.toUInt32) sum }

end RdbReader
