/-
RESP values, command arguments and commands (`resp_types.hpp`).

A `RespValue` of the source holds a type and a variant.  Its constructors and setters
only build the combinations that there are here: a type without content, a string with
any type, and the other alternatives with the one type that belongs to them.

A `double` is its 64-bit pattern, and a hash map is the list of its entries in the order
in which it is iterated over.
-/
import AstraDB.Decimal

inductive RespType
  | kSimpleString
  | kError
  | kInteger
  | kBulkString
  | kArray
  | kNullBulkString
  | kNullArray
  | kBoolean
  | kDouble
  | kBignum
  | kVerbatimString
  | kMap
  | kSet
  | kPush
  | kStreamedString
  | kAttribute
  | kNull
  deriving DecidableEq, Repr

abbrev Double := UInt64

inductive RespValue
  /-- `RespValue(type)`: no content. -/
  | ofType (type : RespType)
  /-- `SetString(str, type)`, and `RespValue(str)` with `kBulkString`. -/
  | ofString (str : Bytes) (type : RespType)
  | ofInteger (num : Int64)
  | ofDouble (num : Double)
  | ofBool (b : Bool)
  | ofArray (arr : List RespValue)
  | ofMap (map : List (Bytes × RespValue))

namespace RespValue

def getType : RespValue → RespType
  | ofType type => type
  | ofString _ type => type
  | ofInteger _ => .kInteger
  | ofDouble _ => .kDouble
  | ofBool _ => .kBoolean
  | ofArray _ => .kArray
  | ofMap _ => .kMap

variable (v : RespValue)

def isNull : Bool :=
  v.getType = .kNull || v.getType = .kNullBulkString || v.getType = .kNullArray

def isSimpleString : Bool := v.getType = .kSimpleString

def isInteger : Bool := v.getType = .kInteger

def isBulkString : Bool := v.getType = .kBulkString

def isArray : Bool := v.getType = .kArray

/-! The accessors fall back to a default on the wrong alternative. -/

def asString : RespValue → Bytes
  | ofString str _ => str
  | _ => []

def asInteger : RespValue → Int64
  | ofInteger num => num
  | _ => 0

def asArray : RespValue → List RespValue
  | ofArray arr => arr
  | _ => []

def arraySize : ℕ := if !v.isArray then 0 else v.asArray.length

end RespValue

structure CommandArg where
  type : RespType
  value : Bytes
  deriving DecidableEq, Repr

namespace CommandArg

def ofType (type : RespType) : CommandArg :=
  ⟨type, if type = .kInteger then ['0'.toUInt8] else []⟩

def ofString (str : Bytes) (type : RespType) : CommandArg := ⟨type, str⟩

def ofInteger (num : Int64) : CommandArg := ⟨.kInteger, Decimal.text num.toInt⟩

end CommandArg

structure Command where
  name : Bytes
  args : List CommandArg
  deriving DecidableEq, Repr
