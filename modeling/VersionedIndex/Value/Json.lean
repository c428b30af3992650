import VersionedIndex.Json
import VersionedIndex.Value

namespace VersionedIndex

namespace Value

def tagged (kind : String) (content : Json) : Json := .object [(.ofText kind, content)]

def toJson : Value → Json
  | null => .ofText "Null"
  | boolean b => tagged "Boolean" (.bool b)
  | bigint i => tagged "BigInt" (.ofInt i.toInt)
  | double d => tagged "Double" (if d.isFinite then .number (.ofDouble d) else .null)
  | varchar s => tagged "Varchar" (.ofText s)
  | binary bytes => tagged "Binary" (.array (bytes.map fun b => .ofInt b.toNat))
  | date d => tagged "Date" (.ofInt d.toInt)
  | timestamp t => tagged "Timestamp" (.ofInt t.toInt)

def int64? (j : Json) : Option Int64 :=
  (j.intWithin? Int64.minValue.toInt Int64.maxValue.toInt).map Int64.ofInt

def int32? (j : Json) : Option Int32 :=
  (j.intWithin? Int32.minValue.toInt Int32.maxValue.toInt).map Int32.ofInt

def byte? (j : Json) : Option UInt8 := (j.intWithin? 0 255).map fun i => .ofNat i.toNat

def double? : Json → Option Double
  | .number n => n.toDouble?
  | _ => none

def bytes? : Json → Option (List UInt8)
  | .array items => items.mapM byte?
  | .string s => some s.bytes
  | _ => none

def ofTagged? (kind : String) (content : Json) : Option Value :=
  match kind, content with
  | "Null", .null => some null
  | "Boolean", j => j.bool?.map boolean
  | "BigInt", j => (int64? j).map bigint
  | "Double", j => (double? j).map double
  | "Varchar", j => j.text?.map varchar
  | "Binary", j => (bytes? j).map binary
  | "Date", j => (int32? j).map date
  | "Timestamp", j => (int64? j).map timestamp
  | _, _ => none

def ofJson? : Json → Option Value
  | .object [(key, content)] => do ofTagged? (← key.text?) content
  | .string s => if s.text? = some "Null" then some null else none
  | _ => none

end Value

end VersionedIndex
