import VersionedIndex.Double

namespace VersionedIndex

inductive Value where
  | null
  | boolean (value : Bool)
  | bigint (value : Int64)
  | double (value : Double)
  | varchar (text : String)
  | binary (bytes : List UInt8)
  | date (days : Int32)
  | timestamp (micros : Int64)
deriving DecidableEq, Repr

inductive ColumnType where
  | boolean
  | bigint
  | double
  | varchar
  | binary
  | date
  | timestamp
deriving DecidableEq, Repr

namespace ColumnType

def all : List ColumnType := [boolean, bigint, double, varchar, binary, date, timestamp]

def name : ColumnType → String
  | boolean => "BOOLEAN"
  | bigint => "BIGINT"
  | double => "DOUBLE"
  | varchar => "VARCHAR"
  | binary => "BINARY"
  | date => "DATE"
  | timestamp => "TIMESTAMP"

def isNumeric : ColumnType → Bool
  | bigint | double => true
  | _ => false

def isTemporal : ColumnType → Bool
  | date | timestamp => true
  | _ => false

def ofName? (s : String) : Option ColumnType := all.find? (·.name == s)

end ColumnType

namespace Value

def type? : Value → Option ColumnType
  | null => none
  | boolean _ => some .boolean
  | bigint _ => some .bigint
  | double _ => some .double
  | varchar _ => some .varchar
  | binary _ => some .binary
  | date _ => some .date
  | timestamp _ => some .timestamp

def isNull (v : Value) : Bool := v.type?.isNone

def kindName (v : Value) : String :=
  match v.type? with
  | none => "NULL"
  | some t => t.name

def kindRank : Value → Nat
  | null => 0
  | boolean _ => 1
  | bigint _ | double _ => 2
  | varchar _ => 3
  | binary _ => 4
  | date _ => 5
  | timestamp _ => 6

/-- Equality of values as data: values of different kinds differ, and doubles are compared as
numbers, so that a NaN differs from itself. -/
def same : Value → Value → Bool
  | double a, double b => a.sameNumber b
  | a, b => a == b

@[simp] theorem isNull_null : null.isNull = true := rfl

theorem isNull_iff {v : Value} : v.isNull = true ↔ v = null := by
  cases v <;> simp [isNull, type?]

end Value

def ColumnType.accepts (t : ColumnType) (v : Value) : Bool :=
  match v.type? with
  | none => true
  | some s => s == t || (t == .double && s == .bigint)

end VersionedIndex
