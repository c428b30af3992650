import VersionedIndex.Value
import VersionedIndex.Double.Round

namespace VersionedIndex

/-- The exact order of an integer and a double. Rounding the integer to a double keeps the order
except where it creates a tie, and then the double is a whole number that can be compared as one. -/
def Double.compareInt (i : Int64) (d : Double) : Ordering :=
  (totalCompare (ofInt i.toInt) d).then
    (compare (i.toInt * unitsPerOne) d.signedUnits)

namespace ColumnType

def compareOwn : ColumnType → Value → Value → Option Ordering
  | boolean, .boolean a, .boolean b => some (Ord.compare a b)
  | bigint, .bigint a, .bigint b => some (Ord.compare a b)
  | double, .double a, .double b => some (a.totalCompare b)
  | double, .bigint a, .bigint b => some (Ord.compare a b)
  | double, .bigint a, .double b => some (Double.compareInt a b)
  | double, .double a, .bigint b => some (Double.compareInt b a).swap
  | varchar, .varchar a, .varchar b => some (Ord.compare a b)
  | binary, .binary a, .binary b => some (Ord.compare a b)
  | date, .date a, .date b => some (Ord.compare a b)
  | timestamp, .timestamp a, .timestamp b => some (Ord.compare a b)
  | _, _, _ => none

def compare (t : ColumnType) (a b : Value) : Ordering :=
  match a.isNull, b.isNull with
  | true, true => .eq
  | true, false => .lt
  | false, true => .gt
  | false, false => (t.compareOwn a b).getD (Ord.compare a.kindRank b.kindRank)

theorem compare_null_null (t : ColumnType) : t.compare .null .null = .eq := rfl

end ColumnType

end VersionedIndex
