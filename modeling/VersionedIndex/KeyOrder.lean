import VersionedIndex.Value.Order
import VersionedIndex.Version
import VersionedIndex.Error

namespace VersionedIndex

structure KeyColumn where
  position : Nat
  type : ColumnType
  descending : Bool := false
  nullsLast : Bool := false
deriving DecidableEq, Repr

namespace KeyColumn

def isPlain (c : KeyColumn) : Bool := !c.descending && !c.nullsLast

def value (c : KeyColumn) (row : Row) : Value := row.column c.position

/-- The order of two values in index order. The descending flag turns only values against values,
the nulls-last flag only a NULL against a value. -/
def compare (c : KeyColumn) (a b : Value) : Ordering :=
  let natural := c.type.compare a b
  if (if a.isNull || b.isNull then c.nullsLast else c.descending) then natural.swap else natural

def compareRows : List KeyColumn → Row → Row → Ordering
  | [], _, _ => .eq
  | c :: cs, a, b => (c.compare (c.value a) (c.value b)).then (compareRows cs a b)

def compareKey : List KeyColumn → List Value → Row → Ordering
  | c :: cs, v :: key, row => (c.compare v (c.value row)).then (compareKey cs key row)
  | _, _, _ => .eq

def compareNatural : List KeyColumn → Row → List Value → Ordering
  | c :: cs, row, v :: key => (c.type.compare (c.value row) v).then (compareNatural cs row key)
  | _, _, _ => .eq

def ofLists : List Nat → List ColumnType → List Bool → List Bool → List KeyColumn
  | p :: ps, t :: ts, d :: ds, n :: ns => ⟨p, t, d, n⟩ :: ofLists ps ts ds ns
  | _, _, _, _ => []

end KeyColumn

structure KeyOrder where
  leading : KeyColumn
  others : List KeyColumn
deriving DecidableEq, Repr

namespace KeyOrder

def columns (o : KeyOrder) : List KeyColumn := o.leading :: o.others

def ofLists (positions : List Nat) (types : List ColumnType) (descending nullsLast : List Bool) :
    Except DefinitionFault KeyOrder :=
  let unequal := DefinitionFault.unequalLengths positions.length types.length descending.length
    nullsLast.length
  match KeyColumn.ofLists positions types descending nullsLast with
  | [] => .error (if positions.isEmpty then .noKeyColumns else unequal)
  | c :: cs =>
    if types.length = positions.length ∧ descending.length = positions.length ∧
        nullsLast.length = positions.length
    then .ok ⟨c, cs⟩
    else .error unequal

def positions (o : KeyOrder) : List Nat := o.columns.map (·.position)

def size (o : KeyOrder) : Nat := o.columns.length

def isPlain (o : KeyOrder) : Bool := o.columns.all (·.isPlain)

def compareRows (o : KeyOrder) (a b : Row) : Ordering := KeyColumn.compareRows o.columns a b

def compareVersions (o : KeyOrder) (a b : Version) (useRowId : Bool) (start : Nat := 0) : Ordering :=
  (KeyColumn.compareRows (o.columns.drop start) a.data b.data).then
    (if useRowId then compare a.id b.id else .eq)

/-- A search key against a row in index order. A key shorter than the index's compares as far as
it goes, and what exceeds the index's key is left out. -/
def compareKey (o : KeyOrder) (key : List Value) (row : Row) : Ordering :=
  KeyColumn.compareKey o.columns key row

def compareNatural (o : KeyOrder) (row : Row) (key : List Value) : Ordering :=
  KeyColumn.compareNatural o.columns row key

def compareValue (o : KeyOrder) (j : Nat) (value : Value) (row : Row) : Ordering :=
  match o.columns[j]? with
  | some c => c.compare value (c.value row)
  | none => .eq

def pick (row : Row) (map : List Nat) (count : Nat) : List Value :=
  (map.take count).map row.column

def keyOf (o : KeyOrder) (row : Row) (count : Nat) : List Value := pick row o.positions count

def hasNull (o : KeyOrder) (row : Row) : Bool := o.columns.any fun c => (c.value row).isNull

end KeyOrder

end VersionedIndex
