import VersionedIndex.Config
import VersionedIndex.KeyOrder
import VersionedIndex.Tree.Walk
import VersionedIndex.Visibility

namespace VersionedIndex

structure IndexDefinition where
  name : String
  persistenceId : Nat
  columns : List Nat
  types : List ColumnType
  descending : List Bool
  nullsLast : List Bool
  primaryKey : Bool := false
  unique : Bool := false
  constraint : Option String := none
  forward : Bool := false
deriving DecidableEq, Repr

namespace IndexDefinition

def plain (name : String) (persistenceId : Nat) (columns : List Nat) (types : List ColumnType) :
    IndexDefinition where
  name
  persistenceId
  columns
  types
  descending := columns.map fun _ => false
  nullsLast := columns.map fun _ => false

def asPrimaryKey (d : IndexDefinition) : IndexDefinition :=
  { d with primaryKey := true, unique := true }

end IndexDefinition

/-- An index: its name, order and rules, its position among the indexes of a table, and the length
of the leftmost path that the last forward scan went down (0 before the first one). -/
structure Index where
  name : String
  persistenceId : Nat
  order : KeyOrder
  primaryKey : Bool
  unique : Bool
  constraint : Option String
  forward : Bool
  position : Nat
  config : IndexConfig
  scanDepth : Nat := 0
deriving DecidableEq, Repr

abbrev IndexAction (α : Type) : Type := Action Index α

namespace Index

def create (d : IndexDefinition) (position : Nat) (config : IndexConfig) : Except Error Index :=
  match KeyOrder.ofLists d.columns d.types d.descending d.nullsLast with
  | .error fault => .error (.invalidDefinition fault)
  | .ok order => .ok {
      name := d.name
      persistenceId := d.persistenceId
      order
      primaryKey := d.primaryKey
      unique := d.unique
      constraint := d.constraint
      forward := d.forward
      position
      config }

def isConstraint (ix : Index) : Bool := ix.constraint.isSome

def isSimple (ix : Index) : Bool := ix.order.isPlain && ix.order.size == 1

def defaultMap (ix : Index) : List Nat := List.range ix.order.size

def orderValue (ix : Index) : Nat :=
  if ix.primaryKey then 0
  else if ix.isConstraint then
    if ix.forward then 4 else if ix.unique then 0 else 1
  else 2

def skipUnreadable (see : Option Visibility) (mode : ReadMode) (side : Side) (t : Tree) :
    Nat → Option NodeId → Except Error (Option NodeId)
  | _, none => .ok none
  | 0, some _ => .error Tree.endless
  | steps + 1, some id => do
    if Visibility.admits see mode (← t.version id) then
      return some id
    else
      skipUnreadable see mode side t steps (← t.neighbour side id)

def readableFrom (see : Option Visibility) (t : Tree) (side : Side) (node : Option NodeId) :
    Except Error (Option NodeId) :=
  match see with
  | none => .ok node
  | some _ => skipUnreadable see .read side t (t.slots.size + 1) node

def readableAfter (see : Option Visibility) (t : Tree) (side : Side) (id : NodeId) :
    Except Error (Option NodeId) := do
  readableFrom see t side (← t.neighbour side id)

end Index

end VersionedIndex
