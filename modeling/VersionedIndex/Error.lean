import VersionedIndex.Version

namespace VersionedIndex

abbrev NodeId := Nat

inductive Side where
  | left
  | right
deriving DecidableEq, Repr

namespace Side

def flip : Side → Side
  | left => right
  | right => left

def name : Side → String
  | left => "left"
  | right => "right"

@[simp] theorem flip_flip (s : Side) : s.flip.flip = s := by cases s <;> rfl

end Side

inductive Inconsistency where
  | danglingNode (node : NodeId)
  | missingChild (node : NodeId) (side : Side)
  | badBalance (node : NodeId) (balance : Int8)
  | orphanPredecessor (node : NodeId)
  | endlessWalk
  | reported (detail : String)
deriving DecidableEq, Repr

inductive DefinitionFault where
  | noKeyColumns
  | unequalLengths (columns types descending nullsLast : Nat)
  | columnType (index : String) (column : Nat) (declared : ColumnType) (table : String)
      (actual : ColumnType)
  | columnRange (index : String) (column width : Nat) (table : String)
  | reported (detail : String)
deriving DecidableEq, Repr

inductive MissingIndex where
  | named (index : String)
  | atPosition (table : String) (position : Nat)
  | anyOf (table : String)
deriving DecidableEq, Repr

inductive ConfigFault where
  | capacity (given limit : Nat)
  | reported (detail : String)
deriving DecidableEq, Repr

inductive Error where
  | duplicateKey (index : String) (constraint : Option String)
  | pendingDuplicate (index : String)
  | inconsistent (cause : Inconsistency)
  | invalidDefinition (fault : DefinitionFault)
  | indexNotFound (missing : MissingIndex)
  | typeMismatch (expected actual : String)
  | columnCountMismatch (expected actual : Nat)
  | writeConflict (row : RowId)
  | transactionClosed (xid : Xid)
  | invalidConfig (fault : ConfigFault)
  | internal (detail : String)
deriving DecidableEq, Repr

def Inconsistency.message : Inconsistency → String
  | danglingNode n => s!"dangling node handle #{n}"
  | missingChild n side => s!"node #{n} has no {side.name} child during rebalance"
  | badBalance n balance => s!"node #{n} has balance {balance.toInt} during rebalance"
  | orphanPredecessor n => s!"predecessor #{n} has no parent"
  | endlessWalk => "the walk along the links does not end"
  | reported detail => detail

def DefinitionFault.message : DefinitionFault → String
  | noKeyColumns => "index has no key columns"
  | unequalLengths columns types descending nullsLast =>
    s!"column arrays differ in length: columns={columns}, types={types}, " ++
      s!"descending={descending}, nulls_last={nullsLast}"
  | columnType index column declared table actual =>
    s!"index {index} declares column {column} as {declared.name}, " ++
      s!"table {table} has {actual.name}"
  | columnRange index column width table =>
    s!"index {index} refers to column {column} of {width}-column table {table}"
  | reported detail => detail

def MissingIndex.message : MissingIndex → String
  | named index => index
  | atPosition table position => s!"{table}[{position}]"
  | anyOf table => s!"{table} has no index"

def ConfigFault.message : ConfigFault → String
  | capacity given limit => s!"initial_node_capacity {given} exceeds {limit}"
  | reported detail => detail

namespace Error

def message : Error → String
  | duplicateKey index none => s!"Duplicate key in unique index {index}"
  | duplicateKey index (some constraint) =>
    s!"Unique constraint violation: {constraint} (index {index})"
  | pendingDuplicate index =>
    s!"Possible duplicate key in index {index}: conflicting version is not yet committed"
  | inconsistent cause => s!"Internal inconsistency: {cause.message}"
  | invalidDefinition fault => s!"Invalid index definition: {fault.message}"
  | indexNotFound missing => s!"Index not found: {missing.message}"
  | typeMismatch expected actual => s!"Type mismatch: expected {expected}, got {actual}"
  | columnCountMismatch expected actual =>
    s!"Column count mismatch: expected {expected}, got {actual}"
  | writeConflict row => s!"Write conflict on row {row}"
  | transactionClosed xid => s!"Transaction {xid} is no longer active"
  | invalidConfig fault => s!"Configuration error: {fault.message}"
  | internal detail => s!"Internal error: {detail}"

def isDuplicate : Error → Bool
  | duplicateKey _ _ | pendingDuplicate _ => true
  | _ => false

end Error

end VersionedIndex
