import VersionedIndex.Index.Insert
import VersionedIndex.Index.Search
import VersionedIndex.Store
import VersionedIndex.Transaction
import VersionedIndex.Tree.Remove

/-! Tables of row versions. Versions live in the index trees only, and every index holds all of
them. Deleting stamps a version and leaves it in place until it is purged. -/

namespace VersionedIndex

structure Table where
  name : String
  columns : List ColumnType
  indexes : List Index
  store : Store
  nextRowId : RowId := 1
deriving DecidableEq, Repr

structure Table.Workspace where
  table : Table
  headers : Headers
  manager : Manager
deriving DecidableEq, Repr

abbrev TableAction (α : Type) : Type := Action Table.Workspace α

namespace Table

def create (name : String) (columns : List ColumnType) (config : StoreConfig) :
    Except Error Table := do
  return { name, columns, indexes := [], store := ← Store.create 0 config }

def index (t : Table) (position : Nat) : Except Error Index :=
  match t.indexes[position]? with
  | some ix => .ok ix
  | none => .error (.indexNotFound (.atPosition t.name position))

def validate (t : Table) (row : Row) : Except Error Unit :=
  if row.length ≠ t.columns.length then
    .error (.columnCountMismatch t.columns.length row.length)
  else
    match (t.columns.zip row).find? fun (type, value) => !type.accepts value with
    | some (type, value) => .error (.typeMismatch type.name value.kindName)
    | none => .ok ()

def validateIndex (t : Table) (ix : Index) : Except Error Unit :=
  ix.order.columns.forM fun c =>
    match t.columns[c.position]? with
    | none => .error (.invalidDefinition
        (.columnRange ix.name c.position t.columns.length t.name))
    | some type =>
      if type = c.type then .ok ()
      else .error (.invalidDefinition
        (.columnType ix.name c.position c.type t.name type))

end Table

namespace TableAction

def onTable {α : Type} (read : Table → Except Error α) : TableAction α :=
  Action.examine fun w => read w.table

def onStore {α : Type} (act : StoreAction α) : TableAction α :=
  Action.zoom (·.table.store) (fun w store => { w with table := { w.table with store } }) act

def onIndex {α : Type} (ix : Index) (act : IndexAction α) : TableAction α :=
  Action.zoom (fun _ => ix)
    (fun w ix => { w with table :=
      { w.table with indexes := w.table.indexes.set ix.position ix } }) act

def treeOf (ix : Index) : TableAction Tree := onTable (·.store.tree ix)

def scanAll (see : Option Visibility) (position : Nat) : TableAction (List Version) := do
  let ix ← onTable (·.index position)
  let tree ← treeOf ix
  let cursor ← onIndex ix (Index.first see tree)
  return cursor.drain see tree

def visibility (txn : Transaction) : TableAction Visibility :=
  modifyGet fun w => (txn.visibility w.manager w.headers, w)

def ensureActive (txn : Transaction) : TableAction Unit :=
  Action.examine fun w => txn.ensureActive w.manager

def fill (ix : Index) : List Version → TableAction Unit
  | [] => pure ()
  | v :: rest => do
    onStore (Store.onTree ix (ix.insert none v))
    fill ix rest

/-- Adds an index and fills it with every stored version; returns its position. When a version
cannot go in, the new tree is dropped again. -/
def addIndex (d : IndexDefinition) (config : IndexConfig) : TableAction Nat := do
  let position := (← get).table.indexes.length
  let ix ← onTable fun _ => Index.create d position config
  onTable (·.validateIndex ix)
  onStore (modify (·.addTree))
  if position ≠ 0 then
    let versions ← scanAll none 0
    try
      fill ix versions
    catch e =>
      onStore (modify (·.truncate position))
      throw e
  modify fun w => { w with table := { w.table with indexes := w.table.indexes ++ [ix] } }
  return position

def withdraw (v : Version) : List Index → TableAction Unit
  | [] => pure ()
  | ix :: rest => do
    try
      discard (onStore (Store.onTree ix (TreeAction.removeRow v.id)))
    catch _ => pure ()
    withdraw v rest

def insertInto (txn : Transaction) (v : Version) (done : List Index) :
    List Index → TableAction Unit
  | [] => pure ()
  | ix :: rest => do
    let see ← visibility txn
    try
      onStore (Store.onTree ix (ix.insert (some see) v))
    catch e =>
      withdraw v done
      throw e
    insertInto txn v (done ++ [ix]) rest

/-- Inserts a new version of a row into every index. Its id is used up even if that fails. -/
def insert (txn : Transaction) (row : Row) : TableAction Version := do
  ensureActive txn
  onTable (·.validate row)
  let table := (← get).table
  if table.indexes.isEmpty then
    throw (.indexNotFound (.anyOf table.name))
  let v ← modifyGet fun w =>
    let (v, headers) := w.headers.create w.table.nextRowId row txn.xid
    (v, { w with headers, table := { w.table with nextRowId := w.table.nextRowId + 1 } })
  insertInto txn v [] table.indexes
  return v

def delete (txn : Transaction) (v : Version) : TableAction Unit := do
  ensureActive txn
  let w ← get
  match w.headers.markDeleted v txn.xid w.manager.isAborted with
  | .ok headers => set { w with headers }
  | .error _ => throw (.writeConflict v.id)

def update (txn : Transaction) (v : Version) (row : Row) : TableAction Version := do
  let deletedBefore := (← get).headers.deleter? v = some txn.xid
  delete txn v
  try
    insert txn row
  catch e =>
    if !deletedBefore then
      modify fun w => { w with headers := w.headers.clearDeleted v txn.xid }
    throw e

def scan (txn : Transaction) (position : Nat) : TableAction (List Version) := do
  scanAll (some (← visibility txn)) position

def find (txn : Transaction) (position : Nat) (key : List Value) :
    TableAction (List Version) := do
  let ix ← onTable (·.index position)
  let see ← visibility txn
  let tree ← treeOf ix
  let cursor ← onTable fun _ => ix.find (some see) tree key key.length (.byKey .equal) false
  return (cursor.drain (some see) tree).takeWhile fun v =>
    ix.order.compareKey (KeyOrder.pick key ix.defaultMap key.length) v.data == .eq

def lookup (id : RowId) : TableAction (Option Version) := do
  return (← scanAll none 0).find? (·.id == id)

end TableAction

end VersionedIndex
