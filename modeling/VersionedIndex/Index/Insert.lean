import VersionedIndex.Index
import VersionedIndex.Tree.Attach

namespace VersionedIndex

namespace Index

def anyEqualToward (ix : Index) (t : Tree) (side : Side) (row : Row) (test : Version → Bool) :
    Nat → Option NodeId → Except Error Bool
  | _, none => .ok false
  | 0, some _ => .error Tree.endless
  | steps + 1, some id => do
    let v ← t.version id
    if ix.order.compareRows row v.data ≠ .eq then
      return false
    else if test v then
      return true
    else
      anyEqualToward ix t side row test steps (← t.neighbour side id)

def anyEqual (ix : Index) (t : Tree) (id : NodeId) (test : Version → Bool) :
    Except Error Bool := do
  let v ← t.version id
  let steps := t.slots.size + 1
  if test v then
    return true
  else if ← ix.anyEqualToward t .left v.data test steps (← t.predecessor id) then
    return true
  else
    ix.anyEqualToward t .right v.data test steps (← t.successor id)

/-- The error for a conflict at `id`. If pending duplicates are to be reported and no version with
the key can be read, the conflict is pending. -/
def conflict (ix : Index) (see : Option Visibility) (t : Tree) (id : NodeId) :
    Except Error Error := do
  let duplicate := Error.duplicateKey ix.name ix.constraint
  match ix.config.reportPendingDuplicates, see with
  | true, some s =>
    if ← ix.anyEqual t id (s.canRead · .read) then return duplicate
    else return .pendingDuplicate ix.name
  | _, _ => return duplicate

/-- How `v` compares with the version at `id`, and whether row ids are compared from here on. Row
ids come in when the keys are equal but no version with the key occupies it. -/
def compareAt (ix : Index) (see : Option Visibility) (t : Tree) (v : Version) (id : NodeId)
    (useRowId : Bool) : Except Error (Ordering × Bool) := do
  let current ← t.version id
  let order := ix.order.compareVersions v current useRowId
  match see with
  | some s =>
    if order = .eq ∧ !useRowId ∧ s.isMultiVersion then
      if ← ix.anyEqual t id (s.canRead · .duplicate) then return (order, useRowId)
      else return (ix.order.compareVersions v current true ix.order.size, true)
    else return (order, useRowId)
  | none => return (order, useRowId)

def placeFrom (ix : Index) (see : Option Visibility) (t : Tree) (v : Version) :
    Nat → NodeId → Bool → Except Error (NodeId × Side)
  | 0, _, _ => .error Tree.endless
  | steps + 1, id, useRowId => do
    let (order, useRowId) ← ix.compareAt see t v id useRowId
    if order = .eq then
      throw (← ix.conflict see t id)
    else
      let side := if order = .lt then .left else .right
      match ← t.child id side with
      | some child => placeFrom ix see t v steps child useRowId
      | none => return (id, side)

def insert (ix : Index) (see : Option Visibility) (v : Version) : TreeAction Unit := do
  let t ← get
  match t.root with
  | none => TreeAction.plant v
  | some root =>
    let useRowId := !ix.unique || ix.order.hasNull v.data
    let (parent, side) ← Action.examine fun t =>
      ix.placeFrom see t v (2 * t.slots.size + 2) root useRowId
    TreeAction.attach v parent side

end Index

end VersionedIndex
