import VersionedIndex.Action

/-! The nodes of one index tree, in numbered slots. A released slot is retired and keeps its row,
marked by its balance, so that a stale handle still finds a deleted node; a reclaim makes it free
again. -/

namespace VersionedIndex

structure Node where
  version : Version
  left : Option NodeId := none
  right : Option NodeId := none
  parent : Option NodeId := none
  balance : Int8 := 0
deriving DecidableEq, Repr

namespace Node

def deletedBalance : Int8 := -2

def isDeleted (n : Node) : Bool := n.balance == deletedBalance

def released (n : Node) : Node := { version := n.version, balance := deletedBalance }

def child (n : Node) : Side → Option NodeId
  | .left => n.left
  | .right => n.right

def withChild (n : Node) (child : Option NodeId) : Side → Node
  | .left => { n with left := child }
  | .right => { n with right := child }

end Node

structure Binding where
  entries : List (RowId × NodeId) := []
deriving DecidableEq, Repr

namespace Binding

def node? (b : Binding) (row : RowId) : Option NodeId := b.entries.lookup row

def erase (b : Binding) (row : RowId) : Binding := ⟨b.entries.filter (·.1 != row)⟩

def insert (b : Binding) (row : RowId) (node : NodeId) : Binding :=
  ⟨(row, node) :: (b.erase row).entries⟩

theorem node?_erase (b : Binding) (row other : RowId) :
    (b.erase row).node? other = if other = row then none else b.node? other := by
  obtain ⟨entries⟩ := b
  simp only [node?, erase]
  induction entries with
  | nil => simp
  | cons e rest ih =>
    obtain ⟨r, n⟩ := e
    by_cases hr : r = row
    · subst hr
      by_cases ho : other = r
      · simpa [ho] using ih
      · have hne : (other == r) = false := by simpa using ho
        simp [List.lookup_cons, hne, ho, ih]
    · by_cases ho : other = r
      · simp [ho, hr]
      · have hne : (other == r) = false := by simpa using ho
        simp [List.lookup_cons, hne, hr, ih]

theorem node?_insert (b : Binding) (row other : RowId) (node : NodeId) :
    (b.insert row node).node? other = if other = row then some node else b.node? other := by
  by_cases h : other = row
  · simp [node?, insert, h]
  · have herase := node?_erase b row other
    have hne : (other == row) = false := by simpa using h
    simp only [h, if_false] at herase ⊢
    simpa [node?, insert, List.lookup_cons, hne] using herase

end Binding

structure Tree where
  slots : Array Node := #[]
  retired : Array NodeId := #[]
  free : Array NodeId := #[]
  root : Option NodeId := none
  binding : Binding := {}
  elementCount : Nat := 0
deriving DecidableEq, Repr

abbrev TreeAction (α : Type) : Type := Action Tree α

namespace Tree

def nodeIdLimit : Nat := UInt32.size

def maxElementCount : Nat := UInt64.size - 1

def dangling (id : NodeId) : Error := .inconsistent (.danglingNode id)

def endless : Error := .inconsistent .endlessWalk

def node (t : Tree) (id : NodeId) : Except Error Node :=
  match t.slots[id]? with
  | some n => .ok n
  | none => .error (dangling id)

def version (t : Tree) (id : NodeId) : Except Error Version := (t.node id).map (·.version)

def child (t : Tree) (id : NodeId) (side : Side) : Except Error (Option NodeId) :=
  (t.node id).map (·.child side)

def parent (t : Tree) (id : NodeId) : Except Error (Option NodeId) := (t.node id).map (·.parent)

def balance (t : Tree) (id : NodeId) : Except Error Int8 := (t.node id).map (·.balance)

def existingChild (t : Tree) (id : NodeId) (side : Side) : Except Error NodeId :=
  match t.child id side with
  | .ok (some c) => .ok c
  | .ok none => .error (.inconsistent (.missingChild id side))
  | .error e => .error e

def sideBelow (t : Tree) (parent id : NodeId) : Except Error Side :=
  (t.child parent .left).map fun c => if c = some id then .left else .right

def sideOf (t : Tree) (id : NodeId) : Except Error Side :=
  match t.parent id with
  | .ok none => .ok .left
  | .ok (some p) => t.sideBelow p id
  | .error e => .error e

def allocate (t : Tree) (v : Version) : NodeId × Tree :=
  match t.free.back? with
  | some id =>
    (id, { t with
      slots := t.slots.setIfInBounds id { version := v }
      free := t.free.pop
      binding := t.binding.insert v.id id })
  | none =>
    let id := t.slots.size % nodeIdLimit
    (id, { t with
      slots := t.slots.push { version := v }
      binding := t.binding.insert v.id id })

def release (t : Tree) (id : NodeId) : Tree :=
  match t.slots[id]? with
  | none => t
  | some n =>
    let unbound :=
      if t.binding.node? n.version.id = some id then
        { t with binding := t.binding.erase n.version.id }
      else t
    if n.isDeleted then unbound
    else { unbound with
      slots := unbound.slots.setIfInBounds id n.released
      retired := unbound.retired.push id }

def reclaim (t : Tree) : Nat × Tree :=
  (t.retired.size, { t with free := t.free ++ t.retired, retired := #[] })

def updateElementCount (t : Tree) (delta : Int) : Tree :=
  { t with elementCount := min (t.elementCount + delta).toNat maxElementCount }

end Tree

namespace TreeAction

def modifyNode (id : NodeId) (f : Node → Node) : TreeAction Unit := fun t =>
  match t.slots[id]? with
  | some n => .ok () { t with slots := t.slots.setIfInBounds id (f n) }
  | none => .error (Tree.dangling id) t

def setBalance (id : NodeId) (balance : Int8) : TreeAction Unit :=
  modifyNode id fun n => { n with balance }

def setParent (id : NodeId) (parent : Option NodeId) : TreeAction Unit :=
  modifyNode id fun n => { n with parent }

def setLink (id : NodeId) (side : Side) (child : Option NodeId) : TreeAction Unit :=
  modifyNode id fun n => n.withChild child side

def setChild (id : NodeId) (side : Side) (child : Option NodeId) : TreeAction Unit := do
  setLink id side child
  if let some c := child then
    setParent c (some id)

def setRoot (root : Option NodeId) : TreeAction Unit := modify fun t => { t with root }

def allocate (v : Version) : TreeAction NodeId := modifyGet fun t => t.allocate v

def release (id : NodeId) : TreeAction Unit := modify fun t => t.release id

def updateElementCount (delta : Int) : TreeAction Unit := modify fun t => t.updateElementCount delta

def replace (id : NodeId) (replacement : Option NodeId) : TreeAction Unit := do
  match ← Action.examine (·.parent id) with
  | none =>
    if let some r := replacement then
      setParent r none
    setRoot replacement
  | some p =>
    setChild p (← Action.examine (·.sideBelow p id)) replacement

end TreeAction

end VersionedIndex
