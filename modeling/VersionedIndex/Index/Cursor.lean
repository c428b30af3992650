import VersionedIndex.Index
import VersionedIndex.Text.Quoted

/-! Cursors over the rows of an index. A cursor holds no tree: each step reads the tree as it is by
then, so writes in between are seen, and a cursor whose next node has been deleted ends there. -/

namespace VersionedIndex

structure Cursor where
  next : Option NodeId := none
  last : Option Version := none
  single : Bool := false
  reversed : Bool := false
deriving DecidableEq, Repr

namespace Cursor

def heading (c : Cursor) : Side := if c.reversed then .left else .right

def hasNext (c : Cursor) : Bool := c.next.isSome

def release (c : Cursor) : Cursor := { c with next := none }

def advance (c : Cursor) (see : Option Visibility) (t : Tree) :
    Except Error (Option Version × Cursor) := do
  match c.next with
  | none => return (none, c)
  | some id =>
    let n ← t.node id
    if n.isDeleted then
      return (none, c.release)
    else
      let next ← if c.single then pure none else Index.readableAfter see t c.heading id
      return (some n.version, { c with next, last := some n.version })

def step (c : Cursor) (see : Option Visibility) (t : Tree) : Option Version × Cursor :=
  match c.advance see t with
  | .ok yielded => yielded
  | .error _ => (none, c.release)

def take (see : Option Visibility) (t : Tree) : Nat → Cursor → List Version
  | 0, _ => []
  | limit + 1, c =>
    match c.step see t with
    | (none, _) => []
    | (some v, c) => v :: take see t limit c

/-- All versions that the cursor yields. It stands on no node twice, so the slots bound them. -/
def drain (c : Cursor) (see : Option Visibility) (t : Tree) : List Version :=
  take see t (t.slots.size + 1) c

def nextRowId? (c : Cursor) (t : Tree) : Option RowId := do
  let n ← t.slots[← c.next]?
  if n.isDeleted then none else some n.version.id

def describe (c : Cursor) (index : Option String) : String :=
  let some? := fun text : Option String =>
    match text with
    | none => "None"
    | some s => s!"Some({s})"
  let node := some? (c.next.map fun id => s!"NodeId({id})")
  let name := some? (index.map Text.Quoted.quote)
  s!"IndexRowIterator \x7b index: {name}, next_node: {node}, " ++
    s!"single: {c.single}, reversed: {c.reversed} \x7d"

end Cursor

end VersionedIndex
