import VersionedIndex.Tree

/-! Walks along the links of a tree. One that never comes back to a node ends within the number of
slots, so each is given a number of steps that only a walk along a circle of links can use up. -/

namespace VersionedIndex

namespace Tree

def outermostFrom (t : Tree) (side : Side) : Nat → NodeId → Nat → Except Error (NodeId × Nat)
  | 0, _, _ => .error endless
  | steps + 1, id, depth =>
    match t.child id side with
    | .ok (some c) => outermostFrom t side steps c (depth + 1)
    | .ok none => .ok (id, depth)
    | .error e => .error e

def outermost (t : Tree) (side : Side) (id : NodeId) : Except Error (NodeId × Nat) :=
  t.outermostFrom side (t.slots.size + 1) id 1

def leftmost (t : Tree) (id : NodeId) : Except Error (NodeId × Nat) := t.outermost .left id

def rightmost (t : Tree) (id : NodeId) : Except Error NodeId := (t.outermost .right id).map (·.1)

def climbFrom (t : Tree) (side : Side) :
    Nat → NodeId → Option NodeId → Except Error (Option NodeId)
  | _, _, none => .ok none
  | 0, _, some _ => .error endless
  | steps + 1, child, some p =>
    match t.node p with
    | .ok n => if n.child side = some child then climbFrom t side steps p n.parent else .ok (some p)
    | .error e => .error e

/-- The next node on `side` in key order: the innermost node of the subtree on that side, or the
first ancestor reached from its other side. A climb may pass each node once from either child. -/
def neighbour (t : Tree) (side : Side) (id : NodeId) : Except Error (Option NodeId) :=
  match t.node id with
  | .error e => .error e
  | .ok n =>
    match n.child side with
    | some c => (t.outermost side.flip c).map fun found => some found.1
    | none => t.climbFrom side (2 * t.slots.size + 2) id n.parent

def successor (t : Tree) (id : NodeId) : Except Error (Option NodeId) := t.neighbour .right id

def predecessor (t : Tree) (id : NodeId) : Except Error (Option NodeId) := t.neighbour .left id

def heightWithin (t : Tree) : Nat → Option NodeId → Except Error Nat
  | _, none => .ok 0
  | 0, some _ => .error endless
  | limit + 1, some id => do
    let n ← t.node id
    let left ← heightWithin t limit n.left
    let right ← heightWithin t limit n.right
    return 1 + max left right

def height (t : Tree) : Except Error Nat := t.heightWithin (t.slots.size + 1) t.root

end Tree

end VersionedIndex
