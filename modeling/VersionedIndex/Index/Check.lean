import VersionedIndex.Index

namespace VersionedIndex

def Tree.trailFrom (t : Tree) : Nat → Option NodeId → List NodeId × Bool
  | _, none => ([], true)
  | 0, some _ => ([], false)
  | steps + 1, some id =>
    match t.successor id with
    | .error _ => ([id], false)
    | .ok next =>
      let (rest, ends) := trailFrom t steps next
      (id :: rest, ends)

namespace Index

def linkViolations (t : Tree) (id : NodeId) : Option NodeId → Nat
  | none => 0
  | some c =>
    match t.slots[c]? with
    | none => 1
    | some n => if n.parent = some id then 0 else 1

def nodeViolations (t : Tree) (id : NodeId) : Nat :=
  match t.slots[id]? with
  | none => 1
  | some n =>
    (if n.isDeleted then 1 else 0) + (if -1 ≤ n.balance ∧ n.balance ≤ 1 then 0 else 1) +
      linkViolations t id n.left + linkViolations t id n.right

def orderViolations (ix : Index) (t : Tree) (before after : NodeId) : Nat :=
  match t.slots[before]?, t.slots[after]? with
  | some a, some b => if ix.order.compareVersions a.version b.version true = .lt then 0 else 1
  | _, _ => 0

def trailViolations (ix : Index) (t : Tree) : List NodeId → Nat
  | [] => 0
  | [id] => nodeViolations t id
  | id :: next :: rest =>
    nodeViolations t id + ix.orderViolations t id next + trailViolations ix t (next :: rest)

/-- The number of violations in a tree. A root that cannot be read, a left spine that cannot be
followed and a walk that breaks off each count once and end the check there; the recorded count is
compared only after a complete walk. -/
def check (ix : Index) (t : Tree) : Nat :=
  match t.root with
  | none => 0
  | some root =>
    match t.parent root with
    | .error _ => 1
    | .ok parent =>
      let atRoot := if parent.isSome then 1 else 0
      match t.leftmost root with
      | .error _ => atRoot + 1
      | .ok (first, _) =>
        let (trail, ends) := t.trailFrom (t.slots.size + 1) (some first)
        atRoot + ix.trailViolations t trail +
          if ends ∧ trail.length = t.elementCount then 0 else 1

end Index

end VersionedIndex
