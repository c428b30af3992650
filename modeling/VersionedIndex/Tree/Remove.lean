import VersionedIndex.Tree.Walk
import VersionedIndex.Tree.Rotation

namespace VersionedIndex

def Tree.totalLeaning (t : Tree) : Nat :=
  (t.slots.toList.map fun n => n.balance.toInt.natAbs).foldr (· + ·) 0

namespace TreeAction

/-- Restores the balance at a node whose subtree on `side` has shrunk by one, and above it. Each
step that goes on makes the sum of all balances smaller, so that sum bounds the steps. -/
def retraceShrink : Nat → Option NodeId → Side → TreeAction Unit
  | _, none, _ => pure ()
  | 0, some _, _ => throw Tree.endless
  | steps + 1, some x, side => do
    let goOn := fun (top : NodeId) => do
      let side ← Action.examine (·.sideOf top)
      let parent ← Action.examine (·.parent top)
      retraceShrink steps parent side
    let leaning := (← Action.examine (·.balance x)) * side.sign
    if leaning = -1 then
      setBalance x 0
      goOn x
    else if leaning = 0 then
      setBalance x side.sign
    else if leaning = 1 then
      let pivot ← Action.examine (·.existingChild x side.flip)
      let balance ← Action.examine (·.balance pivot)
      if balance * side.sign ≥ 0 then
        rotateSingle x side.flip pivot
        if balance = 0 then
          setBalance x side.sign
          setBalance pivot (-side.sign)
        else
          setBalance x 0
          setBalance pivot 0
          goOn pivot
      else
        goOn (← rotateDouble x side.flip pivot)
    else
      throw (.inconsistent (.badBalance x leaning))

def takePlace (d x : NodeId) (parentD : Option NodeId) : TreeAction Unit := do
  if parentD.isNone then
    setRoot (some x)
  setParent x parentD
  if let some p := parentD then
    setLink p (← Action.examine (·.sideBelow p d)) (some x)

def takeChildren (d x : NodeId) (parentX : Option NodeId) : TreeAction Unit := do
  let rightD ← Action.examine (·.child d .right)
  if parentX = some d then
    setParent d (some x)
    setLink x .left (some d)
    setLink x .right rightD
  else
    match parentX with
    | none => throw (.inconsistent (.orphanPredecessor x))
    | some p =>
      setParent d (some p)
      setLink p .right (some d)
      setLink x .left (← Action.examine (·.child d .left))
      setLink x .right rightD

def adoptChild (x : NodeId) (side : Side) : TreeAction Unit := do
  if let some c ← Action.examine (·.child x side) then
    setParent c (some x)

/-- Lets `x`, the predecessor of `d` in its left subtree, and `d`, which has two children, change
places. Afterwards `d` has no right child, and on its left the child that `x` had there. -/
def swapWithPredecessor (d x : NodeId) : TreeAction Unit := do
  let below ← Action.examine (·.child x .left)
  let balanceX ← Action.examine (·.balance x)
  let balanceD ← Action.examine (·.balance d)
  setBalance x balanceD
  setBalance d balanceX
  let parentX ← Action.examine (·.parent x)
  let parentD ← Action.examine (·.parent d)
  takePlace d x parentD
  takeChildren d x parentX
  adoptChild x .right
  adoptChild x .left
  setChild d .left below
  setLink d .right none

def isolate (target : NodeId) : TreeAction (Option NodeId) := do
  match ← Action.examine (·.child target .left), ← Action.examine (·.child target .right) with
  | none, right => return right
  | left, none => return left
  | some left, some _ =>
    let x ← Action.examine (·.rightmost left)
    let below ← Action.examine (·.child x .left)
    swapWithPredecessor target x
    return below

def remove (target : NodeId) : TreeAction Unit := do
  let below ← isolate target
  let side ← Action.examine (·.sideOf target)
  replace target below
  let parent ← Action.examine (·.parent target)
  release target
  let leaning ← modifyGet fun t => (t.totalLeaning, t)
  retraceShrink (leaning + 2) parent side

def removeRow (row : RowId) : TreeAction Bool := do
  match (← get).binding.node? row with
  | none => return false
  | some id =>
    remove id
    updateElementCount (-1)
    return true

end TreeAction

end VersionedIndex
