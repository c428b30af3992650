import VersionedIndex.Tree.Rotation

namespace VersionedIndex

namespace TreeAction

/-- Restores the balance at `x`, whose subtree on `side` has grown by one, and above it. Every
node that is passed was balanced and is not afterwards, so the slots bound the steps. -/
def retraceGrowth : Nat → NodeId → Side → TreeAction Unit
  | 0, _, _ => throw Tree.endless
  | steps + 1, x, side => do
    let leaning := (← Action.examine (·.balance x)) * side.sign
    if leaning = 1 then
      setBalance x 0
    else if leaning = 0 then
      setBalance x (-side.sign)
      match ← Action.examine (·.parent x) with
      | none => pure ()
      | some p => retraceGrowth steps p (← Action.examine (·.sideOf x))
    else if leaning = -1 then
      let pivot ← Action.examine (·.existingChild x side)
      if (← Action.examine (·.balance pivot)) = -side.sign then
        rotateSingle x side pivot
        setBalance x 0
        setBalance pivot 0
      else
        discard (rotateDouble x side pivot)
    else
      throw (.inconsistent (.badBalance x leaning))

def plant (v : Version) : TreeAction Unit := do
  let id ← allocate v
  setRoot (some id)
  updateElementCount 1

def attach (v : Version) (parent : NodeId) (side : Side) : TreeAction Unit := do
  let id ← allocate v
  setChild parent side (some id)
  let slots ← modifyGet fun t => (t.slots.size, t)
  retraceGrowth (slots + 2) parent side
  updateElementCount 1

end TreeAction

end VersionedIndex
