import VersionedIndex.Tree

namespace VersionedIndex

def Side.sign : Side → Int8
  | .left => 1
  | .right => -1

namespace TreeAction

def rotateSingle (x : NodeId) (side : Side) (pivot : NodeId) : TreeAction Unit := do
  replace x (some pivot)
  let inner ← Action.examine (·.child pivot side.flip)
  setChild x side inner
  setChild pivot side.flip (some x)

/-- Raises the inner child of `pivot`, the child of `x` on `side`, into the place of `x`, and sets
the three balances: of the nodes below it, the one that takes the lower subtree leans away. Returns
the raised node. -/
def rotateDouble (x : NodeId) (side : Side) (pivot : NodeId) : TreeAction NodeId := do
  let raised ← Action.examine (·.existingChild pivot side.flip)
  replace x (some raised)
  let outer ← Action.examine (·.child raised side)
  setChild pivot side.flip outer
  setChild raised side (some pivot)
  let inner ← Action.examine (·.child raised side.flip)
  setChild x side inner
  setChild raised side.flip (some x)
  let balance ← Action.examine (·.balance raised)
  setBalance x (if balance = -side.sign then side.sign else 0)
  setBalance pivot (if balance = side.sign then -side.sign else 0)
  setBalance raised 0
  return raised

end TreeAction

end VersionedIndex
