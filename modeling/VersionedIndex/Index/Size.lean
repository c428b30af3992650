import VersionedIndex.Index.Search

namespace VersionedIndex

namespace Index

def countFrom (see : Option Visibility) (t : Tree) : Nat → Option NodeId → Except Error Nat
  | _, none => .ok 0
  | 0, some _ => .error Tree.endless
  | steps + 1, some id => do
    return 1 + (← countFrom see t steps (← readableAfter see t .right id))

def nodeCount (see : Option Visibility) (t : Tree) : Except Error Nat := do
  match t.root with
  | none => return 0
  | some root =>
    let (first, _) ← t.leftmost root
    countFrom see t (t.slots.size + 1) (← readableFrom see t .right (some first))

def maxEstimateExponent : Nat := 63

/-- A rough number of rows: two to the power of the leftmost path's length. The path is the one
that the last forward scan of this index went down; only if there was none is it measured now, and
only then does the store have to have a tree. -/
def sizeEstimate (tree : Except Error Tree) : IndexAction Nat := do
  if (← get).scanDepth = 0 then
    let t ← Action.examine fun _ => tree
    if let some root := t.root then
      let (_, depth) ← Action.examine fun _ => t.leftmost root
      modify fun ix => { ix with scanDepth := depth }
  return 1 <<< min (← get).scanDepth maxEstimateExponent

def startsKey (ix : Index) (before : Option Row) (row : Row) : Bool :=
  match before with
  | none => true
  | some previous =>
    ix.order.positions.any (fun p => row[p]? == some .null) ||
      ix.order.compareNatural previous (ix.order.keyOf row ix.order.size) != .eq

def countKeys (ix : Index) : Option Row → List Row → Nat
  | _, [] => 0
  | before, row :: rows =>
    (if ix.startsKey before row then 1 else 0) + countKeys ix (some row) rows

def sizeUnique (see : Option Visibility) (t : Tree) : IndexAction Nat := do
  let rows := (← first see t).drain see t |>.map (·.data)
  return (← get).countKeys none rows

end Index

end VersionedIndex
