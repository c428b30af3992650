import VersionedIndex.Index.Cursor

namespace VersionedIndex

/-- Which node a search key selects: the first with an equal key, the first after the key, the
first at or after it, the first whose leading column is not NULL, or the first with a NULL key,
for which the search key is all NULL. -/
inductive KeyMatch where
  | equal
  | greater
  | greaterEqual
  | notNull
  | isNull
deriving DecidableEq, Repr

inductive Match where
  | byKey (m : KeyMatch)
  | maximum
deriving DecidableEq, Repr

namespace KeyMatch

def isExact : KeyMatch → Bool
  | equal | isNull => true
  | _ => false

def turn (m : KeyMatch) (reversed : Bool) : Ordering → Bool × Side
  | .lt => (m matches greater | notNull | greaterEqual, .left)
  | .eq =>
    match m with
    | equal | isNull => (true, if reversed then .right else .left)
    | greaterEqual => (true, .left)
    | greater | notNull => (false, .right)
  | .gt => (false, .right)

end KeyMatch

namespace Index

def leadingNotNull (ix : Index) (t : Tree) (id : NodeId) : Except Error Bool :=
  (t.version id).map fun v => !(ix.order.leading.value v.data).isNull

def descendFrom (t : Tree) (m : KeyMatch) (reversed : Bool) (compare : Row → Ordering) :
    Nat → Option NodeId → Option NodeId → Except Error (Option NodeId)
  | _, none, best => .ok best
  | 0, some _, _ => .error Tree.endless
  | steps + 1, some id, best => do
    let n ← t.node id
    let (better, side) := m.turn reversed (compare n.version.data)
    descendFrom t m reversed compare steps (n.child side) (if better then some id else best)

def descend (ix : Index) (t : Tree) (m : KeyMatch) (reversed : Bool) (compare : Row → Ordering) :
    Except Error (Option NodeId) := do
  if m = .notNull ∧ ix.order.leading.nullsLast then
    match t.root with
    | none => return none
    | some root =>
      let (first, _) ← t.leftmost root
      return if ← ix.leadingNotNull t first then some first else none
  else
    descendFrom t m reversed compare (t.slots.size + 1) t.root none

def mayGoOn (ix : Index) (m : KeyMatch) (stillEqual : Row → Bool) (row : Row) : Bool :=
  if m.isExact then stillEqual row
  else if m = .notNull then !(ix.order.leading.value row).isNull
  else true

def firstReadable (ix : Index) (see : Visibility) (t : Tree) (m : KeyMatch) (mode : ReadMode)
    (side : Side) (stillEqual : Row → Bool) : Nat → Option NodeId → Except Error (Option NodeId)
  | _, none => .ok none
  | 0, some _ => .error Tree.endless
  | steps + 1, some id => do
    if see.canRead (← t.version id) mode then
      return some id
    else
      match ← t.neighbour side id with
      | none => return none
      | some next =>
        if ix.mayGoOn m stillEqual (← t.version next).data then
          firstReadable ix see t m mode side stillEqual steps (some next)
        else return none

def search (ix : Index) (see : Option Visibility) (t : Tree) (m : KeyMatch) (mode : ReadMode)
    (reversed : Bool) (compare : Row → Ordering) (stillEqual : Row → Bool) :
    Except Error (Option NodeId) := do
  let found ← ix.descend t m reversed compare
  match see with
  | none => return found
  | some s =>
    let side := if reversed then .left else .right
    ix.firstReadable s t m mode side stillEqual (t.slots.size + 1) found

def findNode (ix : Index) (see : Option Visibility) (t : Tree) (key : List Value) (m : KeyMatch)
    (mode : ReadMode) (reversed : Bool) : Except Error (Option NodeId) :=
  ix.search see t m mode reversed (ix.order.compareKey key)
    fun row => ix.order.compareNatural row key == .eq

def findValueNode (ix : Index) (see : Option Visibility) (t : Tree) (value : Value)
    (m : KeyMatch) : Except Error (Option NodeId) :=
  let compare := fun row => ix.order.leading.compare value (ix.order.leading.value row)
  ix.search see t m .read false compare fun row => compare row == .eq

/-- A cursor over all readable rows in index order. The scan records the length of the leftmost
path in the index before it looks for a readable row. -/
def first (see : Option Visibility) (t : Tree) : IndexAction Cursor := do
  match t.root with
  | none => return {}
  | some root =>
    let (first, depth) ← Action.examine fun _ => t.leftmost root
    modify fun ix => { ix with scanDepth := depth }
    return { next := ← Action.examine fun _ => readableFrom see t .right (some first) }

def last (see : Option Visibility) (t : Tree) : Except Error Cursor := do
  match t.root with
  | none => return { reversed := true }
  | some root =>
    let last ← t.rightmost root
    return { next := ← readableFrom see t .left (some last), reversed := true }

/-- A cursor from the first match of the first `count` values of `key`, which is laid out in key
order and counts as filled up with NULLs. A reversed search walks backward, and one for an equal
key starts from the last match. -/
def find (ix : Index) (see : Option Visibility) (t : Tree) (key : Row) (count : Nat) (m : Match)
    (reversed : Bool) : Except Error Cursor :=
  match m with
  | .maximum => last see t
  | .byKey m => do
    let key := KeyOrder.pick key ix.defaultMap count
    return { next := ← ix.findNode see t key m .read reversed, reversed }

def findForRow (ix : Index) (see : Option Visibility) (t : Tree) (row : Row) :
    Except Error Cursor := do
  return { next := ← ix.findNode see t (ix.order.keyOf row ix.order.size) .equal .read false }

def findMapped (ix : Index) (see : Option Visibility) (t : Tree) (row : Row) (map : List Nat) :
    Except Error Cursor := do
  return { next := ← ix.findNode see t (KeyOrder.pick row map map.length) .equal .read false }

def findNotNull (ix : Index) (see : Option Visibility) (t : Tree) : Except Error Cursor := do
  return { next := ← ix.findNode see t [.null] .notNull .read false }

def findValue (ix : Index) (see : Option Visibility) (t : Tree) (value : Value) (m : Match) :
    Except Error Cursor :=
  match m with
  | .maximum => last see t
  | .byKey m => do return { next := ← ix.findValueNode see t value m }

def existsParent (ix : Index) (see : Option Visibility) (t : Tree) (row : Row)
    (map : List Nat) : Except Error Bool := do
  return (← ix.findNode see t (KeyOrder.pick row map map.length) .equal .reference false).isSome

end Index

end VersionedIndex
