import VersionedIndex.Value

namespace VersionedIndex

abbrev RowId := UInt64

abbrev Xid := UInt32

namespace Xid

def frozen : Xid := 0

/-- The id that no transaction may have: stamped as a deleter it means "not deleted". -/
def invalid : Xid := 0xFFFFFFFF

end Xid

abbrev Row := List Value

def Row.column (row : Row) (position : Nat) : Value := row[position]?.getD .null

structure Version where
  header : Nat
  id : RowId
  data : Row
  creator : Xid
deriving DecidableEq, Repr

structure Headers where
  deleters : Array (Option Xid) := #[]
deriving DecidableEq, Repr

namespace Headers

def create (h : Headers) (id : RowId) (data : Row) (creator : Xid) : Version × Headers :=
  (⟨h.deleters.size, id, data, creator⟩, ⟨h.deleters.push none⟩)

def deleter? (h : Headers) (v : Version) : Option Xid := h.deleters[v.header]?.join

def stamp (h : Headers) (v : Version) (deleter : Option Xid) : Headers :=
  ⟨h.deleters.setIfInBounds v.header deleter⟩

/-- Stamps the version as deleted by `xid`, unless another transaction whose stamp is not
replaceable holds it; then that transaction is the error. -/
def markDeleted (h : Headers) (v : Version) (xid : Xid) (replaceable : Xid → Bool) :
    Except Xid Headers :=
  let stamped := h.stamp v (if xid = Xid.invalid then none else some xid)
  match h.deleter? v with
  | none => .ok stamped
  | some holder => if holder = xid ∨ replaceable holder then .ok stamped else .error holder

def clearDeleted (h : Headers) (v : Version) (xid : Xid) : Headers :=
  if h.deleter? v = some xid then h.stamp v none else h

end Headers

end VersionedIndex
