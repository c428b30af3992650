import VersionedIndex.Version

namespace VersionedIndex

inductive ReadMode where
  | read
  | duplicate
  | reference
deriving DecidableEq, Repr

/-- A rule that says which versions can be read. Where several versions of one key can coexist, an
insert into a unique index asks it again before it reports a conflict. -/
structure Visibility where
  canRead : Version → ReadMode → Bool
  isMultiVersion : Bool := true

namespace Visibility

def ofRowIds (read duplicate reference : List RowId) (isMultiVersion : Bool := true) :
    Visibility where
  canRead v
    | .read => read.contains v.id
    | .duplicate => duplicate.contains v.id
    | .reference => reference.contains v.id
  isMultiVersion := isMultiVersion

def admits (see : Option Visibility) (mode : ReadMode) (v : Version) : Bool :=
  match see with
  | none => true
  | some s => s.canRead v mode

end Visibility

end VersionedIndex
