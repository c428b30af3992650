import VersionedIndex.Error

namespace VersionedIndex

/-- The switches of one index. Verifying after a write changes no answer: it only looks. With
pending duplicates reported, a conflict with versions that are not committed has its own error. -/
structure IndexConfig where
  verifyAfterWrite : Bool := false
  reportPendingDuplicates : Bool := false
deriving DecidableEq, Repr

structure StoreConfig where
  initialNodeCapacity : UInt64 := 1024
deriving DecidableEq, Repr

namespace StoreConfig

def maxNodeCapacity : Nat := UInt32.size - 1

def validate (c : StoreConfig) : Except Error Unit :=
  if c.initialNodeCapacity.toNat > maxNodeCapacity then
    .error (.invalidConfig (.capacity c.initialNodeCapacity.toNat maxNodeCapacity))
  else .ok ()

end StoreConfig

end VersionedIndex
