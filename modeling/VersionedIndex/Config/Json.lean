import VersionedIndex.Config
import VersionedIndex.Json

namespace VersionedIndex

namespace Json

/-- The members of an object by known keys: one slot for each key, in the order of `keys`. Fails if
a known key occurs twice, or if an unknown member cannot be ignored. -/
def slots? (keys : List String) : List (Written × Json) → Option (List (Option Json))
  | [] => some (keys.map fun _ => none)
  | (key, j) :: rest => do
    let key ← key.text?
    let slots ← slots? keys rest
    match keys.idxOf? key with
    | none => if j.ignorable then some slots else none
    | some i => if slots[i]?.join.isNone then some (slots.set i (some j)) else none

def settings? (keys : List String) : Json → Option (List (Option Json))
  | object members => slots? keys members
  | array items =>
    if items.length ≤ keys.length then
      some (items.map some ++ List.replicate (keys.length - items.length) none)
    else none
  | _ => none

def setting? {α : Type} (default : α) (read? : Json → Option α) : Option Json → Option α
  | none => some default
  | some j => read? j

end Json

namespace IndexConfig

def keys : List String := ["verify_after_write", "report_pending_duplicates"]

def toJson (c : IndexConfig) : Json :=
  .object ((keys.map .ofText).zip [.bool c.verifyAfterWrite, .bool c.reportPendingDuplicates])

def ofJson? (j : Json) : Option IndexConfig := do
  match ← j.settings? keys with
  | [verify, pending] =>
    let defaults : IndexConfig := {}
    return {
      verifyAfterWrite := ← Json.setting? defaults.verifyAfterWrite Json.bool? verify
      reportPendingDuplicates := ← Json.setting? defaults.reportPendingDuplicates Json.bool? pending }
  | _ => none

end IndexConfig

namespace StoreConfig

def keys : List String := ["initial_node_capacity"]

def toJson (c : StoreConfig) : Json :=
  .object ((keys.map .ofText).zip [.ofInt c.initialNodeCapacity.toNat])

def capacity? (j : Json) : Option UInt64 :=
  (j.intWithin? 0 (UInt64.size - 1)).map fun i => .ofNat i.toNat

def ofJson? (j : Json) : Option StoreConfig := do
  match ← j.settings? keys with
  | [capacity] =>
    let defaults : StoreConfig := {}
    return { initialNodeCapacity := ← Json.setting? defaults.initialNodeCapacity capacity? capacity }
  | _ => none

end StoreConfig

end VersionedIndex
