import VersionedIndex.Error
import VersionedIndex.Visibility

/-! Transactions and snapshot isolation. The manager remembers which transactions run and which
aborted; an issued id that is neither has committed. -/

namespace VersionedIndex

structure Manager where
  nextXid : Xid := Xid.frozen + 1
  active : List Xid := []
  aborted : List Xid := []
deriving DecidableEq, Repr

structure Transaction where
  xid : Xid
  inProgress : List Xid
deriving DecidableEq, Repr

namespace Manager

def begin (m : Manager) : Transaction × Manager :=
  (⟨m.nextXid, m.active⟩,
    { m with nextXid := m.nextXid + 1, active := m.active.insert m.nextXid })

def isActive (m : Manager) (xid : Xid) : Bool := m.active.contains xid

def isAborted (m : Manager) (xid : Xid) : Bool := m.aborted.contains xid

def isCommitted (m : Manager) (xid : Xid) : Bool :=
  xid == Xid.frozen ||
    (xid != Xid.invalid && decide (xid < m.nextXid) && !m.isActive xid && !m.isAborted xid)

def hasActive (m : Manager) : Bool := !m.active.isEmpty

def abortedXids (m : Manager) : List Xid := m.aborted.mergeSort fun a b => decide (a ≤ b)

def finish (m : Manager) (xid : Xid) (commit : Bool) : Except Error Manager :=
  if m.isActive xid then
    .ok { m with
      active := m.active.erase xid
      aborted := if commit then m.aborted else m.aborted.insert xid }
  else .error (.transactionClosed xid)

def commit (m : Manager) (t : Transaction) : Except Error Manager := m.finish t.xid true

def abort (m : Manager) (t : Transaction) : Except Error Manager := m.finish t.xid false

/-- Drops aborted ids. A version still stamped with a dropped id reads as committed, so the ids
have to be gone from every version. -/
def forgetAborted (m : Manager) (xids : List Xid) : Manager :=
  { m with aborted := m.aborted.filter fun x => !xids.contains x }

end Manager

namespace Transaction

def ensureActive (t : Transaction) (m : Manager) : Except Error Unit :=
  if m.isActive t.xid then .ok () else .error (.transactionClosed t.xid)

def seesCommitted (t : Transaction) (m : Manager) (xid : Xid) : Bool :=
  xid == Xid.frozen || (decide (xid < t.xid) && !t.inProgress.contains xid && m.isCommitted xid)

/-- Whether a version can be read. An ordinary read goes by the snapshot. The other two modes go by
what has happened by now: a version occupies its key unless its creator aborted or its deletion
is final, and it can be referred to once its creation is final. A transaction's own writes count
as done in every mode. -/
def canRead (t : Transaction) (m : Manager) (h : Headers) (v : Version) (mode : ReadMode) : Bool :=
  let created := fun (committed : Xid → Bool) => v.creator == t.xid || committed v.creator
  let stands := fun (committed : Xid → Bool) =>
    match h.deleter? v with
    | none => true
    | some x => x != t.xid && !committed x
  match mode with
  | .read => created (t.seesCommitted m) && stands (t.seesCommitted m)
  | .duplicate => !m.isAborted v.creator && stands m.isCommitted
  | .reference => created m.isCommitted && stands m.isCommitted

def visibility (t : Transaction) (m : Manager) (h : Headers) : Visibility where
  canRead := t.canRead m h

end Transaction

end VersionedIndex
