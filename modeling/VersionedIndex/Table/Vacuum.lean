import VersionedIndex.Table

namespace VersionedIndex

namespace TableAction

def purgeFrom (v : Version) : List Index → TableAction Bool
  | [] => return false
  | ix :: rest => do
    let removed ← onStore (Store.onTree ix (TreeAction.removeRow v.id))
    return (← purgeFrom v rest) || removed

def purge (v : Version) : TableAction Bool := do
  purgeFrom v (← get).table.indexes

/-- No transaction, now or later, reads the version: its creator aborted, or its deletion is final
and no transaction runs that may have begun before. -/
def isDead (m : Manager) (h : Headers) (v : Version) : Bool :=
  m.isAborted v.creator ||
    (!m.hasActive && (h.deleter? v).any m.isCommitted)

def clearAborted (m : Manager) (h : Headers) (v : Version) : Headers :=
  match h.deleter? v with
  | some x => if m.isAborted x then h.clearDeleted v x else h
  | none => h

/-- Purges the dead versions and returns their number. Deletions by aborted transactions are
cleared. If no transaction runs, no version refers to an aborted one any more, and the manager
forgets those it knew at the start. -/
def vacuum : TableAction Nat := do
  let before ← get
  if before.table.indexes.isEmpty then
    return 0
  let versions ← scanAll none 0
  let m := before.manager
  let (dead, alive) := versions.partition (isDead m before.headers)
  modify fun w => { w with headers := alive.foldl (clearAborted m) w.headers }
  dead.forM fun v => discard (purge v)
  if !m.hasActive then
    modify fun w => { w with manager := w.manager.forgetAborted m.aborted }
  return dead.length

def reclaim : TableAction Nat := onStore (modifyGet (·.reclaim))

end TableAction

end VersionedIndex
