import VersionedIndex.Index

namespace VersionedIndex

structure Store where
  trees : List Tree
  config : StoreConfig
deriving DecidableEq, Repr

abbrev StoreAction (α : Type) : Type := Action Store α

namespace Store

def create (count : Nat) (config : StoreConfig) : Except Error Store := do
  config.validate
  return { trees := List.replicate count {}, config }

def addTree (s : Store) : Store := { s with trees := s.trees ++ [{}] }

def truncate (s : Store) (count : Nat) : Store := { s with trees := s.trees.take count }

def reclaim (s : Store) : Nat × Store :=
  let reclaimed := s.trees.map Tree.reclaim
  ((reclaimed.map (·.1)).foldr (· + ·) 0, { s with trees := reclaimed.map (·.2) })

def tree (s : Store) (ix : Index) : Except Error Tree :=
  match s.trees[ix.position]? with
  | some t => .ok t
  | none => .error (.indexNotFound (.named ix.name))

def onTree {α : Type} (ix : Index) (act : TreeAction α) : StoreAction α := do
  let t ← Action.examine (·.tree ix)
  Action.zoom (fun _ => t)
    (fun s t => { s with trees := s.trees.set ix.position t }) act

end Store

end VersionedIndex
