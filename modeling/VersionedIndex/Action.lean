import VersionedIndex.Error

namespace VersionedIndex

abbrev Action (σ α : Type) : Type := EStateM Error σ α

namespace Action

def examine {σ α : Type} (read : σ → Except Error α) : Action σ α := fun s =>
  match read s with
  | .ok a => .ok a s
  | .error e => .error e s

def zoom {σ τ α : Type} (part : σ → τ) (replace : σ → τ → σ) (act : Action τ α) : Action σ α :=
  fun s =>
    match act (part s) with
    | .ok a t => .ok a (replace s t)
    | .error e t => .error e (replace s t)

def outcome {σ α : Type} (act : Action σ α) (s : σ) : Except Error α × σ :=
  match act s with
  | .ok a t => (.ok a, t)
  | .error e t => (.error e, t)

end Action

end VersionedIndex
