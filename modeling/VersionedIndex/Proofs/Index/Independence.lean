import VersionedIndex.Proofs.Index.Memory
import VersionedIndex.Proofs.Index.Sessions

namespace VersionedIndex

structure Holder where
  store : Store
  cursors : List Cursor := []

inductive Task where
  | insert (see : Option Visibility) (v : Version)
  | delete (row : RowId)
  | ask (q : Query)
  | check
  | scan (see : Option Visibility) (single : Bool) (o : Opening)
  | next (k : Nat) (see : Option Visibility)
  | reclaim

structure Shared where
  index : Index
  here : Holder
  there : Holder

inductive Turn where
  | here (t : Task)
  | there (t : Task)

deriving instance DecidableEq for Answer

def Holder.onTree {α : Type} (ix : Index) (act : TreeAction α) : Action Holder α :=
  Action.zoom (·.store) (fun h store => { h with store }) (Store.onTree ix act)

namespace Task

def perform (ix : Index) : Task → Action Holder Answer
  | insert see v => do
    Holder.onTree ix (ix.insert see v)
    return .done
  | delete row => do return .truth (← Holder.onTree ix (TreeAction.removeRow row))
  | ask q => Action.examine fun h => q.answer ix (h.store.tree ix)
  | check => Action.examine fun h => do return .number (ix.check (← h.store.tree ix))
  | scan see single o => do
    let c ← Action.examine fun h => do o.cursor ix see (← h.store.tree ix)
    modify fun h => { h with cursors := h.cursors ++ [{ c with single }] }
    return .done
  | next k see => do
    match (← get).cursors[k]? with
    | none => return .row none
    | some c =>
      let (v, c) ← Action.examine fun h => do c.advance see (← h.store.tree ix)
      modify fun h => { h with cursors := h.cursors.set k c }
      return .row v
  | reclaim => do
    let count ← Action.zoom (·.store) (fun h store => { h with store }) (modifyGet (·.reclaim))
    return .number count

/-- The index after an operation. What walks forward from the first row records how deep it went, and
so does an estimate if nothing is recorded. -/
def memory (ix : Index) (h : Holder) : Task → Index
  | ask .sizeEstimate => ((Index.sizeEstimate (h.store.tree ix)).outcome ix).2
  | ask (.sizeUnique see) =>
    match h.store.tree ix with
    | .ok t => ((Index.sizeUnique see t).outcome ix).2
    | .error _ => ix
  | scan see _ .first =>
    match h.store.tree ix with
    | .ok t => ((Index.first see t).outcome ix).2
    | .error _ => ix
  | _ => ix

def measures (ix : Index) (h : Holder) : Task → Bool
  | ask (.sizeUnique _) | scan _ _ .first =>
    match h.store.tree ix with
    | .ok t => t.root.any fun root => (t.leftmost root).isOk
    | .error _ => false
  | _ => false

end Task

namespace Shared

def step (s : Shared) : Turn → Shared
  | .here t => { s with
    index := t.memory s.index s.here
    here := ((t.perform s.index).outcome s.here).2 }
  | .there t => { s with
    index := t.memory s.index s.there
    there := ((t.perform s.index).outcome s.there).2 }

def after (s : Shared) (turns : List Turn) : Shared := turns.foldl step s

def answer (s : Shared) (t : Task) : Except Error Answer := ((t.perform s.index).outcome s.here).1

/-- What the index remembers goes by the operations on the first store alone, if it does so at the
start: until an operation on the other store changes it, and again from the next forward scan on. -/
def settled (s : Shared) : Bool → List Turn → Bool
  | known, [] => known
  | known, .here t :: turns =>
    (s.step (.here t)).settled (known || t.measures s.index s.here) turns
  | known, .there t :: turns =>
    (s.step (.there t)).settled (known && decide (t.memory s.index s.there = s.index)) turns

end Shared

def Turn.isHere : Turn → Bool
  | here _ => true
  | there _ => false

namespace Index

variable {ix ix' : Index} {see : Option Visibility} {t : Tree}

theorem with_depth_eq (hdef : ix.definition = ix'.definition) (depth : Nat) :
    ({ ix with scanDepth := depth } : Index) = { ix' with scanDepth := depth } :=
  congrArg (fun ix : Index => { ix with scanDepth := depth }) hdef

/-- A forward scan answers the same whatever the index remembers. The index remembers the depth of the
tree after it, or what it did before if there is nothing to measure. -/
theorem first_cases (see : Option Visibility) (t : Tree) :
    ∃ r : Except Error Cursor,
      (∃ depth, ∀ ix, (first see t).outcome ix = (r, { ix with scanDepth := depth })) ∨
      ((t.root.any fun root => (t.leftmost root).isOk) = false ∧
        ∀ ix, (first see t).outcome ix = (r, ix)) := by
  cases hroot : t.root with
  | none =>
    refine ⟨.ok {}, Or.inr ⟨rfl, fun ix => ?_⟩⟩
    simp only [first, hroot]
    rfl
  | some root =>
    cases hwalk : t.leftmost root with
    | error err =>
      refine ⟨.error err, Or.inr ⟨by simp [hwalk, Except.isOk, Except.toBool], fun ix => ?_⟩⟩
      have hexamine : Action.examine (fun _ : Index => t.leftmost root) ix = .error err ix :=
        Action.examine_of_error hwalk
      simp only [first, hroot]
      exact Action.outcome_of_error (Action.bind_of_error hexamine)
    | ok found =>
      -- The depth is recorded before a row is read, so it stays when the read fails.
      obtain ⟨start, depth⟩ := found
      refine ⟨do return { next := ← readableFrom see t .right (some start) },
        Or.inl ⟨depth, fun ix => ?_⟩⟩
      have hexamine : Action.examine (fun _ : Index => t.leftmost root) ix = .ok (start, depth) ix :=
        Action.examine_of_ok hwalk
      have hrecord : (modify fun ix => { ix with scanDepth := depth } : IndexAction Unit) ix =
          .ok () { ix with scanDepth := depth } := rfl
      simp only [first, hroot, Action.outcome]
      rw [Action.bind_of_ok hexamine, Action.bind_of_ok hrecord]
      cases readableFrom see t .right (some start) <;> rfl

theorem first_answer_eq (ix ix' : Index) (see : Option Visibility) (t : Tree) :
    ((first see t).outcome ix).1 = ((first see t).outcome ix').1 := by
  obtain ⟨r, ⟨depth, hfirst⟩ | ⟨-, hfirst⟩⟩ := first_cases see t
  · rw [hfirst, hfirst]
  · rw [hfirst, hfirst]

theorem definition_first (ix : Index) (see : Option Visibility) (t : Tree) :
    ((first see t).outcome ix).2.definition = ix.definition := by
  obtain ⟨r, ⟨depth, hfirst⟩ | ⟨-, hfirst⟩⟩ := first_cases see t
  · rw [hfirst]
    rfl
  · rw [hfirst]

theorem first_index_eq (hdef : ix.definition = ix'.definition)
    (hroot : (t.root.any fun root => (t.leftmost root).isOk) = true) :
    ((first see t).outcome ix).2 = ((first see t).outcome ix').2 := by
  obtain ⟨r, ⟨depth, hfirst⟩ | ⟨hnone, -⟩⟩ := first_cases see t
  · rw [hfirst, hfirst]
    exact with_depth_eq hdef depth
  · rw [hnone] at hroot
    cases hroot

theorem size_unique_outcome (ix : Index) (see : Option Visibility) (t : Tree) :
    (sizeUnique see t).outcome ix =
      (((first see t).outcome ix).1.map fun c =>
        ix.countKeys none ((c.drain see t).map (·.data)), ((first see t).outcome ix).2) := by
  have hdef := ix.definition_first see t
  simp only [sizeUnique, Action.outcome] at hdef ⊢
  cases hfirst : first see t ix with
  | error err ix' =>
    rw [Action.bind_of_error hfirst]
    rfl
  | ok c ix' =>
    rw [Action.bind_of_ok hfirst]
    simp only [hfirst] at hdef
    have hkeys (rows : List Row) : ix'.countKeys none rows = ix.countKeys none rows := by
      rw [← count_keys_definition ix', hdef, count_keys_definition]
    exact Prod.ext (congrArg Except.ok (hkeys _)) rfl

theorem definition_size_estimate (ix : Index) (tree : Except Error Tree) :
    ((sizeEstimate tree).outcome ix).2.definition = ix.definition := by
  have hget : (get : IndexAction Index) ix = .ok ix ix := rfl
  rw [Action.outcome, sizeEstimate, Action.bind_of_ok hget]
  split_ifs
  · cases tree with
    | error err => rfl
    | ok t =>
      have htree : (Action.examine fun _ => .ok t : IndexAction Tree) ix = .ok t ix := rfl
      rw [Action.bind_of_ok htree]
      cases hroot : t.root with
      | none => rfl
      | some root =>
        dsimp only
        cases hwalk : t.leftmost root <;> rfl
  · rfl

end Index

/-- What is asked of a tree, estimates apart, does not depend on what the index remembers. -/
theorem Query.answer_definition (ix : Index) (tree : Except Error Tree) {q : Query}
    (hq : q ≠ .sizeEstimate) : q.answer ix.definition tree = q.answer ix tree := by
  cases q with
  | sizeEstimate => exact absurd rfl hq
  | sizeUnique see =>
    cases tree with
    | error err => rfl
    | ok t =>
      change (do return Answer.number (← ((Index.sizeUnique see t).outcome ix.definition).1)) =
        (do return Answer.number (← ((Index.sizeUnique see t).outcome ix).1))
      rw [Index.size_unique_outcome, Index.size_unique_outcome,
        Index.first_answer_eq ix.definition ix]
      simp only [Index.count_keys_definition]
  | existsParent see row map =>
    cases tree with
    | error err => rfl
    | ok t =>
      change (do return Answer.truth (← ix.definition.existsParent see t row map)) =
        (do return Answer.truth (← ix.existsParent see t row map))
      rw [Index.existsParent, Index.existsParent, Index.find_node_definition]
  | _ => rfl

theorem Opening.cursor_definition (ix : Index) (see : Option Visibility) (t : Tree) (o : Opening) :
    o.cursor ix.definition see t = o.cursor ix see t := by
  cases o with
  | first => exact Index.first_answer_eq ix.definition ix see t
  | last => rfl
  | find key count m reversed =>
    cases m with
    | maximum => rfl
    | byKey m =>
      simp only [cursor, Index.find, Index.find_node_definition]
      rfl
  | forRow row =>
    simp only [cursor, Index.findForRow, Index.find_node_definition]
    rfl
  | mapped row map => simp only [cursor, Index.findMapped, Index.find_node_definition]
  | notNull => simp only [cursor, Index.findNotNull, Index.find_node_definition]
  | leading v m =>
    cases m with
    | maximum => rfl
    | byKey m =>
      simp only [cursor, Index.findValue, Index.findValueNode, Index.search_definition]
      rfl

namespace Task

variable {ix ix' : Index} {h : Holder} {t : Task}

/-- An operation that does not estimate does the same whatever the index remembers. -/
theorem perform_definition (ix : Index) (ht : t ≠ .ask .sizeEstimate) :
    t.perform ix.definition = t.perform ix := by
  cases t with
  | insert see v =>
    simp only [perform, Index.insert_definition]
    rfl
  | ask q =>
    have hq : q ≠ .sizeEstimate := fun heq => ht (congrArg ask heq)
    have htree (h : Holder) : h.store.tree ix.definition = h.store.tree ix := rfl
    simp only [perform, Query.answer_definition _ _ hq, htree]
  | check =>
    simp only [perform, Index.check_definition]
    rfl
  | scan see single o =>
    simp only [perform, Opening.cursor_definition]
    rfl
  | delete row | next k see | reclaim => rfl

theorem perform_eq (hdef : ix.definition = ix'.definition) (ht : t ≠ .ask .sizeEstimate) :
    t.perform ix = t.perform ix' := by
  rw [← perform_definition ix ht, hdef, perform_definition ix' ht]

/-- What an operation leaves of a store never depends on what the index remembers. -/
theorem left_eq (hdef : ix.definition = ix'.definition) (t : Task) (h : Holder) :
    ((t.perform ix).outcome h).2 = ((t.perform ix').outcome h).2 := by
  by_cases ht : t = .ask .sizeEstimate
  · rw [ht, perform, perform, Action.outcome_examine, Action.outcome_examine]
  · rw [perform_eq hdef ht]

theorem memory_size_unique (ix : Index) (h : Holder) (see : Option Visibility) (single : Bool) :
    (ask (.sizeUnique see)).memory ix h = (scan see single .first).memory ix h := by
  simp only [memory, Index.size_unique_outcome]

theorem definition_memory (ix : Index) (h : Holder) (t : Task) :
    (t.memory ix h).definition = ix.definition := by
  have hscan (see : Option Visibility) (single : Bool) :
      ((scan see single .first).memory ix h).definition = ix.definition := by
    simp only [memory]
    split
    · rw [Index.definition_first]
    · rfl
  cases t with
  | ask q =>
    cases q with
    | sizeEstimate => exact ix.definition_size_estimate _
    | sizeUnique see => exact (congrArg _ (memory_size_unique ix h see false)).trans (hscan see false)
    | _ => rfl
  | scan see single o =>
    cases o with
    | first => exact hscan see single
    | _ => rfl
  | _ => rfl

/-- After an operation that measures its tree, nothing is left of what was remembered. -/
theorem memory_eq_of_measures (hdef : ix.definition = ix'.definition)
    (hmeasures : t.measures ix h = true) : t.memory ix h = t.memory ix' h := by
  have hscan (see : Option Visibility) (single : Bool)
      (hmeasures : (scan see single .first).measures ix h = true) :
      (scan see single .first).memory ix h = (scan see single .first).memory ix' h := by
    have hread (ix : Index) : h.store.tree ix.definition = h.store.tree ix := rfl
    have htree : h.store.tree ix = h.store.tree ix' := by
      rw [← hread ix, hdef, hread]
    simp only [measures] at hmeasures
    simp only [memory, ← htree]
    cases hfound : h.store.tree ix with
    | error err =>
      rw [hfound] at hmeasures
      cases hmeasures
    | ok tree =>
      rw [hfound] at hmeasures
      exact Index.first_index_eq hdef hmeasures
  cases t with
  | ask q =>
    cases q with
    | sizeUnique see =>
      rw [memory_size_unique ix h see false, memory_size_unique ix' h see false]
      exact hscan see false hmeasures
    | _ => cases hmeasures
  | scan see single o =>
    cases o with
    | first => exact hscan see single hmeasures
    | _ => cases hmeasures
  | _ => cases hmeasures

end Task

namespace Shared

/-- The first stores are the same, and the indexes are up to what they remember. -/
structure Alike (s s' : Shared) : Prop where
  here : s.here = s'.here
  definition : s.index.definition = s'.index.definition

variable {s s' : Shared}

theorem Alike.step_here (h : Alike s s') (t : Task) :
    Alike (s.step (.here t)) (s'.step (.here t)) where
  here := by
    simp only [step, h.here]
    exact Task.left_eq h.definition t s'.here
  definition := by
    simp only [step, Task.definition_memory]
    exact h.definition

theorem Alike.step_there (h : Alike s s') (t : Task) : Alike (s.step (.there t)) s' where
  here := h.here
  definition := (Task.definition_memory s.index s.there t).trans h.definition

/-- The run on both stores and the run without the other store stay alike, and while it is settled what
the index remembers it remembers the same. -/
theorem Alike.after (h : Alike s s') {known : Bool} (hknown : known = true → s.index = s'.index)
    (turns : List Turn) :
    Alike (s.after turns) (s'.after (turns.filter Turn.isHere)) ∧
      (s.settled known turns = true →
        (s.after turns).index = (s'.after (turns.filter Turn.isHere)).index) := by
  -- By induction on the operations; only those on the first store are taken in both runs.
  induction turns generalizing s s' known with
  | nil => exact ⟨h, hknown⟩
  | cons turn turns ih =>
    cases turn with
    | here t =>
      rw [List.filter_cons_of_pos rfl]
      apply ih (h.step_here t)
      intro hor
      rcases Bool.or_eq_true _ _ ▸ hor with hsame | hmeasures
      · simp only [step, h.here, hknown hsame]
      · simp only [step, ← h.here]
        exact Task.memory_eq_of_measures h.definition hmeasures
    | there t =>
      rw [List.filter_cons_of_neg Bool.false_ne_true]
      apply ih (h.step_there t)
      intro hand
      obtain ⟨hsame, hleft⟩ := Bool.and_eq_true_iff.mp hand
      exact (of_decide_eq_true hleft).trans (hknown hsame)

/-- In every interleaving of operations on two stores that share an index, each operation on one store
answers as it would without the operations on the other one. For an estimate this holds unless an
operation on the other store has changed what the index remembers since the last forward scan. -/
theorem answer_eq_alone (s : Shared) (turns : List Turn) (t : Task)
    (hsettled : t = .ask .sizeEstimate → s.settled true turns = true) :
    (s.after turns).answer t = (s.after (turns.filter Turn.isHere)).answer t := by
  have hstart : Alike s s := ⟨rfl, rfl⟩
  have hsame : true = true → s.index = s.index := fun _ => rfl
  obtain ⟨halike, hindex⟩ := hstart.after hsame turns
  by_cases ht : t = .ask .sizeEstimate
  · rw [answer, answer, halike.here, hindex (hsettled ht)]
  · rw [answer, answer, halike.here, Task.perform_eq halike.definition ht]

def sample : Shared where
  index := Index.sample
  here := { store := ⟨[{}], {}⟩ }
  there := { store := ⟨[{}], {}⟩ }

def crowded : List Turn :=
  [Turn.here (.insert none (Index.sampleVersion 1 5))] ++
    ([1, 2, 3, 4, 5, 6, 7] : List Int64).map (fun k =>
      Turn.there (.insert none (Index.sampleVersion k.toUInt64 k))) ++
    [Turn.there (.scan none false .first)]

/-- The scan of the other store shows in what is estimated of the first one. -/
theorem crowded_estimate_differs :
    (sample.after crowded).answer (.ask .sizeEstimate) = .ok (.number 8) ∧
    (sample.after (crowded.filter Turn.isHere)).answer (.ask .sizeEstimate) = .ok (.number 2) := by
  decide +kernel

def rescanned : List Turn := crowded ++ [Turn.here (.scan none false .first)]

/-- A scan of the first store settles what the index remembers. -/
theorem rescanned_answer_eq_alone :
    sample.settled true crowded = false ∧ sample.settled true rescanned = true ∧
    (sample.after rescanned).answer (.ask .sizeEstimate) =
      (sample.after (rescanned.filter Turn.isHere)).answer (.ask .sizeEstimate) := by
  have hsettled : sample.settled true rescanned = true := by decide +kernel
  exact ⟨by decide +kernel, hsettled,
    answer_eq_alone sample rescanned (.ask .sizeEstimate) fun _ => hsettled⟩

end Shared

end VersionedIndex
