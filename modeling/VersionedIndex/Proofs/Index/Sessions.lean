import VersionedIndex.Proofs.Index.Searches
import VersionedIndex.Store

/-! Sessions on a store with arbitrary rows, keys and indexes, so that the trees need not be in any
order. What holds of them is that links form a shape and that a cursor stands on a slot. -/

namespace VersionedIndex

inductive Answer where
  | done
  | number (n : Nat)
  | truth (b : Bool)
  | row (v : Option Version)

inductive Query where
  | size
  | isEmpty
  | nodeCount (see : Option Visibility)
  | sizeEstimate
  | sizeUnique (see : Option Visibility)
  | height
  | existsParent (see : Option Visibility) (row : Row) (map : List Nat)

def Query.answer (ix : Index) (tree : Except Error Tree) : Query → Except Error Answer
  | .size => do return .number (← tree).elementCount
  | .isEmpty => do return .truth (← tree).root.isNone
  | .nodeCount see => do return .number (← Index.nodeCount see (← tree))
  | .sizeEstimate => do return .number (← ((Index.sizeEstimate tree).outcome ix).1)
  | .sizeUnique see => do return .number (← ((Index.sizeUnique see (← tree)).outcome ix).1)
  | .height => do return .number (← (← tree).height)
  | .existsParent see row map => do return .truth (← ix.existsParent see (← tree) row map)

inductive Opening where
  | first
  | last
  | find (key : Row) (count : Nat) (m : Match) (reversed : Bool)
  | forRow (row : Row)
  | mapped (row : Row) (map : List Nat)
  | notNull
  | leading (v : Value) (m : Match)

def Opening.cursor (ix : Index) (see : Option Visibility) (t : Tree) : Opening → Except Error Cursor
  | .first => ((Index.first see t).outcome ix).1
  | .last => Index.last see t
  | .find key count m reversed => ix.find see t key count m reversed
  | .forRow row => ix.findForRow see t row
  | .mapped row map => ix.findMapped see t row map
  | .notNull => ix.findNotNull see t
  | .leading v m => ix.findValue see t v m

structure Session where
  store : Store
  cursors : List (Index × Cursor) := []

inductive Operation where
  | insert (ix : Index) (see : Option Visibility) (v : Version)
  | delete (ix : Index) (row : RowId)
  | ask (ix : Index) (q : Query)
  | scan (ix : Index) (see : Option Visibility) (single : Bool) (o : Opening)
  | next (k : Nat) (see : Option Visibility)
  | reclaim

namespace Session

def withTree (s : Session) (ix : Index) (t : Tree) : Session :=
  { s with store := { s.store with trees := s.store.trees.set ix.position t } }

def onStore {α : Type} (act : StoreAction α) : Action Session α :=
  Action.zoom (·.store) (fun s store => { s with store }) act

end Session

open Session

def Operation.perform : Operation → Action Session Answer
  | .insert ix see v => do
    onStore (Store.onTree ix (ix.insert see v))
    return .done
  | .delete ix row => do return .truth (← onStore (Store.onTree ix (TreeAction.removeRow row)))
  | .ask ix q => Action.examine fun s => q.answer ix (s.store.tree ix)
  | .scan ix see single o => do
    let c ← Action.examine fun s => do o.cursor ix see (← s.store.tree ix)
    modify fun s => { s with cursors := s.cursors ++ [(ix, { c with single })] }
    return .done
  | .next k see => do
    match (← get).cursors[k]? with
    | none => return .row none
    | some (ix, c) =>
      let (v, c) ← Action.examine fun s => do c.advance see (← s.store.tree ix)
      modify fun s => { s with cursors := s.cursors.set k (ix, c) }
      return .row v
  | .reclaim => do return .number (← onStore (modifyGet (·.reclaim)))

namespace Session

def Allows (s : Session) : Operation → Prop
  | .insert ix _ _ => ∀ t, s.store.tree ix = .ok t → t.HasRoom
  | .delete _ _ | .ask _ _ | .scan _ _ _ _ | .next _ _ | .reclaim => True

/-- The sessions that operations lead to from a new store, those that fail included. Each insert
finds room in its tree (`HasRoom`). -/
inductive Reaches : Session → Prop
  | start {count : Nat} {config : StoreConfig} {store : Store} :
    Store.create count config = .ok store → Reaches { store }
  | step {s : Session} (op : Operation) :
    Reaches s → s.Allows op → Reaches (op.perform.outcome s).2

end Session

/-- An answer, or an error that tells of a duplicate or of a missing index. -/
def Orderly {α : Type} (r : Except Error α) : Prop :=
  ∀ e, r = .error e → e.isDuplicate = true ∨ ∃ missing, e = .indexNotFound missing

namespace Orderly

variable {α β : Type} {r : Except Error α} {f : α → Except Error β}

theorem ok (a : α) : Orderly (.ok a : Except Error α) := nofun

theorem of_ok (h : ∃ a, r = .ok a) : Orderly r := by
  obtain ⟨a, rfl⟩ := h
  exact ok a

theorem missing (m : MissingIndex) : Orderly (.error (.indexNotFound m) : Except Error α) := by
  rintro e he
  cases he
  exact Or.inr ⟨m, rfl⟩

theorem of_error {e : Error} (h : Orderly (.error e : Except Error α)) :
    Orderly (.error e : Except Error β) := by
  rintro e' he
  cases he
  exact h e rfl

theorem bind (hr : Orderly r) (hf : ∀ a, r = .ok a → Orderly (f a)) : Orderly (r >>= f) := by
  cases r with
  | ok a => exact hf a rfl
  | error e => exact hr.of_error

theorem not_inconsistent (h : Orderly r) (cause : Inconsistency) :
    r ≠ .error (.inconsistent cause) := by
  intro hfail
  rcases h _ hfail with hduplicate | ⟨missing, hmissing⟩
  · cases hduplicate
  · cases hmissing

end Orderly

namespace Session

variable {s s' : Session} {ix : Index} {t t' : Tree} {see : Option Visibility}

structure Sound (s : Session) : Prop where
  trees : ∀ t ∈ s.store.trees, ∃ shape, t.Holds shape
  cursors : ∀ p ∈ s.cursors, ∀ t, s.store.tree p.1 = .ok t → p.2.StandsIn t

theorem tree_eq_ok {store : Store} : store.tree ix = .ok t ↔ store.trees[ix.position]? = some t := by
  rw [Store.tree]
  split
  · next t' ht =>
    rw [ht]
    exact ⟨fun h => congrArg some (Except.ok.inj h), fun h => congrArg Except.ok (Option.some.inj h)⟩
  · next ht =>
    rw [ht]
    exact ⟨nofun, nofun⟩

theorem tree_orderly (store : Store) (ix : Index) : Orderly (store.tree ix) := by
  rw [Store.tree]
  split
  · exact Orderly.ok _
  · exact Orderly.missing _

theorem Sound.shape (h : s.Sound) (ht : s.store.tree ix = .ok t) : ∃ shape, t.Holds shape :=
  h.trees t (List.mem_of_getElem? (tree_eq_ok.mp ht))

/-- A question about a tree has an answer; the only thing that can be wrong is that there is no tree. -/
theorem answer_orderly {tree : Except Error Tree} (htree : Orderly tree)
    (hholds : ∀ t, tree = .ok t → ∃ shape, t.Holds shape) (ix : Index) (q : Query) :
    Orderly (q.answer ix tree) := by
  have hread {α : Type} {read : Tree → Except Error α} {said : α → Answer}
      (hok : ∀ (t : Tree) (shape : Shape), t.Holds shape → ∃ a, read t = .ok a) :
      Orderly (do return said (← read (← tree))) := by
    apply htree.bind
    intro t ht
    obtain ⟨shape, h⟩ := hholds t ht
    exact (Orderly.of_ok (hok t shape h)).bind fun a _ => Orderly.ok _
  cases q with
  | size => exact htree.bind fun t _ => Orderly.ok _
  | isEmpty => exact htree.bind fun t _ => Orderly.ok _
  | nodeCount see => exact hread fun t shape h => ⟨_, h.node_count see⟩
  | sizeEstimate =>
    rcases Tree.Holds.size_estimate hholds ix with ⟨n, hn⟩ | ⟨err, hmissing, herr⟩
    · exact (Orderly.of_ok ⟨n, hn⟩).bind fun n _ => Orderly.ok _
    · rw [hmissing] at htree
      simp only [Query.answer, herr]
      exact htree.of_error
  | sizeUnique see => exact hread fun t shape h => h.size_unique ix see
  | height => exact hread fun t shape h => ⟨_, h.height⟩
  | existsParent see row map =>
    refine hread fun t shape h => ?_
    obtain ⟨found, hsearch, -⟩ := h.search ix see .equal .reference false
      (ix.order.compareKey (KeyOrder.pick row map map.length)) fun r =>
        ix.order.compareNatural r (KeyOrder.pick row map map.length) == .eq
    refine ⟨found.isSome, ?_⟩
    simp only [Index.existsParent, Index.findNode, hsearch]
    rfl

/-- Opening a cursor succeeds, and the cursor stands on an item or at its end. -/
theorem cursor_opens {shape : Shape} (h : t.Holds shape) (ix : Index) (see : Option Visibility)
    (o : Opening) : ∃ c, o.cursor ix see t = .ok c ∧ shape.Leads c.next := by
  have hall (side : Side) : shape.itemsToward side = [] ++ shape.itemsToward side :=
    (List.nil_append _).symm
  have hlast : ∃ c, Index.last see t = .ok c ∧ shape.Leads c.next :=
    ⟨_, h.last_opens see, Tree.Holds.leads_find (hall .left) _⟩
  have hsearch (m : KeyMatch) (reversed : Bool) (compare : Row → Ordering)
      (stillEqual : Row → Bool) :
      ∃ c : Cursor, (do
        return { next := ← ix.search see t m .read reversed compare stillEqual, reversed }) =
          Except.ok c ∧ shape.Leads c.next := by
    obtain ⟨found, hrun, hfound⟩ := h.search ix see m .read reversed compare stillEqual
    exact ⟨{ next := found, reversed }, by rw [hrun]; rfl, hfound⟩
  cases o with
  | first =>
    obtain ⟨depth, hfirst⟩ := h.first_opens see ix
    exact ⟨_, congrArg Prod.fst (Action.outcome_of_ok hfirst),
      Tree.Holds.leads_find (hall .right) _⟩
  | last => exact hlast
  | find key count m reversed =>
    cases m with
    | maximum => exact hlast
    | byKey m => exact hsearch m reversed _ _
  | forRow row => exact hsearch .equal false _ _
  | mapped row map => exact hsearch .equal false _ _
  | notNull => exact hsearch .notNull false _ _
  | leading v m =>
    cases m with
    | maximum => exact hlast
    | byKey m => exact hsearch m false _ _

/-- An action on the tree of an index, seen from the session. -/
theorem on_tree_outcome {α : Type} (act : TreeAction α) (ht : s.store.tree ix = .ok t) :
    onStore (Store.onTree ix act) s =
      match act t with
      | .ok a t' => .ok a (s.withTree ix t')
      | .error e t' => .error e (s.withTree ix t') := by
  have hexamine : Action.examine (·.tree ix) s.store = .ok t s.store := Action.examine_of_ok ht
  simp only [onStore, Action.zoom, Store.onTree]
  rw [Action.bind_of_ok hexamine]
  simp only [Action.zoom]
  cases act t <;> rfl

theorem on_missing_tree {α : Type} (act : TreeAction α) {e : Error}
    (ht : s.store.tree ix = .error e) : onStore (Store.onTree ix act) s = .error e s := by
  have hexamine : Action.examine (·.tree ix) s.store = .error e s.store :=
    Action.examine_of_error ht
  simp only [onStore, Action.zoom, Store.onTree]
  rw [Action.bind_of_error hexamine]

theorem Sound.with_tree (h : s.Sound) (ht : s.store.tree ix = .ok t)
    (hholds : ∃ shape, t'.Holds shape) (hsize : t.slots.size ≤ t'.slots.size) :
    (s.withTree ix t').Sound where
  trees := by
    intro u hu
    rcases List.mem_or_eq_of_mem_set hu with hu | rfl
    · exact h.trees u hu
    · exact hholds
  cursors := by
    rintro ⟨ix', c⟩ hp u hu
    rw [tree_eq_ok] at ht
    have hold (w : Tree) (hw : s.store.trees[ix'.position]? = some w) : c.StandsIn w :=
      h.cursors _ hp w (tree_eq_ok.mpr hw)
    have hset : (s.store.trees.set ix.position t')[ix'.position]? = some u := tree_eq_ok.mp hu
    by_cases hsame : ix.position = ix'.position
    · rw [hsame, List.getElem?_set_self (List.getElem?_eq_some_iff.mp (hsame ▸ ht)).1] at hset
      obtain rfl := Option.some.inj hset
      intro id hid
      exact Nat.lt_of_lt_of_le (hold t (hsame ▸ ht) id hid) hsize
    · rw [List.getElem?_set_ne hsame] at hset
      exact hold u hset

theorem Sound.with_cursors (h : s.Sound) {cursors : List (Index × Cursor)}
    (hcursors : ∀ p ∈ cursors, p ∈ s.cursors ∨ ∀ t, s.store.tree p.1 = .ok t → p.2.StandsIn t) :
    Sound { s with cursors } where
  trees := h.trees
  cursors p hp t ht := (hcursors p hp).elim (fun hold => h.cursors p hold t ht) fun hnew => hnew t ht

theorem Sound.reclaim (h : s.Sound) : Sound { s with store := s.store.reclaim.2 } where
  trees := by
    intro t ht
    simp only [Store.reclaim, List.map_map, List.mem_map, Function.comp_apply] at ht
    obtain ⟨u, hu, rfl⟩ := ht
    obtain ⟨shape, hshape⟩ := h.trees u hu
    exact ⟨shape, hshape.reclaim⟩
  cursors := by
    intro p hp t ht
    rw [tree_eq_ok] at ht
    simp only [Store.reclaim, List.map_map, List.getElem?_map, Option.map_eq_some_iff,
      Function.comp_apply] at ht
    obtain ⟨u, hu, rfl⟩ := ht
    exact h.cursors p hp u (tree_eq_ok.mpr hu)

def Safe {α : Type} (act : Action Session α) (s : Session) : Prop :=
  Orderly (act.outcome s).1 ∧ (act.outcome s).2.Sound

section Safe

variable {α β : Type} {act : Action Session α} {f : α → Action Session β}

theorem safe_pure (h : s.Sound) (a : α) : Safe (pure a) s := ⟨Orderly.ok a, h⟩

theorem safe_bind (h : Safe act s) (hf : ∀ a s', s'.Sound → Safe (f a) s') : Safe (act >>= f) s := by
  obtain ⟨horderly, hsound⟩ := h
  cases hact : act s with
  | ok a s' =>
    rw [Action.outcome_of_ok hact] at hsound
    have hrest := hf a s' hsound
    rwa [Safe, Action.outcome, Action.bind_of_ok hact]
  | error e s' =>
    rw [Action.outcome_of_error hact] at horderly hsound
    rw [Safe, Action.outcome_of_error (Action.bind_of_error hact)]
    exact ⟨horderly.of_error, hsound⟩

theorem safe_examine (h : s.Sound) {read : Session → Except Error α} (hread : Orderly (read s)) :
    Safe (Action.examine read) s := by
  cases hr : read s with
  | ok a =>
    rw [Safe, Action.outcome_of_ok (Action.examine_of_ok hr)]
    exact ⟨Orderly.ok a, h⟩
  | error e =>
    rw [Safe, Action.outcome_of_error (Action.examine_of_error hr)]
    exact ⟨hr ▸ hread, h⟩

/-- What follows a reading step may use what has been read. -/
theorem safe_examine_bind (h : s.Sound) {read : Session → Except Error α}
    (hread : Orderly (read s)) (hf : ∀ a, read s = .ok a → Safe (f a) s) :
    Safe (Action.examine read >>= f) s := by
  cases hr : read s with
  | ok a =>
    have hrest := hf a hr
    rwa [Safe, Action.outcome, Action.bind_of_ok (Action.examine_of_ok hr)]
  | error e =>
    rw [hr] at hread
    rw [Safe, Action.outcome_of_error (Action.bind_of_error (Action.examine_of_error hr))]
    exact ⟨hread.of_error, h⟩

/-- An action on a tree is safe for the session if it ends in good order on each shape, and leaves a
tree that has a shape and all slots. -/
theorem safe_on_tree (h : s.Sound) {act : TreeAction α}
    (hact : ∀ (t : Tree) (shape : Shape), s.store.tree ix = .ok t → t.Holds shape →
      Orderly (act.outcome t).1 ∧ (∃ shape', (act.outcome t).2.Holds shape') ∧
        t.slots.size ≤ (act.outcome t).2.slots.size) :
    Safe (onStore (Store.onTree ix act)) s := by
  cases ht : s.store.tree ix with
  | error e =>
    rw [Safe, Action.outcome_of_error (on_missing_tree act ht)]
    exact ⟨(ht ▸ tree_orderly s.store ix).of_error, h⟩
  | ok t =>
    obtain ⟨shape, hshape⟩ := h.shape ht
    obtain ⟨horderly, hholds, hsize⟩ := hact t shape ht hshape
    rw [Safe, Action.outcome, on_tree_outcome act ht]
    rw [Action.outcome] at horderly hholds hsize
    cases hrun : act t with
    | ok a t' =>
      rw [hrun] at hholds hsize
      exact ⟨Orderly.ok a, h.with_tree ht hholds hsize⟩
    | error e t' =>
      rw [hrun] at horderly hholds hsize
      exact ⟨horderly.of_error, h.with_tree ht hholds hsize⟩

end Safe

theorem insert_safe (h : s.Sound) (see : Option Visibility) (v : Version)
    (hroom : ∀ t, s.store.tree ix = .ok t → t.HasRoom) :
    Safe (onStore (Store.onTree ix (ix.insert see v))) s := by
  apply safe_on_tree h
  intro t shape ht hshape
  refine ⟨?_, hshape.insert ix see v (hroom t ht), hshape.size_le_insert ix see v (hroom t ht)⟩
  intro e he
  refine Or.inl ?_
  cases hrun : ix.insert see v t with
  | ok u t' =>
    rw [Action.outcome_of_ok hrun] at he
    cases he
  | error e' t' =>
    rw [Action.outcome_of_error hrun] at he
    cases he
    exact hshape.insert_fails (hroom t ht) hrun

theorem delete_safe (h : s.Sound) (ix : Index) (row : RowId) :
    Safe (onStore (Store.onTree ix (TreeAction.removeRow row))) s := by
  apply safe_on_tree h
  intro t shape ht hshape
  obtain ⟨removed, t', hrun, -⟩ := hshape.remove_row row
  refine ⟨?_, hshape.delete row, (hshape.size_delete row).ge⟩
  rw [Action.outcome_of_ok hrun]
  exact Orderly.ok removed

theorem scan_safe (h : s.Sound) (ix : Index) (see : Option Visibility) (single : Bool)
    (o : Opening) : Safe (Operation.scan ix see single o).perform s := by
  apply safe_examine_bind h
  · apply (tree_orderly s.store ix).bind
    intro t ht
    obtain ⟨shape, hshape⟩ := h.shape ht
    obtain ⟨c, hopens, -⟩ := cursor_opens hshape ix see o
    exact Orderly.of_ok ⟨c, hopens⟩
  · intro c hc
    refine ⟨Orderly.ok _, h.with_cursors ?_⟩
    intro p hp
    rcases List.mem_append.mp hp with hp | hp
    · exact Or.inl hp
    · refine Or.inr ?_
      rw [List.mem_singleton.mp hp]
      intro t ht
      obtain ⟨shape, hshape⟩ := h.shape ht
      obtain ⟨c', hopens, hleads⟩ := cursor_opens hshape ix see o
      simp only [ht, bind, Except.bind, hopens] at hc
      obtain rfl := Except.ok.inj hc
      exact hshape.stands_in_of_leads hleads

/-- A cursor takes its step even if what it stands on has been deleted. -/
theorem next_safe (h : s.Sound) (k : Nat) (see : Option Visibility) :
    Safe (Operation.next k see).perform s := by
  have hget : (get : Action Session Session) s = .ok s s := rfl
  rw [Safe, Operation.perform, Action.outcome, Action.bind_of_ok hget]
  cases hk : s.cursors[k]? with
  | none => exact safe_pure h _
  | some p =>
    obtain ⟨ix, c⟩ := p
    have hstands (t : Tree) (ht : s.store.tree ix = .ok t) : c.StandsIn t :=
      h.cursors (ix, c) (List.mem_of_getElem? hk) t ht
    apply safe_examine_bind h
    · apply (tree_orderly s.store ix).bind
      intro t ht
      obtain ⟨shape, hshape⟩ := h.shape ht
      obtain ⟨yielded, c', hadvance, -⟩ := hshape.advance see (hstands t ht)
      exact Orderly.of_ok ⟨_, hadvance⟩
    · rintro ⟨v, c'⟩ hc
      refine ⟨Orderly.ok _, h.with_cursors ?_⟩
      intro p hp
      rcases List.mem_or_eq_of_mem_set hp with hp | rfl
      · exact Or.inl hp
      · refine Or.inr ?_
        intro t ht
        obtain ⟨shape, hshape⟩ := h.shape ht
        obtain ⟨yielded, c'', hadvance, hstands'⟩ := hshape.advance see (hstands t ht)
        simp only [ht, bind, Except.bind, hadvance] at hc
        cases hc
        exact hstands'

/-- Every operation is safe in a sound session. -/
theorem perform_safe (h : s.Sound) {op : Operation} (hop : s.Allows op) : Safe op.perform s := by
  cases op with
  | insert ix see v => exact safe_bind (insert_safe h see v hop) fun _ s' h' => safe_pure h' _
  | delete ix row => exact safe_bind (delete_safe h ix row) fun _ s' h' => safe_pure h' _
  | ask ix q =>
    exact safe_examine h (answer_orderly (tree_orderly s.store ix) (fun t ht => h.shape ht) ix q)
  | scan ix see single o => exact scan_safe h ix see single o
  | next k see => exact next_safe h k see
  | reclaim => exact ⟨Orderly.ok _, h.reclaim⟩

theorem trees_of_create {count : Nat} {config : StoreConfig} {store : Store}
    (h : Store.create count config = .ok store) : store.trees = List.replicate count {} := by
  rw [Store.create] at h
  cases hvalid : config.validate with
  | error e =>
    rw [hvalid] at h
    cases h
  | ok u =>
    rw [hvalid] at h
    cases h
    rfl

theorem Reaches.sound (h : Reaches s) : s.Sound := by
  induction h with
  | start hcreate =>
    refine ⟨?_, fun p hp => absurd hp List.not_mem_nil⟩
    intro t ht
    rw [trees_of_create hcreate] at ht
    exact ⟨.leaf, List.eq_of_mem_replicate ht ▸ Tree.holds_empty⟩
  | step op _ hop ih => exact (perform_safe ih hop).2

/-- No run of operations comes upon a tree that contradicts itself: none of them ends in an
inconsistency, for which a walk that uses up its steps counts too. Each open cursor comes to its end
within the slots of its tree, and so does the walk of an integrity check. -/
theorem Reaches.consistent (h : Reaches s) :
    (∀ op, s.Allows op → ∀ cause, (op.perform.outcome s).1 ≠ .error (.inconsistent cause)) ∧
    (∀ p ∈ s.cursors, ∀ t, s.store.tree p.1 = .ok t → ∀ (see : Option Visibility) (limit : Nat),
      t.slots.size < limit → Cursor.take see t limit p.2 = p.2.drain see t) ∧
    (∀ t ∈ s.store.trees, ∀ root, t.root = some root → ∃ first depth,
      t.leftmost root = .ok (first, depth) ∧
        (t.trailFrom (t.slots.size + 1) (some first)).2 = true) := by
  refine ⟨?_, ?_, ?_⟩
  · intro op hop cause
    exact (perform_safe h.sound hop).1.not_inconsistent cause
  · intro p hp t ht see limit hlimit
    obtain ⟨shape, hshape⟩ := h.sound.shape ht
    exact hshape.take_ends see (h.sound.cursors p hp t ht) hlimit
  · intro t ht root hroot
    obtain ⟨shape, hshape⟩ := h.sound.trees t ht
    exact hshape.check_ends hroot

/-- A cursor stands on a row that is deleted. It takes its step all the same, and comes to its end. -/
theorem stale_cursor_consistent :
    ∃ s : Session, Reaches s ∧ s.cursors = [(Index.sample, { next := some 1 })] ∧
      (s.store.trees.map fun t => t.slots[1]?.map (·.isDeleted)) = [some true] ∧
      (∀ cause, ((Operation.next 0 none).perform.outcome s).1 ≠ .error (.inconsistent cause)) ∧
      ∀ p ∈ s.cursors, ∀ t, s.store.tree p.1 = .ok t →
        Cursor.take none t (t.slots.size + 100) p.2 = p.2.drain none t := by
  have hroom {s : Session} {ix : Index}
      (h : ((s.store.tree ix).toOption.all fun t => decide t.HasRoom) = true) :
      ∀ t, s.store.tree ix = .ok t → t.HasRoom := by
    intro t ht
    rw [ht] at h
    exact of_decide_eq_true h
  have h₀ : Reaches _ := Reaches.start (rfl : Store.create 1 {} = .ok _)
  have h₁ := h₀.step (.insert Index.sample none (Index.sampleVersion 1 5)) (hroom (by decide +kernel))
  have h₂ := h₁.step (.insert Index.sample none ⟨0, 2, [], Xid.frozen⟩) (hroom (by decide +kernel))
  have h₃ := h₂.step (.scan Index.sample none false .first) trivial
  have h₄ := h₃.step (.delete Index.sample 2) trivial
  obtain ⟨hconsistent, hends, -⟩ := h₄.consistent
  refine ⟨_, h₄, by decide +kernel, by decide +kernel, hconsistent (.next 0 none) trivial, ?_⟩
  intro p hp t ht
  exact hends p hp t ht none _ (by omega)

end Session

end VersionedIndex
