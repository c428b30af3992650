import VersionedIndex.Proofs.Index.Runs
import VersionedIndex.Proofs.Table.Records
import VersionedIndex.Proofs.Table.Upkeep

/-! The sequences of versions in the trees of a table. Once row ids have run out a row may come back
while it is still stored, so all that stays is that failing calls leave the lists as they are. -/

namespace VersionedIndex

namespace Table

structure Lists (tb : Table) (l : List (List Version)) : Prop where
  in_shape : InShape tb.indexes tb.store.trees
  versions_eq : tb.store.trees.map Tree.versions = l

def HasSlots (tb : Table) : Prop := ∀ t ∈ tb.store.trees, t.HasRoom

instance : DecidablePred HasSlots :=
  fun tb => inferInstanceAs (Decidable (∀ t ∈ tb.store.trees, t.HasRoom))

def Listed (l : List (List Version)) (k : Nat) (_ : Index) (t : Tree) : Prop :=
  (∃ s, t.Holds s) ∧ l[k]? = some t.versions

def Taken (l : List (List Version)) (v : Version) (k : Nat) (_ : Index) (t' : Tree) : Prop :=
  ∃ (t : Tree) (before after : List Item),
    l[k]? = some ((before ++ after).map (·.version)) ∧ t.Gains v before after t'

/-- A tree on the way of being filled has no released slots, and slots for the versions that are left. -/
def Filling (left : List Version) (t : Tree) : Prop :=
  ∃ s, t.Holds s ∧ t.retired = #[] ∧ t.free = #[] ∧
    s.items.length + left.length ≤ Tree.nodeIdLimit

section Trees

variable {l : List (List Version)} {k : Nat} {ix : Index} {t : Tree} {v : Version}

theorem Listed.insert (h : Listed l k ix t) (hroom : t.HasRoom) (see : Option Visibility)
    (v : Version) :
    (∃ err, ix.insert see v t = .error err t) ∨
    ∃ t', ix.insert see v t = .ok () t' ∧ Taken l v k ix t' := by
  obtain ⟨⟨s, hs⟩, hlisted⟩ := h
  rcases hs.insert_gains ix see v hroom with hfail | ⟨t', before, after, hok, hitems, hgains⟩
  · exact Or.inl hfail
  · rw [hs.versions_eq, hitems] at hlisted
    exact Or.inr ⟨t', hok, t, before, after, hlisted, hgains⟩

theorem Taken.remove_row (h : Taken l v k ix t) :
    ∃ removed t', TreeAction.removeRow v.id t = .ok removed t' ∧ Listed l k ix t' := by
  obtain ⟨_, before, after, hlisted, hgains⟩ := h
  obtain ⟨t', hremove, s, hs, hitems⟩ := hgains.remove_row
  refine ⟨true, t', hremove, ⟨s, hs⟩, ?_⟩
  rw [hlisted, hs.versions_eq, hitems]

theorem Taken.in_shape (h : Taken l v k ix t) : ∃ s, t.Holds s := by
  obtain ⟨_, before, after, -, s, hs, -⟩ := h
  exact ⟨s, hs⟩

theorem Filling.insert {left : List Version} (h : Filling (v :: left) t) (ix : Index) :
    (∃ err, ix.insert none v t = .error err t) ∨
    ∃ t', ix.insert none v t = .ok () t' ∧ Filling left t' := by
  obtain ⟨s, hs, hretired, hfree, hle⟩ := h
  rw [List.length_cons] at hle
  have hroom : t.HasRoom := by
    have hsize := hs.size_eq
    rw [hretired, hfree, Array.size_empty] at hsize
    exact Or.inr (by omega)
  rcases hs.insert_gains ix none v hroom with
    hfail | ⟨t', before, after, hrun, hitems, s', hs', hitems', -, hretired', hfree'⟩
  · exact Or.inl hfail
  · refine Or.inr ⟨t', hrun, s', hs', hretired'.trans hretired, ?_, ?_⟩
    · rw [hfree', Tree.allocate, hfree]
      rfl
    · rw [hitems, List.length_append] at hle
      rw [hitems', List.length_append, List.length_cons]
      omega

end Trees

namespace Stand

variable {P : Nat → Index → Tree → Prop} {ixs : List Index} {ts : List Tree}

theorem with_get (h : Stand P 0 ixs ts) :
    Stand (fun k ix t => P k ix t ∧ ts[k]? = some t) 0 ixs ts := by
  have hbehind (all before : List Tree) {k : Nat} {ixs : List Index} {ts : List Tree}
      (h : Stand P k ixs ts) (hall : all = before ++ ts) (hk : before.length = k) :
      Stand (fun k ix t => P k ix t ∧ all[k]? = some t) k ixs ts := by
    induction h generalizing before with
    | nil => exact .nil
    | @cons k ix ixs t ts hpos hP _ ih =>
      refine .cons hpos ⟨hP, ?_⟩ (ih (before ++ [t]) ?_ ?_)
      · rw [hall, ← hk, List.getElem?_append_right (Nat.le_refl _), Nat.sub_self]
        rfl
      · rw [hall, List.append_assoc, List.singleton_append]
      · rw [List.length_append, hk, List.length_singleton]
  exact hbehind ts [] h rfl rfl

end Stand

namespace Lists

variable {tb : Table} {l : List (List Version)}

theorem counts_eq (h : tb.Lists l) :
    tb.store.trees.map Tree.elementCount = l.map List.length := by
  rw [← h.versions_eq, List.map_map]
  apply List.map_congr_left
  intro t ht
  obtain ⟨_, ix, s, hs⟩ := h.in_shape.of_mem_trees ht
  exact hs.count_versions

theorem of_definitions (h : tb.Lists l) {indexes : List Index}
    (hdefs : indexes.map Index.definition = tb.definitions) :
    ({ tb with indexes } : Table).Lists l :=
  ⟨h.in_shape.of_definitions hdefs Iff.rfl, h.versions_eq⟩

theorem stand (h : tb.Lists l) : Stand (Listed l) 0 tb.indexes tb.store.trees := by
  apply h.in_shape.with_get.imp
  rintro k ix t - - ⟨hs, ht⟩
  refine ⟨hs, ?_⟩
  rw [← h.versions_eq, List.getElem?_map, ht]
  rfl

theorem of_stand (hlength : l.length = tb.indexes.length)
    (h : Stand (Listed l) 0 tb.indexes tb.store.trees) : tb.Lists l := by
  have htrees : tb.store.trees.length = l.length := h.length_eq.trans hlength.symm
  refine ⟨h.imp fun _ _ hlisted => hlisted.1, List.ext_getElem? fun i => ?_⟩
  by_cases hi : i < l.length
  · have hix := List.getElem?_eq_getElem (hlength ▸ hi)
    obtain ⟨t, ht, -, -, hlisted⟩ := h.get hix
    rw [Nat.zero_add] at hlisted
    rw [List.getElem?_map, ht, hlisted]
    rfl
  · rw [List.getElem?_eq_none (Nat.not_lt.mp hi), List.getElem?_eq_none]
    rw [List.length_map, htrees]
    exact Nat.not_lt.mp hi

end Lists

end Table

namespace TableAction

open Table

variable {w w' : Workspace} {l : List (List Version)}

structure Keeps (begun : Nat) (w w' : Workspace) : Prop where
  in_shape : InShape w'.table.indexes w'.table.store.trees
  unmarked : w.headers.Unmarked → w'.headers.Unmarked
  manager : ∀ {n : Nat}, w.manager.Recalls n → n + begun < 2 ^ 32 - 1 →
    w'.manager.Recalls (n + begun)

theorem Keeps.of_manager_eq (hshape : InShape w'.table.indexes w'.table.store.trees)
    (hmarks : w.headers.Unmarked → w'.headers.Unmarked) (hmanager : w'.manager = w.manager) :
    Keeps 0 w w' :=
  ⟨hshape, hmarks, fun hrecalls _ => hmanager ▸ hrecalls⟩

def Settles {α : Type} (l : List (List Version)) (w : Workspace) (act : TableAction α) : Prop :=
  (∃ err w', act w = .error err w' ∧ Fails (·.Lists l) w w') ∨
  (∃ a w', act w = .ok a w' ∧ Keeps 0 w w')

theorem Settles.discard {α : Type} {act : TableAction α} (h : Settles l w act) :
    Settles l w (discard act) := by
  rcases h with ⟨err, w', hfail, hfails⟩ | ⟨a, w', hok, hkeeps⟩
  · exact Or.inl ⟨err, w', Action.discard_of_error hfail, hfails⟩
  · exact Or.inr ⟨(), w', Action.discard_of_ok hok, hkeeps⟩

theorem insert_settles (h : w.table.Lists l) (hroom : w.table.HasSlots) (txn : Transaction)
    (row : Row) : Settles l w (insert txn row) := by
  rcases insert_cases txn row w with ⟨err, hfail, -⟩ | ⟨-, -, -, hrun⟩
  · exact Or.inl ⟨err, w, hfail, .refl h⟩
  · have hready : Stand (fun k ix t => Listed l k ix t ∧ t.HasRoom) 0 w.table.indexes
        w.table.store.trees := h.stand.imp fun _ ht hlisted => ⟨hlisted, hroom _ ht⟩
    rcases insert_into_outcome (w := issued txn row w) (v := issue txn row w) (p := []) txn .nil
      hready (List.nil_append _).symm (fun ht => ht.1.insert ht.2 _ _) Taken.remove_row And.left with
      ⟨err, ts, hfail, hstand⟩ | ⟨ts, hok, hstand⟩
    · refine Or.inl ⟨err, (issued txn row w).withTrees ts, hrun.trans (Action.bind_of_error hfail),
        .of_issued row (.of_stand ?_ hstand)⟩
      exact (congrArg List.length h.versions_eq).symm.trans
        ((List.length_map _).trans h.in_shape.length_eq)
    · refine Or.inr ⟨issue txn row w, (issued txn row w).withTrees ts,
        hrun.trans (Action.bind_of_ok hok), .of_manager_eq ?_ ?_ rfl⟩
      · exact hstand.imp fun _ _ htaken => htaken.in_shape
      · intro hmarks u
        rw [Workspace.withTrees, deleter_issued txn row w u]
        exact hmarks u

theorem delete_settles (h : w.table.Lists l) (txn : Transaction) (v : Version) :
    Settles l w (delete txn v) := by
  rcases delete_outcome txn v w with ⟨err, hfail⟩ | ⟨headers, hok, -, hmark⟩
  · exact Or.inl ⟨err, w, hfail, .refl h⟩
  · exact Or.inr ⟨(), _, hok, .of_manager_eq h.in_shape (fun hmarks => hmarks.of_mark hmark) rfl⟩

theorem update_settles (h : w.table.Lists l) (hroom : w.table.HasSlots)
    (hmarks : w.headers.Unmarked) (txn : Transaction) (v : Version) (row : Row) :
    Settles l w (update txn v row) := by
  rcases update_cases txn v row w with ⟨err, hfail⟩ | ⟨headers, -, hmark, hok, hfail⟩
  · exact Or.inl ⟨err, w, hfail, .refl h⟩
  · rcases insert_settles (w := { w with headers }) h hroom txn row with
      ⟨err, w', hinsert, hfails⟩ | ⟨new, w', hinsert, hkeeps⟩
    · exact Or.inl ⟨err, _, hfail err w' hinsert, hfails.of_update hmarks hmark⟩
    · refine Or.inr ⟨new, w', hok new w' hinsert, hkeeps.in_shape, ?_, hkeeps.manager⟩
      exact fun hold => hkeeps.unmarked (hold.of_mark hmark)

theorem length_versions_le (h : InShape w.table.indexes w.table.store.trees) :
    w.table.versions.length ≤ Tree.nodeIdLimit := by
  rcases h.first with ⟨-, hnone⟩ | ⟨ix, t, -, -, -, ⟨s, hs⟩, hversions⟩
  · rw [hnone]
    exact Nat.zero_le _
  · rw [hversions, hs.versions_eq, List.length_map]
    have hsize := hs.size_eq
    have hfits := hs.fits
    omega

theorem add_index_settles (h : w.table.Lists l) (d : IndexDefinition) (config : IndexConfig) :
    Settles l w (addIndex d config) := by
  rcases add_index_cases w d config with ⟨err, hfail⟩ | ⟨ix, hcreate, hvalid⟩
  · exact Or.inl ⟨err, w, hfail, .refl h⟩
  · obtain ⟨indexes, hdefs, hfail, hok⟩ := add_index_of_valid h.in_shape hcreate hvalid
    have hpos : ix.position = w.table.indexes.length := create_position hcreate
    have hlists := h.of_definitions hdefs
    have hnothing : Filling w.table.versions {} :=
      ⟨.leaf, Tree.holds_empty, rfl, rfl, (Nat.zero_add _).trans_le (length_versions_le h.in_shape)⟩
    obtain ⟨t, hfill⟩ := fill_outcome
      (w := Workspace.withTrees { w with table := { w.table with indexes } }
        (w.table.store.trees ++ [({} : Tree)]))
      rfl (hpos.trans h.in_shape.length_eq.symm) hnothing fun hfilling => hfilling.insert ix
    rcases hfill with ⟨err, hrun, -⟩ | ⟨hrun, s, hs, -⟩
    · exact Or.inl ⟨err, _, hfail err t hrun, hlists, hdefs, rfl, .refl _ _, Nat.le_refl _⟩
    · refine Or.inr ⟨_, _, hok t hrun, .of_manager_eq ?_ id rfl⟩
      refine hlists.in_shape.append (.cons ?_ ⟨s, hs⟩ .nil)
      rw [hpos, Nat.zero_add]
      exact (length_of_definitions hdefs).symm

theorem purge_in_shape (h : InShape w.table.indexes w.table.store.trees) (v : Version) :
    ∃ removed ts, purge v w = .ok removed (w.withTrees ts) ∧ InShape w.table.indexes ts := by
  have hget : (get : TableAction Workspace) w = .ok w w := rfl
  -- A row may be bound in some trees and not in others, so nothing is known of the answer.
  obtain ⟨removed, ts, hrun, hstand, -⟩ := purge_from_outcome (p := []) (q := []) (v := v)
    (Q := fun _ _ t => ∃ s, t.Holds s) h (List.append_nil _).symm False True fun ⟨s, hs⟩ => by
      obtain ⟨removed, t', hremove, hs'⟩ := hs.remove_row v.id
      exact ⟨removed, t', hremove, hs', False.elim, fun _ => trivial⟩
  rw [List.append_nil] at hrun
  refine ⟨removed, ts, ?_, hstand⟩
  simp only [purge]
  exact (Action.bind_of_ok hget).trans hrun

theorem purge_all_in_shape (h : InShape w.table.indexes w.table.store.trees)
    (dead : List Version) :
    ∃ ts, (dead.forM fun v => discard (purge v) : TableAction Unit) w = .ok () (w.withTrees ts) ∧
      InShape w.table.indexes ts := by
  induction dead generalizing w with
  | nil => exact ⟨w.table.store.trees, rfl, h⟩
  | cons v dead ih =>
    obtain ⟨removed, ts, hrun, hshape⟩ := purge_in_shape h v
    obtain ⟨ts', hrest, hshape'⟩ := ih (w := w.withTrees ts) hshape
    exact ⟨ts', (Action.bind_of_ok (Action.discard_of_ok hrun)).trans hrest, hshape'⟩

theorem purge_settles (h : w.table.Lists l) (v : Version) : Settles l w (purge v) := by
  obtain ⟨removed, ts, hok, hshape⟩ := purge_in_shape h.in_shape v
  exact Or.inr ⟨removed, w.withTrees ts, hok, .of_manager_eq hshape id rfl⟩

theorem vacuum_settles (h : w.table.Lists l) : Settles l w vacuum := by
  rcases vacuum_cases h.in_shape with ⟨-, hrun⟩ | ⟨-, indexes, hdefs, hrun⟩
  · exact Or.inr ⟨0, w, hrun, .of_manager_eq h.in_shape id rfl⟩
  · let alive := w.table.versions.filter (not ∘ isDead w.manager w.headers)
    let w₁ : Workspace := { w with
      table := { w.table with indexes }
      headers := alive.foldl (clearAborted w.manager) w.headers }
    have hshape : InShape w₁.table.indexes w₁.table.store.trees := (h.of_definitions hdefs).in_shape
    obtain ⟨ts, hpurge, hshape'⟩ := purge_all_in_shape hshape _
    refine Or.inr ⟨_, _, hrun ts hpurge, hshape', fun hmarks => ?_, @fun n => ?_⟩
    · exact hmarks.of_loosened (clear_all_loosens w.manager w.headers alive).1
    · intro hrecalls _
      dsimp only
      split
      · exact hrecalls
      · exact hrecalls.forget w.manager.aborted

theorem reclaim_settles (h : w.table.Lists l) : Settles l w reclaim := by
  refine Or.inr ⟨_, w.withTrees ((w.table.store.trees.map Tree.reclaim).map (·.2)), rfl,
    .of_manager_eq ?_ id rfl⟩
  change Stand _ 0 w.table.indexes ((w.table.store.trees.map Tree.reclaim).map (·.2))
  rw [List.map_map]
  exact h.in_shape.map_trees _ fun ⟨s, hs⟩ => ⟨s, hs.reclaim⟩

theorem scan_settles (h : w.table.Lists l) (txn : Transaction) (position : Nat) :
    Settles l w (scan txn position) := by
  rcases scan_cases h.in_shape txn position with ⟨err, hfail⟩ | ⟨rows, indexes, hdefs, hok⟩
  · exact Or.inl ⟨err, w, hfail, .refl h⟩
  · exact Or.inr ⟨rows, _, hok, .of_manager_eq (h.of_definitions hdefs).in_shape id rfl⟩

end TableAction

end VersionedIndex
