import VersionedIndex.Proofs.Table.Headers
import VersionedIndex.Proofs.Table.Indexes

namespace VersionedIndex

theorem Except.forM_eq_ok {ε α : Type} {f : α → Except ε Unit} {l : List α} :
    l.forM f = .ok () ↔ ∀ a ∈ l, f a = .ok () := by
  induction l with
  | nil => exact iff_of_true rfl (by simp)
  | cons a l ih =>
    rw [List.forall_mem_cons, ← ih]
    change (f a >>= fun _ => l.forM f) = _ ↔ _
    cases f a with
    | error e => exact iff_of_false nofun nofun
    | ok u => exact ⟨fun h => ⟨rfl, h⟩, fun h => h.2⟩

namespace Table

def definitions (tb : Table) : List Index := tb.indexes.map Index.definition

theorem length_of_definitions {tb : Table} {indexes : List Index}
    (hdefs : indexes.map Index.definition = tb.definitions) :
    indexes.length = tb.indexes.length := by
  have hlengths := congrArg List.length hdefs
  rwa [definitions, List.length_map, List.length_map] at hlengths

/-- All indexes fit the table and hold the versions `stored`. These have rows of the table, and ids
below the next one. -/
structure Holds (tb : Table) (stored : Multiset Version) : Prop where
  in_step : InStep stored 0 tb.indexes tb.store.trees
  bare : tb.indexes = [] → stored = 0
  fits : ∀ ix ∈ tb.indexes, tb.validateIndex ix = .ok ()
  valid : ∀ v ∈ stored, tb.validate v.data = .ok ()
  numbered : ∀ v ∈ stored, v.id < tb.nextRowId

def versions (tb : Table) : List Version := tb.store.trees.head?.elim [] Tree.versions

/-- A table has no indexes and no trees, or the first tree has the table's versions. -/
theorem Stand.first {P : Nat → Index → Tree → Prop} {tb : Table}
    (h : Stand P 0 tb.indexes tb.store.trees) :
    (tb.indexes = [] ∧ tb.versions = []) ∨
    ∃ ix t, tb.indexes[0]? = some ix ∧ tb.store.trees[0]? = some t ∧ ix.position = 0 ∧
      P 0 ix t ∧ tb.versions = t.versions := by
  rcases hindexes : tb.indexes with _ | ⟨ix, rest⟩
  · refine Or.inl ⟨rfl, ?_⟩
    have hlength := h.length_eq
    rw [hindexes] at hlength
    rw [versions, List.length_eq_zero_iff.mp hlength]
    rfl
  · rw [hindexes] at h
    obtain ⟨t, ht, hpos, hP⟩ := h.get (i := 0) rfl
    refine Or.inr ⟨ix, t, rfl, ht, hpos, hP, ?_⟩
    rw [versions, List.head?_eq_getElem?, ht]
    rfl

def Stores (tb : Table) (v : Version) : Prop := ∃ t ∈ tb.store.trees, v ∈ t.versions

instance (tb : Table) : DecidablePred tb.Stores :=
  fun v => inferInstanceAs (Decidable (∃ t ∈ tb.store.trees, v ∈ t.versions))

/-- For one more version every tree has a slot, and there is a row id after its own. Node ids have 32
bits and row ids 64, and both start again from zero when they run out, which no call looks at. -/
structure HasRoom (tb : Table) : Prop where
  trees : ∀ t ∈ tb.store.trees, t.HasRoom
  rows : tb.nextRowId.toNat + 1 < 2 ^ 64

instance (tb : Table) : Decidable tb.HasRoom :=
  decidable_of_iff ((∀ t ∈ tb.store.trees, t.HasRoom) ∧ tb.nextRowId.toNat + 1 < 2 ^ 64)
    ⟨fun h => ⟨h.1, h.2⟩, fun h => ⟨h.1, h.2⟩⟩

theorem not_duplicate_of_validate {tb : Table} {row : Row} {err : Error}
    (hrow : tb.validate row = .error err) : err.isDuplicate = false := by
  simp only [validate] at hrow
  split at hrow
  · cases hrow
    rfl
  · split at hrow <;> cases hrow
    rfl

/-- A row of the table has values that the key columns of an index accept. -/
theorem accepts_of_validate {tb : Table} {ix : Index} {row : Row}
    (hix : tb.validateIndex ix = .ok ()) (hrow : tb.validate row = .ok ()) :
    ix.order.Accepts row := by
  intro c hc
  have hcolumn := Except.forM_eq_ok.mp hix c hc
  simp only [validate] at hrow
  split at hrow
  · cases hrow
  · next hlength =>
    split at hrow
    · cases hrow
    · next hfind =>
      cases htype : tb.columns[c.position]? with
      | none =>
        rw [htype] at hcolumn
        cases hcolumn
      | some type =>
        simp only [htype] at hcolumn
        split at hcolumn
        · next hsame =>
          have hlt := (List.getElem?_eq_some_iff.mp htype).1
          have hvalue : row[c.position]? = some row[c.position] :=
            List.getElem?_eq_getElem (by omega)
          have hmem : (type, row[c.position]) ∈ tb.columns.zip row :=
            List.mem_iff_getElem?.mpr ⟨c.position, List.getElem?_zip_eq_some.mpr ⟨htype, hvalue⟩⟩
          have haccepts := List.find?_eq_none.mp hfind _ hmem
          rw [KeyColumn.value, Row.column, hvalue, ← hsame]
          simpa using haccepts
        · cases hcolumn

namespace Holds

variable {tb : Table} {stored : Multiset Version} {v : Version}

theorem accepts (h : tb.Holds stored) {ix : Index} (hix : ix ∈ tb.indexes) {row : Row}
    (hrow : tb.validate row = .ok ()) : ix.order.Accepts row :=
  accepts_of_validate (h.fits ix hix) hrow

theorem in_shape (h : tb.Holds stored) : InShape tb.indexes tb.store.trees :=
  h.in_step.imp fun _ _ hcontains => hcontains.holds

theorem coe_versions (h : tb.Holds stored) : ↑tb.versions = stored := by
  rcases h.in_step.first with ⟨hempty, hnone⟩ | ⟨ix, t, -, -, -, hcontains, hversions⟩
  · rw [h.bare hempty, hnone]
    rfl
  · rw [hversions]
    exact hcontains.coe_versions

theorem card_le (h : tb.Holds stored) : stored.card ≤ Tree.nodeIdLimit := by
  rcases h.in_step.first with ⟨hempty, -⟩ | ⟨ix, t, -, -, -, hcontains, -⟩
  · rw [h.bare hempty]
    exact Nat.zero_le _
  · exact hcontains.card_le

theorem nodup_ids (h : tb.Holds stored) : (stored.map (·.id)).Nodup := by
  rcases h.in_step.first with ⟨hempty, -⟩ | ⟨ix, t, -, -, -, hcontains, -⟩
  · rw [h.bare hempty]
    exact Multiset.nodup_zero
  · exact hcontains.nodup_ids

theorem stores_iff (h : tb.Holds stored) : tb.Stores v ↔ v ∈ stored := by
  constructor
  · rintro ⟨t, ht, hv⟩
    obtain ⟨_, ix, hcontains⟩ := h.in_step.of_mem_trees ht
    exact hcontains.mem_versions.mp hv
  · intro hv
    rcases h.in_step.first with ⟨hempty, -⟩ | ⟨ix, t, -, ht, -, hcontains, -⟩
    · rw [h.bare hempty] at hv
      exact absurd hv (Multiset.notMem_zero v)
    · exact ⟨t, List.mem_of_getElem? ht, hcontains.mem_versions.mpr hv⟩

/-- A row is stored once. -/
theorem eq_of_id_eq (h : tb.Holds stored) {u : Version} (hu : u ∈ stored) (hv : v ∈ stored)
    (hid : u.id = v.id) : u = v :=
  Multiset.inj_on_of_nodup_map h.nodup_ids u hu v hv hid

/-- Whatever the indexes remember of their scans, the table holds the same. -/
theorem of_definitions (h : tb.Holds stored) {indexes : List Index}
    (hdefs : indexes.map Index.definition = tb.definitions) :
    ({ tb with indexes } : Table).Holds stored := by
  refine ⟨?_, ?_, ?_, h.valid, h.numbered⟩
  · exact h.in_step.of_definitions hdefs Index.Contains.definition_iff
  · intro hempty
    have hnone : tb.definitions = [] := by
      rw [← hdefs, List.map_eq_nil_iff]
      exact hempty
    exact h.bare (List.map_eq_nil_iff.mp hnone)
  · intro ix hix
    have hmem : ix.definition ∈ tb.definitions := hdefs ▸ List.mem_map_of_mem hix
    obtain ⟨old, hold, hsame⟩ := List.mem_map.mp hmem
    have hfits : tb.validateIndex old.definition = .ok () := h.fits old hold
    rw [hsame] at hfits
    exact hfits

/-- A table after an insert, whether or not a version with the next id has been stored. -/
theorem of_insert (h : tb.Holds stored) (hroom : tb.HasRoom) (hindexed : tb.indexes ≠ [])
    {trees : List Tree} {stored' : Multiset Version} (hstep : InStep stored' 0 tb.indexes trees)
    (hnew : ∀ u ∈ stored', u ∈ stored ∨ u.id = tb.nextRowId ∧ tb.validate u.data = .ok ()) :
    ({ tb with store := { tb.store with trees }, nextRowId := tb.nextRowId + 1 } : Table).Holds
      stored' := by
  -- The next row id does not start again from zero, so what is numbered below it stays below.
  have hnext : tb.nextRowId < tb.nextRowId + 1 := by
    rw [UInt64.lt_iff_toNat_lt, UInt64.toNat_add, UInt64.toNat_one, Nat.mod_eq_of_lt hroom.rows]
    omega
  refine ⟨hstep, fun hempty => absurd hempty hindexed, h.fits, fun u hu => ?_, fun u hu => ?_⟩
  · rcases hnew u hu with hold | ⟨-, hvalid⟩
    · exact h.valid u hold
    · exact hvalid
  · rcases hnew u hu with hold | ⟨hid, -⟩
    · exact UInt64.lt_trans (h.numbered u hold) hnext
    · exact hid ▸ hnext

theorem fresh (h : tb.Holds stored) (hid : v.id = tb.nextRowId) : ∀ u ∈ stored, u.id ≠ v.id := by
  intro u hu hsame
  have hlt := h.numbered u hu
  rw [hsame, hid] at hlt
  exact absurd hlt (UInt64.lt_irrefl _)

end Holds

end Table

namespace TableAction

open Table

variable {w : Workspace} {stored : Multiset Version} {v : Version} {txn : Transaction}

theorem index_of_some {pos : Nat} {ix : Index} (hix : w.table.indexes[pos]? = some ix) :
    onTable (·.index pos) w = .ok ix w := by
  apply Action.examine_of_ok
  simp only [Table.index, hix]

theorem tree_of_some {ix : Index} {t : Tree} (ht : w.table.store.trees[ix.position]? = some t) :
    treeOf ix w = .ok t w := by
  have hread : w.table.store.tree ix = .ok t := by simp only [Store.tree, ht]
  change Action.examine (fun w : Workspace => w.table.store.tree ix) w = _
  exact Action.examine_of_ok hread

/-- A scan yields the readable versions of a tree in its order. It changes no more than what the index
remembers of scans. -/
theorem scan_all_of_tree (see : Option Visibility) {pos : Nat} {ix : Index} {t : Tree}
    (hix : w.table.indexes[pos]? = some ix) (ht : w.table.store.trees[pos]? = some t)
    (hpos : ix.position = pos) (htree : ∃ s, t.Holds s) :
    ∃ indexes : List Index, indexes.map Index.definition = w.table.definitions ∧
      scanAll see pos w = .ok (t.versions.filter (Visibility.admits see .read))
        { w with table := { w.table with indexes } } := by
  obtain rfl := hpos
  obtain ⟨s, hs⟩ := htree
  obtain ⟨c, depth, hfirst, hdrain⟩ := hs.drain_versions see ix
  refine ⟨w.table.indexes.set ix.position { ix with scanDepth := depth }, ?_, ?_⟩
  · obtain ⟨hlt, hget⟩ := List.getElem?_eq_some_iff.mp hix
    have hself := List.set_getElem_self (List.length_map Index.definition ▸ hlt)
    rw [List.getElem_map, hget] at hself
    rw [List.map_set]
    exact hself
  · have hcursor : onIndex ix (Index.first see t) w = .ok c
        { w with table := { w.table with
          indexes := w.table.indexes.set ix.position { ix with scanDepth := depth } } } := by
      simp only [onIndex, Action.zoom, hfirst]
    simp only [scanAll]
    rw [Action.bind_of_ok (index_of_some hix), Action.bind_of_ok (tree_of_some ht),
      Action.bind_of_ok hcursor, ← hdrain]
    rfl

/-- A scan fails when there is no such index, and else it yields some versions. -/
theorem scan_cases (h : InShape w.table.indexes w.table.store.trees) (txn : Transaction)
    (position : Nat) :
    (∃ err, scan txn position w = .error err w) ∨
    ∃ (rows : List Version) (indexes : List Index),
      indexes.map Index.definition = w.table.definitions ∧
      scan txn position w = .ok rows { w with table := { w.table with indexes } } := by
  let see := txn.visibility w.manager w.headers
  have hsee : visibility txn w = .ok see w := rfl
  cases hix : w.table.indexes[position]? with
  | none =>
    have hmissing : w.table.index position =
        .error (.indexNotFound (.atPosition w.table.name position)) := by
      simp only [Table.index, hix]
    have hindex : onTable (·.index position) w = .error _ w := Action.examine_of_error hmissing
    exact Or.inl ⟨_, (Action.bind_of_ok hsee).trans (Action.bind_of_error hindex)⟩
  | some ix =>
    obtain ⟨t, ht, hpos, htree⟩ := h.get hix
    obtain ⟨indexes, hdefs, hscan⟩ :=
      scan_all_of_tree (some see) hix ht (hpos.trans (Nat.zero_add position)) htree
    exact Or.inr ⟨_, indexes, hdefs, (Action.bind_of_ok hsee).trans hscan⟩

/-- A scan by a transaction yields what it can read, in the order of the index. -/
theorem scan_of_holds (h : w.table.Holds stored) (txn : Transaction) {pos : Nat} {ix : Index}
    (hix : w.table.indexes[pos]? = some ix) :
    ∃ t, w.table.store.trees[pos]? = some t ∧ ix.Contains t stored ∧
      ((scan txn pos).outcome w).1 =
        .ok (t.versions.filter (txn.canRead w.manager w.headers · .read)) := by
  let see := txn.visibility w.manager w.headers
  have hsee : visibility txn w = .ok see w := rfl
  obtain ⟨t, ht, hpos, hcontains⟩ := h.in_step.get hix
  obtain ⟨indexes, -, hscan⟩ :=
    scan_all_of_tree (some see) hix ht (hpos.trans (Nat.zero_add pos)) hcontains.holds
  have hok : scan txn pos w = .ok _ _ := (Action.bind_of_ok hsee).trans hscan
  refine ⟨t, ht, hcontains, ?_⟩
  rw [Action.outcome, hok]
  rfl

theorem ensure_active_of_active (hactive : w.manager.isActive txn.xid = true) :
    ensureActive txn w = .ok () w := by
  apply Action.examine_of_ok
  rw [Transaction.ensureActive, hactive]
  rfl

theorem ensure_active_of_closed (hclosed : w.manager.isActive txn.xid = false) :
    ensureActive txn w = .error (.transactionClosed txn.xid) w := by
  apply Action.examine_of_error
  rw [Transaction.ensureActive, hclosed]
  rfl

/-- What a call that fails leaves of a workspace: a table of which `T` is true, and the manager. It may
have used up a row id and a header, and have removed stamps of aborted transactions. -/
structure Fails (T : Table → Prop) (w w' : Workspace) : Prop where
  table : T w'.table
  definitions : w'.table.definitions = w.table.definitions
  manager : w'.manager = w.manager
  loosened : Headers.Loosened w.manager.isAborted w.headers w'.headers
  size_le : w.headers.deleters.size ≤ w'.headers.deleters.size

theorem Fails.refl {T : Table → Prop} (h : T w.table) : Fails T w w :=
  ⟨h, rfl, rfl, .refl _ _, Nat.le_refl _⟩

def issue (txn : Transaction) (row : Row) (w : Workspace) : Version :=
  (w.headers.create w.table.nextRowId row txn.xid).1

def issued (txn : Transaction) (row : Row) (w : Workspace) : Workspace := { w with
  headers := (w.headers.create w.table.nextRowId row txn.xid).2
  table := { w.table with nextRowId := w.table.nextRowId + 1 } }

structure Inserts (txn : Transaction) (row : Row) (v : Version) (w w' : Workspace)
    (stored : Multiset Version) : Prop where
  active : w.manager.isActive txn.xid = true
  created : (v, w'.headers) = w.headers.create w.table.nextRowId row txn.xid
  holds : w'.table.Holds (v ::ₘ stored)
  indexes : w'.table.indexes = w.table.indexes
  manager : w'.manager = w.manager
  vacant : ∀ ix ∈ w.table.indexes,
    ix.Vacant (some (txn.visibility w.manager w'.headers)) v stored
  shape : ∃ ts, w' = (issued txn row w).withTrees ts ∧ ∀ t' ∈ ts, ∃ t ∈ w.table.store.trees,
    t'.retired = t.retired ∧ t'.free = (t.allocate v).2.free

theorem deleter_issued (txn : Transaction) (row : Row) (w : Workspace) (u : Version) :
    (issued txn row w).headers.deleter? u = w.headers.deleter? u :=
  Headers.deleter_create w.headers w.table.nextRowId row txn.xid u

/-- An insert that has issued a version and fails then has left stamps and manager. -/
theorem Fails.of_issued {T : Table → Prop} (row : Row) {trees : List Tree}
    (h : T ((issued txn row w).withTrees trees).table) :
    Fails T w ((issued txn row w).withTrees trees) := by
  refine ⟨h, rfl, rfl, .of_deleter_eq (deleter_issued txn row w), ?_⟩
  exact Nat.le_of_succ_le (Headers.size_create w.headers w.table.nextRowId row txn.xid).ge

/-- When all checks are passed, the new version goes into the indexes. -/
theorem insert_of_valid {row : Row} (hactive : w.manager.isActive txn.xid = true)
    (hvalid : w.table.validate row = .ok ()) (hindexed : w.table.indexes ≠ []) :
    insert txn row w = (do
      insertInto txn (issue txn row w) [] w.table.indexes
      return issue txn row w : TableAction Version) (issued txn row w) := by
  have hrow : onTable (·.validate row) w = .ok () w := Action.examine_of_ok hvalid
  have hget : (get : TableAction Workspace) w = .ok w w := rfl
  simp only [insert]
  rw [Action.bind_of_ok (ensure_active_of_active hactive), Action.bind_of_ok hrow,
    Action.bind_of_ok hget, List.isEmpty_eq_false_iff.mpr hindexed]
  rfl

/-- An insert fails before it has changed anything, and not for a duplicate, or all checks are passed and
the new version goes into the indexes. -/
theorem insert_cases (txn : Transaction) (row : Row) (w : Workspace) :
    (∃ err, insert txn row w = .error err w ∧ err.isDuplicate = false) ∨
    w.manager.isActive txn.xid = true ∧ w.table.validate row = .ok () ∧ w.table.indexes ≠ [] ∧
      insert txn row w = (do
        insertInto txn (issue txn row w) [] w.table.indexes
        return issue txn row w : TableAction Version) (issued txn row w) := by
  cases hactive : w.manager.isActive txn.xid with
  | false => exact Or.inl ⟨_, Action.bind_of_error (ensure_active_of_closed hactive), rfl⟩
  | true =>
    cases hvalid : w.table.validate row with
    | error err =>
      have hrow : onTable (·.validate row) w = .error err w := Action.examine_of_error hvalid
      refine Or.inl ⟨err, ?_, not_duplicate_of_validate hvalid⟩
      exact (Action.bind_of_ok (ensure_active_of_active hactive)).trans (Action.bind_of_error hrow)
    | ok =>
      by_cases hindexed : w.table.indexes = []
      · have hrow : onTable (·.validate row) w = .ok () w := Action.examine_of_ok hvalid
        have hget : (get : TableAction Workspace) w = .ok w w := rfl
        refine Or.inl ⟨.indexNotFound (.anyOf w.table.name), ?_, rfl⟩
        simp only [insert]
        rw [Action.bind_of_ok (ensure_active_of_active hactive), Action.bind_of_ok hrow,
          Action.bind_of_ok hget, hindexed]
        rfl
      · exact Or.inr ⟨rfl, rfl, hindexed, insert_of_valid hactive hvalid hindexed⟩

/-- An insert fails and stores nothing, or it stores its row as a new version. -/
theorem insert_outcome (h : w.table.Holds stored) (hroom : w.table.HasRoom) (txn : Transaction)
    (row : Row) :
    (∃ err w', insert txn row w = .error err w' ∧ Fails (·.Holds stored) w w') ∨
    (∃ v w', insert txn row w = .ok v w' ∧ Inserts txn row v w w' stored) := by
  rcases insert_cases txn row w with ⟨err, hfail, -⟩ | ⟨hactive, hvalid, hindexed, hrun⟩
  · exact Or.inl ⟨err, w, hfail, .refl h⟩
  · let v := issue txn row w
    let see := txn.visibility (issued txn row w).manager (issued txn row w).headers
    have hfresh : ∀ u ∈ stored, u.id ≠ v.id := h.fresh rfl
    have hwithout : (v ::ₘ stored).filter (·.id ≠ v.id) = stored := by
      rw [Multiset.filter_cons_of_neg _ (by simp), Multiset.filter_eq_self.mpr hfresh]
    have hready : Stand (fun _ ix t => ix.Contains t stored ∧ t.HasRoom ∧
        ix.order.Accepts v.data ∧ t ∈ w.table.store.trees) 0 w.table.indexes w.table.store.trees :=
      h.in_step.imp fun hix ht hcontains =>
        ⟨hcontains, hroom.trees _ ht, h.accepts hix hvalid, ht⟩
    rcases insert_into_outcome (w := issued txn row w) (v := v) (p := [])
      (Q := fun _ ix t' => ix.Contains t' (v ::ₘ stored) ∧ ix.Vacant (some see) v stored ∧
        ∃ t ∈ w.table.store.trees, t'.retired = t.retired ∧ t'.free = (t.allocate v).2.free)
      (R := fun _ ix t => ix.Contains t stored) txn .nil hready (List.nil_append _).symm
      (fun ⟨hcontains, hspace, hv, ht⟩ =>
        (hcontains.insert (some see) hspace hv hfresh).imp_right
          fun ⟨t', hok, hcontains', hvacant, hslots⟩ =>
            ⟨t', hok, hcontains', hvacant, _, ht, hslots⟩)
      (fun ⟨hcontains, _⟩ => by
        obtain ⟨removed, t', hremove, hback, -⟩ := hcontains.remove_row v.id
        exact ⟨removed, t', hremove, hwithout ▸ hback⟩)
      (fun hP => hP.1) with ⟨err, ts, hfail, hstand⟩ | ⟨ts, hok, hstand⟩
    · refine Or.inl ⟨err, (issued txn row w).withTrees ts,
        hrun.trans (Action.bind_of_error hfail), .of_issued row ?_⟩
      exact h.of_insert hroom hindexed hstand fun u hu => Or.inl hu
    · refine Or.inr ⟨v, (issued txn row w).withTrees ts, hrun.trans (Action.bind_of_ok hok),
        hactive, rfl, h.of_insert hroom hindexed (hstand.imp fun _ _ hQ => hQ.1) fun u hu => ?_,
        rfl, rfl, fun ix hix => ?_, ts, rfl, fun t' ht' => ?_⟩
      · rcases Multiset.mem_cons.mp hu with rfl | hold
        · exact Or.inr ⟨rfl, hvalid⟩
        · exact Or.inl hold
      · obtain ⟨_, _, -, hvacant, -⟩ := hstand.of_mem hix
        exact hvacant
      · obtain ⟨_, _, -, -, hslots⟩ := hstand.of_mem_trees ht'
        exact hslots

theorem delete_of_mark {headers : Headers} (hactive : w.manager.isActive txn.xid = true)
    (hmark : w.headers.markDeleted v txn.xid w.manager.isAborted = .ok headers) :
    delete txn v w = .ok () { w with headers } := by
  have hget : (get : TableAction Workspace) w = .ok w w := rfl
  simp only [delete]
  rw [Action.bind_of_ok (ensure_active_of_active hactive), Action.bind_of_ok hget, hmark]
  rfl

/-- A delete fails and changes nothing, or it stamps the version. -/
theorem delete_outcome (txn : Transaction) (v : Version) (w : Workspace) :
    (∃ err, delete txn v w = .error err w) ∨
    (∃ headers, delete txn v w = .ok () { w with headers } ∧
      w.manager.isActive txn.xid = true ∧
      w.headers.markDeleted v txn.xid w.manager.isAborted = .ok headers) := by
  cases hactive : w.manager.isActive txn.xid with
  | false => exact Or.inl ⟨_, Action.bind_of_error (ensure_active_of_closed hactive)⟩
  | true =>
    cases hmark : w.headers.markDeleted v txn.xid w.manager.isAborted with
    | error holder =>
      have hget : (get : TableAction Workspace) w = .ok w w := rfl
      refine Or.inl ⟨.writeConflict v.id, ?_⟩
      simp only [delete]
      rw [Action.bind_of_ok (ensure_active_of_active hactive), Action.bind_of_ok hget, hmark]
      rfl
    | ok headers => exact Or.inr ⟨headers, delete_of_mark hactive hmark, rfl, rfl⟩

/-- An update goes as its delete and its insert go. When only the insert fails, a stamp that the
transaction had set before stays, and one that is new is taken off again. -/
theorem update_of_mark {headers : Headers} (row : Row)
    (hactive : w.manager.isActive txn.xid = true)
    (hmark : w.headers.markDeleted v txn.xid w.manager.isAborted = .ok headers) :
    (∀ new w', insert txn row { w with headers } = .ok new w' → update txn v row w = .ok new w') ∧
    ∀ err w', insert txn row { w with headers } = .error err w' →
      update txn v row w = .error err { w' with
        headers := if w.headers.deleter? v = some txn.xid then w'.headers
          else w'.headers.clearDeleted v txn.xid } := by
  have hget : (get : TableAction Workspace) w = .ok w w := rfl
  simp only [update]
  rw [Action.bind_of_ok hget, Action.bind_of_ok (delete_of_mark hactive hmark)]
  refine ⟨fun new w' hok => Action.try_of_ok hok, fun err w' hfail => ?_⟩
  rw [Action.try_of_error hfail]
  by_cases hbefore : w.headers.deleter? v = some txn.xid
  · simp only [hbefore]
    rfl
  · simp only [hbefore]
    rfl

theorem update_cases (txn : Transaction) (v : Version) (row : Row) (w : Workspace) :
    (∃ err, update txn v row w = .error err w) ∨
    ∃ headers, w.manager.isActive txn.xid = true ∧
      w.headers.markDeleted v txn.xid w.manager.isAborted = .ok headers ∧
      (∀ new w', insert txn row { w with headers } = .ok new w' →
        update txn v row w = .ok new w') ∧
      ∀ err w', insert txn row { w with headers } = .error err w' →
        update txn v row w = .error err { w' with
          headers := if w.headers.deleter? v = some txn.xid then w'.headers
            else w'.headers.clearDeleted v txn.xid } := by
  have hget : (get : TableAction Workspace) w = .ok w w := rfl
  rcases delete_outcome txn v w with ⟨err, hfail⟩ | ⟨headers, -, hactive, hmark⟩
  · exact Or.inl ⟨err, (Action.bind_of_ok hget).trans (Action.bind_of_error hfail)⟩
  · exact Or.inr ⟨headers, hactive, hmark, update_of_mark row hactive hmark⟩

/-- What an update leaves when only its insert fails. -/
theorem Fails.of_update {T : Table → Prop} {headers : Headers} {w' : Workspace}
    (hfails : Fails T { w with headers } w') (hmarks : w.headers.Unmarked)
    (hmark : w.headers.markDeleted v txn.xid w.manager.isAborted = .ok headers) :
    Fails T w { w' with
      headers := if w.headers.deleter? v = some txn.xid then w'.headers
        else w'.headers.clearDeleted v txn.xid } where
  table := hfails.table
  definitions := hfails.definitions
  manager := hfails.manager
  loosened := Headers.loosened_of_update hmarks hmark hfails.loosened
  size_le := Headers.size_of_update hmark hfails.size_le

/-- An update fails and leaves the stamps of all transactions that have not aborted, or it stamps the
version and stores the new one. -/
theorem update_outcome (h : w.table.Holds stored) (hroom : w.table.HasRoom)
    (hmarks : w.headers.Unmarked) (txn : Transaction) (v : Version) (row : Row) :
    (∃ err w', update txn v row w = .error err w' ∧ Fails (·.Holds stored) w w') ∨
    (∃ headers new w', update txn v row w = .ok new w' ∧
      w.headers.markDeleted v txn.xid w.manager.isAborted = .ok headers ∧
      Inserts txn row new { w with headers } w' stored) := by
  rcases update_cases txn v row w with ⟨err, hfail⟩ | ⟨headers, -, hmark, hok, hfail⟩
  · exact Or.inl ⟨err, w, hfail, .refl h⟩
  · rcases insert_outcome (w := { w with headers }) h hroom txn row with
      ⟨err, w', hinsert, hfails⟩ | ⟨new, w', hinsert, hinserts⟩
    · exact Or.inl ⟨err, _, hfail err w' hinsert, hfails.of_update hmarks hmark⟩
    · exact Or.inr ⟨headers, new, w', hok new w' hinsert, hmark, hinserts⟩

end TableAction

end VersionedIndex
