import VersionedIndex.Proofs.Table.Calls

namespace VersionedIndex

namespace TableAction

open Table

variable {w : Workspace} {stored : Multiset Version}

theorem holds_of_filter (h : w.table.Holds stored) {p : Version → Prop} [DecidablePred p]
    {ts : List Tree} (hstep : InStep (stored.filter p) 0 w.table.indexes ts) :
    (w.withTrees ts).table.Holds (stored.filter p) := by
  refine ⟨hstep, fun hempty => ?_, h.fits, fun v hv => ?_, fun v hv => ?_⟩
  · rw [h.bare hempty]
    rfl
  · exact h.valid v (Multiset.mem_of_mem_filter hv)
  · exact h.numbered v (Multiset.mem_of_mem_filter hv)

theorem purge_outcome (h : w.table.Holds stored) (v : Version) :
    ∃ (removed : Bool) (ts : List Tree), purge v w = .ok removed (w.withTrees ts) ∧
      (w.withTrees ts).table.Holds (stored.filter (·.id ≠ v.id)) ∧
      (removed = true ↔ ∃ u ∈ stored, u.id = v.id) := by
  have hget : (get : TableAction Workspace) w = .ok w w := rfl
  let found : Prop := ∃ u ∈ stored, u.id = v.id
  obtain ⟨removed, ts, hrun, hstand, hmust, hmay⟩ := purge_from_outcome (p := []) (q := [])
    (Q := fun _ ix t => ix.Contains t (stored.filter (·.id ≠ v.id))) (v := v)
    h.in_step (List.append_nil _).symm found found fun hcontains => by
      obtain ⟨removed, t', hremove, hcontains', hremoved⟩ := hcontains.remove_row v.id
      exact ⟨removed, t', hremove, hcontains', hremoved.mpr, hremoved.mp⟩
  rw [List.append_nil] at hrun
  refine ⟨removed, ts, ?_, holds_of_filter h hstand, fun hany => (hmay hany).2, fun hfound => ?_⟩
  · simp only [purge]
    exact (Action.bind_of_ok hget).trans hrun
  · refine hmust (fun hempty => ?_) hfound
    obtain ⟨u, hu, -⟩ := hfound
    rw [h.bare hempty] at hu
    exact Multiset.notMem_zero u hu

theorem purge_all_outcome (h : w.table.Holds stored) (dead : List Version) :
    ∃ ts, (dead.forM fun v => discard (purge v) : TableAction Unit) w = .ok () (w.withTrees ts) ∧
      (w.withTrees ts).table.Holds (stored.filter fun u => ∀ v ∈ dead, u.id ≠ v.id) := by
  -- By induction on the dead versions; each purge leaves a table of fewer versions.
  induction dead generalizing w stored with
  | nil =>
    refine ⟨w.table.store.trees, rfl, ?_⟩
    rw [Multiset.filter_eq_self.mpr (by simp)]
    exact h
  | cons v dead ih =>
    obtain ⟨removed, ts, hrun, hholds, -⟩ := purge_outcome h v
    obtain ⟨ts', hrest, hholds'⟩ := ih hholds
    rw [Multiset.filter_filter] at hholds'
    refine ⟨ts', ?_, ?_⟩
    · exact (Action.bind_of_ok (Action.discard_of_ok hrun)).trans hrest
    · have hsplit : (stored.filter fun u => ∀ x ∈ v :: dead, u.id ≠ x.id) =
          stored.filter fun u => (∀ x ∈ dead, u.id ≠ x.id) ∧ u.id ≠ v.id :=
        Multiset.filter_congr fun u _ => by rw [List.forall_mem_cons, and_comm]
      rw [hsplit]
      exact hholds'

/-- Purging the versions of which something is true leaves those of which it is not, for every row is
stored once. -/
theorem filter_ids_eq (h : w.table.Holds stored) {l : List Version} (hl : ↑l = stored)
    (p : Version → Bool) :
    (stored.filter fun u : Version => ∀ v ∈ l.filter p, u.id ≠ v.id) =
      stored.filter fun v => p v = false := by
  have hmem (v : Version) : v ∈ l ↔ v ∈ stored := by rw [← hl, Multiset.mem_coe]
  apply Multiset.filter_congr
  intro u hu
  constructor
  · intro hkept
    apply Bool.eq_false_iff.mpr
    intro hpu
    exact hkept u (List.mem_filter.mpr ⟨(hmem u).mpr hu, hpu⟩) rfl
  · -- A row is stored once, so a version with the row of a purged one is that version.
    intro hpu v hv hid
    obtain ⟨hversion, hpv⟩ := List.mem_filter.mp hv
    obtain rfl := h.eq_of_id_eq hu ((hmem v).mp hversion) hid
    rw [hpu] at hpv
    cases hpv

theorem scan_everything {ix : Index} {t : Tree} {position : Nat}
    (hix : w.table.indexes[position]? = some ix) (ht : w.table.store.trees[position]? = some t)
    (hpos : ix.position = position) (htree : ∃ s, t.Holds s) :
    ∃ indexes : List Index, indexes.map Index.definition = w.table.definitions ∧
      scanAll none position w = .ok t.versions { w with table := { w.table with indexes } } := by
  obtain ⟨indexes, hdefs, hscan⟩ := scan_all_of_tree none hix ht hpos htree
  have heverything : t.versions.filter (Visibility.admits none .read) = t.versions :=
    List.filter_eq_self.mpr fun _ _ => rfl
  rw [heverything] at hscan
  exact ⟨indexes, hdefs, hscan⟩

/-- What a vacuum leaves of a workspace: the versions that are not dead, none of which is stamped by
an aborted transaction any more. It touches no headers but theirs. -/
structure Vacuums (w w' : Workspace) (stored : Multiset Version) : Prop where
  holds : w'.table.Holds (stored.filter fun v => isDead w.manager w.headers v = false)
  definitions : w'.table.definitions = w.table.definitions
  loosened : Headers.Loosened w.manager.isAborted w.headers w'.headers
  size_eq : w'.headers.deleters.size = w.headers.deleters.size
  cleared : ∀ v ∈ stored, isDead w.manager w.headers v = false →
    ∀ x, w'.headers.deleter? v = some x → w.manager.isAborted x = false
  untouched : ∀ u : Version, (∀ v ∈ stored, u.header ≠ v.header) →
    w'.headers.deleter? u = w.headers.deleter? u
  manager : w'.manager =
    if w.table.indexes.isEmpty || w.manager.hasActive then w.manager
    else w.manager.forgetAborted w.manager.aborted

/-- A vacuum finds all versions in the first index. It clears the stamps on those that are not dead,
purges the others, and has the manager forget if nothing runs. -/
theorem vacuum_cases (h : InShape w.table.indexes w.table.store.trees) :
    (w.table.indexes = [] ∧ vacuum w = .ok 0 w) ∨
    (w.table.indexes ≠ [] ∧ ∃ indexes : List Index,
      indexes.map Index.definition = w.table.definitions ∧
      let dead := w.table.versions.filter (isDead w.manager w.headers)
      let alive := w.table.versions.filter (not ∘ isDead w.manager w.headers)
      let w₁ : Workspace := { w with
        table := { w.table with indexes }
        headers := alive.foldl (clearAborted w.manager) w.headers }
      ∀ ts, (dead.forM fun v => discard (purge v) : TableAction Unit) w₁ = .ok () (w₁.withTrees ts) →
        vacuum w = .ok dead.length { w₁.withTrees ts with
          manager := if w.manager.hasActive then w.manager
            else w.manager.forgetAborted w.manager.aborted }) := by
  have hget : (get : TableAction Workspace) w = .ok w w := rfl
  simp only [vacuum, List.partition_eq_filter_filter]
  rw [Action.bind_of_ok hget]
  rcases h.first with ⟨hempty, -⟩ | ⟨ix, t, hix, ht, hpos, htree, hversions⟩
  · rw [hempty]
    exact Or.inl ⟨rfl, rfl⟩
  · have hindexed : w.table.indexes ≠ [] := List.ne_nil_of_mem (List.mem_of_getElem? hix)
    rw [List.isEmpty_eq_false_iff.mpr hindexed]
    obtain ⟨indexes, hdefs, hscan⟩ := scan_everything hix ht hpos htree
    rw [← hversions] at hscan
    refine Or.inr ⟨hindexed, indexes, hdefs, fun ts hpurge => ?_⟩
    refine (Action.bind_of_ok hscan).trans ?_
    have hclear : (modify fun w' : Workspace => { w' with
        headers := (w.table.versions.filter (not ∘ isDead w.manager w.headers)).foldl
          (clearAborted w.manager) w'.headers } : TableAction Unit)
        { w with table := { w.table with indexes } } = .ok () _ := rfl
    refine (Action.bind_of_ok hclear).trans ((Action.bind_of_ok hpurge).trans ?_)
    cases hactive : w.manager.hasActive with
    | true => rfl
    | false => rfl

/-- A vacuum purges the dead versions and counts them. -/
theorem vacuum_outcome (h : w.table.Holds stored) :
    ∃ w', vacuum w = .ok (stored.filter fun v => isDead w.manager w.headers v = true).card w' ∧
      Vacuums w w' stored := by
  rcases vacuum_cases h.in_shape with ⟨hempty, hrun⟩ | ⟨hindexed, indexes, hdefs, hrun⟩
  · obtain rfl := h.bare hempty
    refine ⟨w, hrun, h, rfl, .refl _ _, rfl, by simp, fun _ _ => rfl, ?_⟩
    rw [hempty]
    rfl
  · have hmem (v : Version) : v ∈ w.table.versions ↔ v ∈ stored := by
      rw [← h.coe_versions, Multiset.mem_coe]
    let dead := w.table.versions.filter (isDead w.manager w.headers)
    let alive := w.table.versions.filter (not ∘ isDead w.manager w.headers)
    let w₁ : Workspace := { w with
      table := { w.table with indexes }
      headers := alive.foldl (clearAborted w.manager) w.headers }
    obtain ⟨ts, hpurge, hholds⟩ := purge_all_outcome (w := w₁) (h.of_definitions hdefs) dead
    have hkept := filter_ids_eq h h.coe_versions (isDead w.manager w.headers)
    have hcount : (stored.filter fun v => isDead w.manager w.headers v = true).card =
        dead.length := by
      rw [← h.coe_versions, Multiset.filter_coe, Multiset.coe_card]
      simp only [Bool.decide_eq_true, dead]
    obtain ⟨hloose, hsize, hcleared⟩ := clear_all_loosens w.manager w.headers alive
    have hclean : ∀ v ∈ stored, isDead w.manager w.headers v = false →
        ∀ x, w₁.headers.deleter? v = some x → w.manager.isAborted x = false := by
      intro v hv halive
      refine hcleared v (List.mem_filter.mpr ⟨(hmem v).mpr hv, ?_⟩)
      rw [Function.comp_apply, halive]
      rfl
    have huntouched (u : Version) (hu : ∀ v ∈ stored, u.header ≠ v.header) :
        w₁.headers.deleter? u = w.headers.deleter? u :=
      deleter_clear_all_of_ne fun v hv => hu v ((hmem v).mp (List.mem_of_mem_filter hv))
    let manager := if w.manager.hasActive then w.manager
      else w.manager.forgetAborted w.manager.aborted
    refine ⟨{ w₁.withTrees ts with manager }, ?_, hkept ▸ hholds, hdefs, hloose, hsize, hclean,
      huntouched, ?_⟩
    · rw [hcount]
      exact hrun ts hpurge
    · rw [List.isEmpty_eq_false_iff.mpr hindexed, Bool.false_or]

theorem create_position {d : IndexDefinition} {position : Nat} {config : IndexConfig} {ix : Index}
    (h : Index.create d position config = .ok ix) : ix.position = position := by
  simp only [Index.create] at h
  split at h
  · cases h
  · rw [← Except.ok.inj h]

structure AddsIndex (ix : Index) (w w' : Workspace) (stored : Multiset Version) : Prop where
  holds : w'.table.Holds stored
  definitions : w'.table.definitions = w.table.definitions ++ [ix.definition]
  distinct : ix.Distinct stored
  headers : w'.headers = w.headers
  manager : w'.manager = w.manager
  shape : ∃ (indexes : List Index) (t : Tree), ix.Contains t stored ∧ t.retired = #[] ∧ t.free = #[] ∧
    w' = { w with table := { w.table with
      store := { w.table.store with trees := w.table.store.trees ++ [t] }
      indexes := indexes ++ [ix] } }

theorem AddsIndex.definition_last {ix : Index} (h : AddsIndex ix w w' stored) :
    w'.table.definitions[w.table.indexes.length]? = some ix.definition := by
  rw [h.definitions, ← List.length_map Index.definition]
  exact List.getElem?_concat_length

theorem holds_of_added (h : w.table.Holds stored) {ix : Index} {t : Tree}
    (hpos : ix.position = w.table.indexes.length) (hvalid : w.table.validateIndex ix = .ok ())
    (hcontains : ix.Contains t stored) :
    ({ w.table with
      store := { w.table.store with trees := w.table.store.trees ++ [t] }
      indexes := w.table.indexes ++ [ix] } : Table).Holds stored := by
  refine ⟨h.in_step.append (.cons ?_ hcontains .nil), fun hempty => ?_, ?_, h.valid, h.numbered⟩
  · rw [hpos, Nat.zero_add]
  · exact absurd hempty (List.append_ne_nil_of_right_ne_nil _ (List.cons_ne_nil ix []))
  · intro any hany
    rcases List.mem_append.mp hany with hold | hnew
    · exact h.fits any hold
    · rw [List.mem_singleton.mp hnew]
      exact hvalid

theorem truncate_added {count : Nat} (hcount : w.table.store.trees.length = count) (t : Tree) :
    onStore (modify (·.truncate count)) (w.withTrees (w.table.store.trees ++ [t])) = .ok () w := by
  have htake : (w.table.store.trees ++ [t]).take count = w.table.store.trees := by
    rw [← hcount, List.take_left]
  change EStateM.Result.ok () (w.withTrees ((w.table.store.trees ++ [t]).take count)) = _
  rw [htake]
  rfl

/-- When its checks are passed, adding an index fills a new tree with the versions of the table. If that
fails the tree is dropped again, and else the index stands behind the others. -/
theorem add_index_of_valid (h : InShape w.table.indexes w.table.store.trees) {d : IndexDefinition}
    {config : IndexConfig} {ix : Index}
    (hcreate : Index.create d w.table.indexes.length config = .ok ix)
    (hvalid : w.table.validateIndex ix = .ok ()) :
    ∃ indexes : List Index, indexes.map Index.definition = w.table.definitions ∧
      let w₁ : Workspace := { w with table := { w.table with indexes } }
      let fillNew := fill ix w.table.versions (w₁.withTrees (w.table.store.trees ++ [({} : Tree)]))
      (∀ err t, fillNew = .error err (w₁.withTrees (w.table.store.trees ++ [t])) →
        addIndex d config w = .error err w₁) ∧
      ∀ t, fillNew = .ok () (w₁.withTrees (w.table.store.trees ++ [t])) →
        addIndex d config w = .ok w.table.indexes.length { w with table := { w.table with
          store := { w.table.store with trees := w.table.store.trees ++ [t] }
          indexes := indexes ++ [ix] } } := by
  have hget : (get : TableAction Workspace) w = .ok w w := rfl
  have hnew : onTable (fun _ => Index.create d w.table.indexes.length config) w = .ok ix w :=
    Action.examine_of_ok hcreate
  have hfits : onTable (·.validateIndex ix) w = .ok () w := Action.examine_of_ok hvalid
  let added := w.withTrees (w.table.store.trees ++ [({} : Tree)])
  have hadd : onStore (modify (·.addTree)) w = .ok () added := rfl
  simp only [addIndex]
  rw [Action.bind_of_ok hget, Action.bind_of_ok hnew, Action.bind_of_ok hfits,
    Action.bind_of_ok hadd]
  rcases h.first with ⟨hempty, hnone⟩ | ⟨primary, t₀, hprimary, ht₀, hpos, htree, hversions⟩
  · refine ⟨w.table.indexes, rfl, fun err t hfill => ?_, fun t hfill => ?_⟩
    · rw [hnone] at hfill
      cases hfill
    · rw [hnone] at hfill
      have hnew := congrArg (·.table.store.trees) (EStateM.Result.ok.inj hfill).2
      obtain rfl := List.singleton_inj.mp (List.append_cancel_left hnew)
      rw [if_neg (not_not.mpr (List.length_eq_zero_iff.mpr hempty))]
      rfl
  · have hindexed : w.table.indexes ≠ [] := List.ne_nil_of_mem (List.mem_of_getElem? hprimary)
    have ht₀' : added.table.store.trees[0]? = some t₀ := by
      have hlt := (List.getElem?_eq_some_iff.mp ht₀).1
      change (w.table.store.trees ++ [({} : Tree)])[0]? = some t₀
      rw [List.getElem?_append_left hlt, ht₀]
    obtain ⟨indexes, hdefs, hscan⟩ := scan_everything (w := added) hprimary ht₀' hpos htree
    rw [← hversions] at hscan
    rw [if_pos fun hzero => hindexed (List.length_eq_zero_iff.mp hzero)]
    refine ⟨indexes, hdefs, fun err t hfill => ?_, fun t hfill => ?_⟩
    · have htruncate := truncate_added (w := { w with table := { w.table with indexes } })
        h.length_eq t
      refine (Action.bind_of_ok hscan).trans (Action.bind_of_error ?_)
      apply (Action.try_of_error hfill).trans
      exact (Action.bind_of_ok htruncate).trans rfl
    · exact (Action.bind_of_ok hscan).trans
        ((Action.bind_of_ok (Action.try_of_ok hfill)).trans rfl)

/-- Adding an index fails before it has changed anything, or all checks are passed and a new tree is
filled. -/
theorem add_index_cases (w : Workspace) (d : IndexDefinition) (config : IndexConfig) :
    (∃ err, addIndex d config w = .error err w) ∨
    ∃ ix, Index.create d w.table.indexes.length config = .ok ix ∧
      w.table.validateIndex ix = .ok () := by
  have hget : (get : TableAction Workspace) w = .ok w w := rfl
  simp only [addIndex]
  rw [Action.bind_of_ok hget]
  cases hcreate : Index.create d w.table.indexes.length config with
  | error err =>
    have hfail : onTable (fun _ => (.error err : Except Error Index)) w = .error err w := rfl
    exact Or.inl ⟨err, Action.bind_of_error hfail⟩
  | ok ix =>
    have hok : onTable (fun _ => (.ok ix : Except Error Index)) w = .ok ix w := rfl
    rw [Action.bind_of_ok hok]
    cases hvalid : w.table.validateIndex ix with
    | error err =>
      have hfail : onTable (·.validateIndex ix) w = .error err w := Action.examine_of_error hvalid
      exact Or.inl ⟨err, Action.bind_of_error hfail⟩
    | ok => exact Or.inr ⟨ix, rfl, hvalid⟩

/-- An index that passes the checks is added if no two versions share a key that has to be unique, and
otherwise a key is reported and the table stays as it is. -/
theorem add_index_distinct (h : w.table.Holds stored) {d : IndexDefinition} {config : IndexConfig}
    {ix : Index} (hcreate : Index.create d w.table.indexes.length config = .ok ix)
    (hvalid : w.table.validateIndex ix = .ok ()) :
    (∃ w', addIndex d config w = .ok w.table.indexes.length w' ∧ AddsIndex ix w w' stored) ∨
    (¬ix.Distinct stored ∧ ∃ indexes : List Index,
      indexes.map Index.definition = w.table.definitions ∧
      addIndex d config w = .error (.duplicateKey ix.name ix.constraint)
        { w with table := { w.table with indexes } }) := by
  obtain ⟨indexes, hdefs, hfail, hok⟩ := add_index_of_valid h.in_shape hcreate hvalid
  have hpos : ix.position = w.table.indexes.length := create_position hcreate
  have hholds := h.of_definitions hdefs
  have haccepts : ∀ v ∈ stored, ix.order.Accepts v.data :=
    fun v hv => accepts_of_validate hvalid (h.valid v hv)
  have hnothing : ix.Fills stored w.table.versions {} := by
    rw [← h.coe_versions]
    exact .empty ix w.table.versions
  obtain ⟨t, hfill⟩ := fill_outcome (I := ix.Fills stored)
    (w := Workspace.withTrees { w with table := { w.table with indexes } }
      (w.table.store.trees ++ [({} : Tree)]))
    rfl (hpos.trans h.in_step.length_eq.symm) hnothing
    fun hfills => hfills.insert h.card_le haccepts h.nodup_ids
  rcases hfill with ⟨err, hrun, v, rest, hfills, hrefused⟩ | ⟨hrun, hfilled⟩
  · obtain ⟨hshared, rfl⟩ := hfills.refused h.card_le haccepts h.nodup_ids hrefused
    exact Or.inr ⟨hshared, indexes, hdefs, hfail _ t hrun⟩
  · obtain ⟨hcontains, hdistinct⟩ := hfilled.filled
    refine Or.inl ⟨_, hok t hrun, ?_, ?_, hdistinct, rfl, rfl, indexes, t, hcontains,
      hfilled.retired, hfilled.free, rfl⟩
    · exact holds_of_added (w := { w with table := { w.table with indexes } }) hholds
        (hpos.trans (length_of_definitions hdefs).symm) hvalid hcontains
    · rw [← hdefs]
      exact List.map_append

/-- Adding an index fails and leaves the table as it is, or the index stands behind the others. -/
theorem add_index_outcome (h : w.table.Holds stored) (d : IndexDefinition) (config : IndexConfig) :
    (∃ err w', addIndex d config w = .error err w' ∧ Fails (·.Holds stored) w w') ∨
    (∃ ix w', addIndex d config w = .ok w.table.indexes.length w' ∧
      Index.create d w.table.indexes.length config = .ok ix ∧ AddsIndex ix w w' stored) := by
  rcases add_index_cases w d config with ⟨err, hfail⟩ | ⟨ix, hcreate, hvalid⟩
  · exact Or.inl ⟨err, w, hfail, .refl h⟩
  · rcases add_index_distinct h hcreate hvalid with
      ⟨w', hok, hadds⟩ | ⟨-, indexes, hdefs, hfail⟩
    · exact Or.inr ⟨ix, w', hok, hcreate, hadds⟩
    · exact Or.inl ⟨_, _, hfail, h.of_definitions hdefs, hdefs, rfl, .refl _ _, Nat.le_refl _⟩

theorem reclaim_outcome (h : w.table.Holds stored) :
    ∃ (count : Nat) (ts : List Tree), reclaim w = .ok count (w.withTrees ts) ∧
      (w.withTrees ts).table.Holds stored := by
  refine ⟨_, (w.table.store.trees.map Tree.reclaim).map (·.2), rfl, ?_⟩
  rw [List.map_map]
  exact ⟨h.in_step.map_trees _ Index.Contains.reclaim, h.bare, h.fits, h.valid, h.numbered⟩

end TableAction

end VersionedIndex
