import VersionedIndex.Proofs.Table.Runs

namespace VersionedIndex

namespace Table

/-- There is one tree for each index, at the index's position. It lists its versions in the order of
the index, each once, and counts them. All trees list and count the same versions. -/
structure Aligned (tb : Table) : Prop where
  one_each : tb.store.trees.length = tb.indexes.length
  placed : ∀ {i : Nat} {ix : Index}, tb.indexes[i]? = some ix → ix.position = i
  sorted : ∀ {i : Nat} {ix : Index} {t : Tree}, tb.indexes[i]? = some ix →
    tb.store.trees[i]? = some t → t.versions.Pairwise ix.order.Before
  nodup : ∀ t ∈ tb.store.trees, t.versions.Nodup
  counted : ∀ t ∈ tb.store.trees, t.elementCount = t.versions.length
  same : ∀ t ∈ tb.store.trees, ∀ t' ∈ tb.store.trees,
    t.versions.Perm t'.versions ∧ t.elementCount = t'.elementCount

theorem Holds.aligned {tb : Table} {stored : Multiset Version} (h : tb.Holds stored) :
    tb.Aligned := by
  have hcount (t : Tree) (ht : t ∈ tb.store.trees) : t.elementCount = t.versions.length := by
    obtain ⟨_, ix, hcontains⟩ := h.in_step.of_mem_trees ht
    obtain ⟨s, hs⟩ := hcontains.holds
    exact hs.count_versions
  constructor
  case one_each => exact h.in_step.length_eq
  case placed =>
    intro i ix hix
    obtain ⟨t, -, hpos, -⟩ := h.in_step.get hix
    exact hpos.trans (Nat.zero_add i)
  case sorted =>
    intro i ix t hix ht
    obtain ⟨t', ht', -, hcontains⟩ := h.in_step.get hix
    obtain rfl := Option.some.inj (ht.symm.trans ht')
    exact hcontains.sorted
  case nodup =>
    intro t ht
    obtain ⟨_, ix, hcontains⟩ := h.in_step.of_mem_trees ht
    have hids := hcontains.nodup_ids
    rw [← hcontains.coe_versions] at hids
    exact Multiset.coe_nodup.mp hids.of_map
  case counted => exact hcount
  case same =>
    intro t ht t' ht'
    obtain ⟨_, ix, hcontains⟩ := h.in_step.of_mem_trees ht
    obtain ⟨_, ix', hcontains'⟩ := h.in_step.of_mem_trees ht'
    have hperm : t.versions.Perm t'.versions := by
      apply Multiset.coe_eq_coe.mp
      rw [hcontains.coe_versions, hcontains'.coe_versions]
    refine ⟨hperm, ?_⟩
    rw [hcount t ht, hcount t' ht', hperm.length_eq]

end Table

namespace Run

variable {r : Run}

/-- After every run that has room, the indexes of the table are aligned, and what a transaction reads
by one index is a permutation of what it reads by another. -/
theorem Attains.indexes_aligned (h : Attains Table.HasRoom r) :
    r.work.table.Aligned ∧
    ∀ (txn : Transaction) {i j : Nat}, i < r.work.table.indexes.length →
      j < r.work.table.indexes.length →
      ∃ rows rows', ((TableAction.scan txn i).outcome r.work).1 = .ok rows ∧
        ((TableAction.scan txn j).outcome r.work).1 = .ok rows' ∧ rows.Perm rows' := by
  obtain ⟨stored, hholds, -⟩ := h.holds
  refine ⟨hholds.aligned, ?_⟩
  intro txn i j hi hj
  obtain ⟨t, ht, -, hscan⟩ :=
    TableAction.scan_of_holds hholds txn (List.getElem?_eq_getElem hi)
  obtain ⟨t', ht', -, hscan'⟩ :=
    TableAction.scan_of_holds hholds txn (List.getElem?_eq_getElem hj)
  refine ⟨_, _, hscan, hscan', ?_⟩
  apply List.Perm.filter
  exact (hholds.aligned.same t (List.mem_of_getElem? ht) t' (List.mem_of_getElem? ht')).1

def twoOrders : Run := sampleStart.after [
  .addIndex (IndexDefinition.plain "up" 1 [0] [.bigint]) {},
  .begin,
  .insert ⟨1, []⟩ [.bigint 5],
  .addIndex { IndexDefinition.plain "down" 2 [0] [.bigint] with descending := [true] } {},
  .insert ⟨1, []⟩ [.bigint 6]]

theorem two_orders_aligned :
    let u : Version := ⟨0, 1, [.bigint 5], 1⟩
    let v : Version := ⟨1, 2, [.bigint 6], 1⟩
    twoOrders.work.table.Aligned ∧
    ((TableAction.scan ⟨1, []⟩ 0).outcome twoOrders.work).1 = .ok [u, v] ∧
    ((TableAction.scan ⟨1, []⟩ 1).outcome twoOrders.work).1 = .ok [v, u] ∧ [u, v].Perm [v, u] := by
  intro u v
  have hreaches : Reaches twoOrders := sample_start_reaches.after (by decide +kernel)
  obtain ⟨haligned, hscans⟩ := hreaches.attains.indexes_aligned
  obtain ⟨rows, rows', hup, hdown, hperm⟩ :=
    hscans ⟨1, []⟩ (i := 0) (j := 1) (by decide +kernel) (by decide +kernel)
  have hrows : ((TableAction.scan ⟨1, []⟩ 0).outcome twoOrders.work).1 = .ok [u, v] := by
    decide +kernel
  have hrows' : ((TableAction.scan ⟨1, []⟩ 1).outcome twoOrders.work).1 = .ok [v, u] := by
    decide +kernel
  obtain rfl := Except.ok.inj (hup.symm.trans hrows)
  obtain rfl := Except.ok.inj (hdown.symm.trans hrows')
  exact ⟨haligned, hrows, hrows', hperm⟩

end Run

end VersionedIndex
