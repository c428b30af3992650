import VersionedIndex.Proofs.Index.Deletion
import VersionedIndex.Proofs.Index.Scan

namespace VersionedIndex

theorem filter_row_eq_nil {l : List Item} {row : RowId} (h : ∀ e ∈ l, e.version.id ≠ row) :
    (l.filter fun e => e.version.id == row) = [] :=
  List.filter_eq_nil_iff.mpr fun e he hsame => h e he (beq_iff_eq.mp hsame)

namespace Tree

/-- The slots of a tree are accounted for, with these rows live and these slots released since the last
reclaim. -/
structure Accounts (t : Tree) (live : List RowId) (gone : List NodeId) : Prop where
  linked : ∀ id, t.Linked id ↔ id ∈ t.inorder.map (·.id)
  partition : (t.inorder.map (·.id) ++ t.retired.toList ++ t.free.toList).Perm
    (List.range t.slots.size)
  marked : ∀ id n, t.slots[id]? = some n →
    (n.balance = Node.deletedBalance ↔ id ∈ t.retired ∨ id ∈ t.free)
  bound : ∀ row id, t.binding.node? row = some id ↔
    t.Linked id ∧ ∃ v, t.version id = .ok v ∧ v.id = row
  live : ∀ row, row ∈ live ↔ ∃ id, t.binding.node? row = some id
  retired : t.retired.toList = gone
  reclaimed : t.reclaim =
    (gone.length, { t with retired := #[], free := t.free ++ gone.toArray })
  allocated : t.HasRoom → ∀ v, (t.allocate v).1 ∉ gone ∧ ¬ t.Linked (t.allocate v).1

namespace Holds

variable {t : Tree} {s : Shape} {id : NodeId}

theorem linked_iff_mem (h : t.Holds s) : t.Linked id ↔ id ∈ s.items.map (·.id) := by
  rw [h.linked_iff, List.mem_map]

/-- The items and both lists list each slot once. -/
theorem partition (h : t.Holds s) :
    (s.items.map (·.id) ++ t.retired.toList ++ t.free.toList).Perm (List.range t.slots.size) := by
  obtain ⟨dead, hcells, hids, -⟩ := h.dead
  -- Each slot is one cell, which is a cell of the shape or a dead one.
  have hslots := ids_cellsOf t.slots
  rw [hcells, Multiset.map_add, Shape.ids_cells, hids, Multiset.coe_add, ← List.append_assoc] at hslots
  exact Multiset.coe_eq_coe.mp hslots

/-- The slots of the two lists are those with the balance of a released node. -/
theorem marked_iff (h : t.Holds s) {n : Node} (hn : t.slots[id]? = some n) :
    n.balance = Node.deletedBalance ↔ id ∈ t.retired ∨ id ∈ t.free := by
  obtain ⟨dead, hcells, hids, hdead⟩ := h.dead
  have hwaits : id ∈ t.retired ∨ id ∈ t.free ↔ ∃ m, (id, m) ∈ dead := by
    rw [← Array.mem_toList_iff, ← Array.mem_toList_iff, ← List.mem_append, ← Multiset.mem_coe, ← hids,
      Multiset.mem_map]
    simp
  rw [hwaits]
  constructor
  · intro hbalance
    have hmem : (id, n) ∈ s.cells none + dead := hcells ▸ mem_cellsOf.mpr hn
    refine ⟨n, (Multiset.mem_add.mp hmem).resolve_left fun hcell => ?_⟩
    have hid : t.Linked id := by
      rw [h.linked_iff_mem, ← Multiset.mem_coe, ← Shape.ids_cells s none]
      exact Multiset.mem_map_of_mem Prod.fst hcell
    obtain ⟨m, hm, hlive⟩ := h.wellFormed.live id hid
    rw [← Option.some.inj (hn.symm.trans (slot_of_node hm)), Node.isDeleted, hbalance] at hlive
    cases hlive
  · rintro ⟨m, hm⟩
    have hslot := mem_cellsOf.mp (hcells ▸ Multiset.mem_add.mpr (Or.inr hm))
    obtain rfl := Option.some.inj (hn.symm.trans hslot)
    have hreleased : n = n.released := hdead _ hm
    rw [hreleased]
    rfl

/-- A row is bound to the linked node that holds it. -/
theorem bound_iff (h : t.Holds s) (hbound : t.BindsAll s) (row : RowId) :
    t.binding.node? row = some id ↔ t.Linked id ∧ ∃ v, t.version id = .ok v ∧ v.id = row := by
  rw [h.linked_iff]
  constructor
  · intro hnode
    obtain ⟨e, he, rfl, hrow⟩ := h.bound row id hnode
    exact ⟨⟨e, he, rfl⟩, e.version, h.version_of_mem he, hrow⟩
  · rintro ⟨⟨e, he, rfl⟩, v, hv, rfl⟩
    rw [← Except.ok.inj ((h.version_of_mem he).symm.trans hv)]
    exact hbound e he

/-- A slot for a new node is neither linked nor retired. -/
theorem allocate_fresh (h : t.Holds s) (hroom : t.HasRoom) (v : Version) :
    (t.allocate v).1 ∉ t.retired.toList ∧ ¬ t.Linked (t.allocate v).1 := by
  obtain ⟨dead, hcells, hids, -⟩ := cellsOf_allocate h hroom v
  have hnodup := nodup_ids_cellsOf (t.allocate v).2.slots
  rw [hcells, Multiset.map_add, Multiset.map_add, hids, Shape.ids_cells, Multiset.map_singleton,
    Multiset.singleton_add, Multiset.cons_add, Multiset.coe_add, Multiset.cons_coe, Multiset.coe_nodup,
    List.nodup_cons, List.mem_append, List.mem_append] at hnodup
  rw [h.linked_iff_mem]
  exact ⟨fun hmem => hnodup.1 (Or.inr (Or.inl hmem)), fun hmem => hnodup.1 (Or.inl hmem)⟩

end Holds

end Tree

namespace Index

/-- The runs of inserts, deletes and reclaims in which no row is inserted that is live, with the
live rows and the slots that have been released since the last reclaim. Each insert finds room
(`HasRoom`). -/
inductive Occupies (ix : Index) : Tree → List RowId → List NodeId → Prop
  | empty : ix.Occupies {} [] []
  | insert {t t' : Tree} {live : List RowId} {gone : List NodeId} {see : Option Visibility}
      {v : Version} : ix.Occupies t live gone → t.HasRoom → v.id ∉ live →
    ix.insert see v t = .ok () t' → ix.Occupies t' (v.id :: live) gone
  | refuse {t t' : Tree} {live : List RowId} {gone : List NodeId} {see : Option Visibility}
      {v : Version} {err : Error} : ix.Occupies t live gone → t.HasRoom → v.id ∉ live →
    ix.insert see v t = .error err t' → ix.Occupies t' live gone
  | delete {t : Tree} {live : List RowId} {gone : List NodeId} (row : RowId) :
    ix.Occupies t live gone → ix.Occupies ((TreeAction.removeRow row).outcome t).2
      (live.filter (· != row))
      (gone ++ (t.inorder.filter fun e => e.version.id == row).map (·.id))
  | reclaim {t : Tree} {live : List RowId} {gone : List NodeId} :
    ix.Occupies t live gone → ix.Occupies t.reclaim.2 live []

structure Keeps (t : Tree) (s : Shape) (live : List RowId) (gone : List NodeId) : Prop where
  holds : t.Holds s
  binds : t.BindsAll s
  live : ∀ row, row ∈ live ↔ ∃ e ∈ s.items, e.version.id = row
  retired : t.retired.toList = gone

namespace Keeps

variable {ix : Index} {t t' : Tree} {s : Shape} {live : List RowId} {gone : List NodeId}
  {see : Option Visibility} {v : Version}

theorem fresh (h : Keeps t s live gone) (hfresh : v.id ∉ live) :
    ∀ e ∈ s.items, e.version.id ≠ v.id := by
  intro e he hsame
  exact hfresh ((h.live v.id).mpr ⟨e, he, hsame⟩)

theorem insert (h : Keeps t s live gone) (hroom : t.HasRoom) (hfresh : v.id ∉ live)
    (hok : ix.insert see v t = .ok () t') : ∃ s', Keeps t' s' (v.id :: live) gone := by
  rcases h.holds.insert_gains ix see v hroom with
    ⟨err, hfail⟩ | ⟨t'', before, after, hok', hitems, s', hs', hitems', hbinding, hretired, -⟩
  · cases hok.symm.trans hfail
  · cases hok.symm.trans hok'
    refine ⟨s', hs', h.binds.of_gain (h.fresh hfresh) hitems hitems' hbinding, fun row => ?_, ?_⟩
    · rw [List.mem_cons, h.live, hitems, hitems']
      simp only [List.mem_append, List.mem_cons, or_and_right, exists_or, exists_eq_left]
      rw [or_left_comm, eq_comm]
    · rw [hretired, h.retired]

theorem refuse {err : Error} (h : Keeps t s live gone) (hroom : t.HasRoom)
    (hfail : ix.insert see v t = .error err t') : Keeps t' s live gone := by
  rcases h.holds.insert_gains ix see v hroom with ⟨err', hfail'⟩ | ⟨t'', -, -, hok, -⟩
  · cases hfail.symm.trans hfail'
    exact h
  · cases hfail.symm.trans hok

theorem delete (h : Keeps t s live gone) (row : RowId) :
    ∃ s', Keeps ((TreeAction.removeRow row).outcome t).2 s' (live.filter (· != row))
      (gone ++ (t.inorder.filter fun e => e.version.id == row).map (·.id)) := by
  rw [h.holds.inorder]
  rcases h.binds.remove_row h.holds row with
    ⟨before, e, after, t', hitems, rfl, hrun, s', hs', hitems', hbinding, hretired, -⟩ |
    ⟨habsent, hrun⟩
  · have hothers : ∀ a ∈ before ++ after, a.version.id ≠ e.version.id :=
      fun a ha => h.binds.ne_of_mem_rest h.holds.forms hitems ha
    rw [Action.outcome_of_ok hrun]
    refine ⟨s', hs', h.binds.of_loss h.holds.forms hitems hitems' hbinding, fun row => ?_, ?_⟩
    · rw [List.mem_filter, h.live, hitems, hitems', bne_iff_ne]
      constructor
      · rintro ⟨⟨a, ha, rfl⟩, hne⟩
        refine ⟨a, ?_, rfl⟩
        rw [List.mem_append, List.mem_cons, or_left_comm, ← List.mem_append] at ha
        exact ha.resolve_left fun hsame => hne (congrArg (·.version.id) hsame)
      · rintro ⟨a, ha, rfl⟩
        exact ⟨⟨a, ((List.sublist_cons_self e after).append_left before).subset ha, rfl⟩, hothers a ha⟩
    · rw [hitems, List.filter_append, List.filter_cons, if_pos (beq_self_eq_true _),
        filter_row_eq_nil fun a ha => hothers a (List.mem_append_left _ ha),
        filter_row_eq_nil fun a ha => hothers a (List.mem_append_right _ ha), hretired,
        Array.toList_push, h.retired]
      rfl
  · rw [Action.outcome_of_ok hrun]
    refine ⟨s, h.holds, h.binds, fun other => ?_, ?_⟩
    · rw [List.mem_filter, h.live, bne_iff_ne, and_iff_left_iff_imp]
      rintro ⟨a, ha, rfl⟩
      exact habsent a ha
    · rw [filter_row_eq_nil habsent, h.retired, List.map_nil, List.append_nil]

theorem reclaim (h : Keeps t s live gone) : Keeps t.reclaim.2 s live [] where
  holds := h.holds.reclaim
  binds := h.binds
  live := h.live
  retired := rfl

theorem accounts (h : Keeps t s live gone) : t.Accounts live gone := by
  obtain ⟨hs, hbound, hlive, hretired⟩ := h
  subst hretired
  constructor
  case linked =>
    intro id
    rw [hs.inorder]
    exact hs.linked_iff_mem
  case partition =>
    rw [hs.inorder]
    exact hs.partition
  case marked => exact fun id n hn => hs.marked_iff hn
  case bound => exact fun row id => hs.bound_iff hbound row
  case live =>
    intro row
    rw [hlive]
    constructor
    · rintro ⟨e, he, rfl⟩
      exact ⟨e.id, hbound e he⟩
    · rintro ⟨id, hnode⟩
      obtain ⟨e, he, -, hrow⟩ := hs.bound row id hnode
      exact ⟨e, he, hrow⟩
  case retired => rfl
  case reclaimed => rw [Tree.reclaim, Array.length_toList, Array.toArray_toList]
  case allocated => exact fun hroom v => hs.allocate_fresh hroom v

end Keeps

theorem Occupies.keeps {ix : Index} {t : Tree} {live : List RowId} {gone : List NodeId}
    (h : ix.Occupies t live gone) : ∃ s, Keeps t s live gone := by
  induction h with
  | empty => exact ⟨.leaf, Tree.holds_empty, by simp [Tree.BindsAll, Shape.items],
      by simp [Shape.items], rfl⟩
  | insert _ hroom hfresh hok ih =>
    obtain ⟨s, hs⟩ := ih
    exact hs.insert hroom hfresh hok
  | refuse _ hroom _ hfail ih =>
    obtain ⟨s, hs⟩ := ih
    exact ⟨s, hs.refuse hroom hfail⟩
  | delete row _ ih =>
    obtain ⟨s, hs⟩ := ih
    exact hs.delete row
  | reclaim _ ih =>
    obtain ⟨s, hs⟩ := ih
    exact ⟨s, hs.reclaim⟩

/-- Every run accounts for all slots: they are those of the linked nodes, the retired ones and the free
ones, each once, and the last two kinds are those that are marked deleted. The live rows are bound, each
to the linked node that holds it. A reclaim frees what has been released since the last one, and until
then no slot of it is handed out again. -/
theorem slots_accounted {ix : Index} {t : Tree} {live : List RowId} {gone : List NodeId}
    (h : ix.Occupies t live gone) : t.Accounts live gone := by
  obtain ⟨s, hs⟩ := h.keeps
  exact hs.accounts

/-- The slot of the deleted row waits while another row comes in, and is handed out after the reclaim. -/
theorem sample_slots_accounted :
    let insert (v : Version) (t : Tree) : Tree := ((sample.insert none v).outcome t).2
    let t₂ := insert (sampleVersion 2 3) (insert (sampleVersion 1 5) {})
    let t₄ := insert (sampleVersion 3 7) ((TreeAction.removeRow 1).outcome t₂).2
    sample.Occupies t₄ [3, 2] [0] ∧ t₄.Accounts [3, 2] [0] ∧ t₄.inorder.map (·.id) = [1, 2] ∧
    sample.Occupies t₄.reclaim.2 [3, 2] [] ∧ t₄.reclaim.2.Accounts [3, 2] [] ∧
    (t₄.reclaim.2.allocate (sampleVersion 4 1)).1 = 0 := by
  intro insert t₂ t₄
  have h₁ : sample.Occupies (insert (sampleVersion 1 5) {}) [1] [] :=
    Occupies.empty.insert (Or.inr (by decide +kernel)) (by decide)
      (Action.ok_of_outcome (by decide +kernel))
  have h₂ : sample.Occupies t₂ [2, 1] [] :=
    h₁.insert (Or.inr (by decide +kernel)) (by decide) (Action.ok_of_outcome (by decide +kernel))
  have hslot : (t₂.inorder.filter fun e => e.version.id == 1).map (·.id) = [0] := by decide +kernel
  have h₃ := h₂.delete 1
  rw [hslot] at h₃
  have h₄ : sample.Occupies t₄ [3, 2] [0] :=
    h₃.insert (Or.inr (by decide +kernel)) (by decide) (Action.ok_of_outcome (by decide +kernel))
  exact ⟨h₄, slots_accounted h₄, by decide +kernel, h₄.reclaim, slots_accounted h₄.reclaim,
    by decide +kernel⟩

end Index

end VersionedIndex
