import VersionedIndex.Proofs.Index.Runs
import VersionedIndex.Proofs.Tree.Rows

namespace VersionedIndex

namespace Tree

structure Without (t : Tree) (e : Item) (t' : Tree) : Prop where
  order : ∃ before after, t.inorder = before ++ e :: after ∧ t'.inorder = before ++ after
  released : ∃ n, t'.slots[e.id]? = some n ∧ n.balance = Node.deletedBalance ∧ n.left = none ∧
    n.right = none ∧ n.parent = none
  unlinked : t'.root ≠ some e.id ∧ ∀ id n, t'.node id = .ok n →
    n.left ≠ some e.id ∧ n.right ≠ some e.id ∧ n.parent ≠ some e.id
  binding : ∀ row, t'.binding.node? row =
    if row = e.version.id then none else t.binding.node? row
  count : t'.elementCount + 1 = t.elementCount

theorem Loses.without {t t' : Tree} {s : Shape} {before after : List Item} {e : Item}
    (h : t.Loses before e after t') (hholds : t.Holds s) (hitems : s.items = before ++ e :: after) :
    t.Without e t' := by
  obtain ⟨s', hs', hitems', hbinding, hretired, -⟩ := h
  have hgone : ¬ ∃ x ∈ s'.items, x.id = e.id := by
    rintro ⟨x, hx, hid⟩
    have hnodup := hholds.forms.nodup_ids
    rw [hitems, List.map_append, List.map_cons, List.nodup_middle, List.nodup_cons] at hnodup
    rw [hitems'] at hx
    rw [← List.map_append] at hnodup
    exact hnodup.1 (hid ▸ List.mem_map_of_mem hx)
  refine ⟨⟨before, after, ?_, ?_⟩, ?_, ⟨fun hroot => ?_, fun id n hn => ?_⟩, fun row => ?_, ?_⟩
  · rw [hholds.inorder, hitems]
  · rw [hs'.inorder, hitems']
  · obtain ⟨n, hslot, hreleased⟩ := hs'.released_of_retired (hretired ▸ Array.mem_push_self)
    refine ⟨n, hslot, ?_⟩
    rw [hreleased]
    exact ⟨rfl, rfl, rfl, rfl⟩
  · rw [hs'.root] at hroot
    exact hgone (Shape.exists_of_root hroot)
  · exact ⟨fun hlink => hgone (hs'.links_lead hn (Or.inl hlink)),
      fun hlink => hgone (hs'.links_lead hn (Or.inr (Or.inl hlink))),
      fun hlink => hgone (hs'.links_lead hn (Or.inr (Or.inr hlink)))⟩
  · rw [hbinding, Binding.node?_erase]
  · rw [hs'.count, hholds.count, hitems, hitems', List.length_append, List.length_append,
      List.length_cons]
    rfl

end Tree

namespace Index

/-- The trees that inserts and deletes reach when each insert finds room (`HasRoom`: a free slot, or
one more node id of 32 bits) and no row is inserted that is in the tree already. Retired slots may
be reclaimed in between. -/
inductive Produces (ix : Index) : Tree → Prop
  | empty : ix.Produces {}
  | insert {t : Tree} (see : Option Visibility) (v : Version) :
    ix.Produces t → t.HasRoom → (∀ e ∈ t.inorder, e.version.id ≠ v.id) →
    ix.Produces ((ix.insert see v).outcome t).2
  | delete {t : Tree} (row : RowId) :
    ix.Produces t → ix.Produces ((TreeAction.removeRow row).outcome t).2
  | reclaim {t : Tree} : ix.Produces t → ix.Produces t.reclaim.2

theorem Produces.binds_all {ix : Index} {t : Tree} (h : ix.Produces t) :
    ∃ s, t.Holds s ∧ t.BindsAll s := by
  induction h with
  | empty => exact ⟨.leaf, Tree.holds_empty, by simp [Tree.BindsAll, Shape.items]⟩
  | insert see v _ hroom hfresh ih =>
    obtain ⟨s, hs, hbound⟩ := ih
    rcases hs.insert_gains ix see v hroom with
      ⟨err, hfail⟩ | ⟨t', before, after, hok, hitems, s', hs', hitems', hbinding, -⟩
    · exact ⟨s, by rw [Action.outcome_of_error hfail]; exact ⟨hs, hbound⟩⟩
    · rw [hs.inorder] at hfresh
      rw [Action.outcome_of_ok hok]
      exact ⟨s', hs', hbound.of_gain hfresh hitems hitems' hbinding⟩
  | delete row _ ih =>
    obtain ⟨s, hs, hbound⟩ := ih
    rcases hbound.remove_row hs row with
      ⟨before, e, after, t', hitems, rfl, hrun, s', hs', hitems', hbinding, -⟩ | ⟨-, hrun⟩
    · rw [Action.outcome_of_ok hrun]
      exact ⟨s', hs', hbound.of_loss hs.forms hitems hitems' hbinding⟩
    · rw [Action.outcome_of_ok hrun]
      exact ⟨s, hs, hbound⟩
  | reclaim _ ih =>
    obtain ⟨s, hs, hbound⟩ := ih
    exact ⟨s, hs.reclaim, hbound⟩

/-- A delete never fails. It returns whether the row is in the tree; if it is, what results is the
tree without the row's node, and else the tree as it was. -/
theorem delete_keeps_handles {ix : Index} {t : Tree} (h : ix.Produces t) (row : RowId) :
    ∃ removed t', TreeAction.removeRow row t = .ok removed t' ∧
      (removed = true ↔ ∃ e ∈ t.inorder, e.version.id = row) ∧
      (removed = true → ∃ e, e.version.id = row ∧ t.Without e t') ∧
      (removed = false → t' = t) := by
  obtain ⟨s, hs, hbound⟩ := h.binds_all
  rw [hs.inorder]
  rcases hbound.remove_row hs row with
    ⟨before, e, after, t', hitems, rfl, hrun, hloses⟩ | ⟨habsent, hrun⟩
  · refine ⟨true, t', hrun, iff_of_true rfl ⟨e, ?_, rfl⟩, fun _ => ⟨e, rfl, ?_⟩, nofun⟩
    · rw [hitems]
      simp
    · exact hloses.without hs hitems
  · refine ⟨false, t, hrun, iff_of_false nofun ?_, nofun, fun _ => rfl⟩
    rintro ⟨e, he, hrow⟩
    exact habsent e he hrow

/-- The deleted row is at the root, between two subtrees, and its predecessor is not its child. -/
theorem sample_delete_keeps_handles :
    let t₁ := ((sample.insert none (sampleVersion 1 5)).outcome {}).2
    let t₂ := ((sample.insert none (sampleVersion 2 3)).outcome t₁).2
    let t₃ := ((sample.insert none (sampleVersion 3 8)).outcome t₂).2
    let t₄ := ((sample.insert none (sampleVersion 4 4)).outcome t₃).2
    sample.Produces t₄ ∧ t₄.root = some 0 ∧ t₄.inorder.map (·.id) = [1, 3, 0, 2] ∧
    ∃ t', TreeAction.removeRow 1 t₄ = .ok true t' ∧ ∃ e, e.version.id = 1 ∧ t₄.Without e t' := by
  intro t₁ t₂ t₃ t₄
  have h₁ : sample.Produces t₁ :=
    Produces.empty.insert none (sampleVersion 1 5) (Or.inr (by decide +kernel)) (by decide +kernel)
  have h₂ : sample.Produces t₂ :=
    h₁.insert none (sampleVersion 2 3) (Or.inr (by decide +kernel)) (by decide +kernel)
  have h₃ : sample.Produces t₃ :=
    h₂.insert none (sampleVersion 3 8) (Or.inr (by decide +kernel)) (by decide +kernel)
  have h₄ : sample.Produces t₄ :=
    h₃.insert none (sampleVersion 4 4) (Or.inr (by decide +kernel)) (by decide +kernel)
  have hheld : ∃ e ∈ t₄.inorder, e.version.id = 1 := by decide +kernel
  obtain ⟨removed, t', hrun, hiff, hwithout, -⟩ := delete_keeps_handles h₄ 1
  obtain rfl := hiff.mpr hheld
  exact ⟨h₄, by decide +kernel, by decide +kernel, t', hrun, hwithout rfl⟩

end Index

end VersionedIndex
