import VersionedIndex.Proofs.Tree.Avl

namespace VersionedIndex

namespace Shape

theorem exists_of_root {s : Shape} {id : NodeId} (h : s.root? = some id) :
    ∃ e ∈ s.items, e.id = id := by
  cases s with
  | leaf => cases h
  | node l e b r => exact ⟨e, by simp [items], Option.some.inj h⟩

/-- The links of a node lead to nodes of the tree, but for that from the root upward. -/
theorem links_of_cell {s : Shape} {parent : Option NodeId} {c : Cell} (h : c ∈ s.cells parent) :
    (∀ side id, c.2.child side = some id → ∃ e ∈ s.items, e.id = id) ∧
      (c.2.parent = parent ∨ ∃ e ∈ s.items, c.2.parent = some e.id) := by
  induction s generalizing parent with
  | leaf => exact absurd h (Multiset.notMem_zero c)
  | node l e b r ihl ihr =>
    have hleft {p : Item → Prop} : (∃ x ∈ l.items, p x) → ∃ x ∈ (node l e b r).items, p x :=
      fun ⟨x, hx, hp⟩ => ⟨x, List.mem_append_left _ hx, hp⟩
    have hright {p : Item → Prop} : (∃ x ∈ r.items, p x) → ∃ x ∈ (node l e b r).items, p x :=
      fun ⟨x, hx, hp⟩ => ⟨x, List.mem_append_right _ (List.mem_cons_of_mem e hx), hp⟩
    have hroot : ∃ x ∈ (node l e b r).items, some e.id = some x.id := ⟨e, by simp [items], rfl⟩
    rw [cells, Multiset.mem_add, Multiset.mem_add, Multiset.mem_singleton] at h
    rcases h with (rfl | h) | h
    · refine ⟨fun side id hchild => ?_, Or.inl rfl⟩
      cases side with
      | left => exact hleft (exists_of_root hchild)
      | right => exact hright (exists_of_root hchild)
    · obtain ⟨hchildren, hparent⟩ := ihl h
      exact ⟨fun side id hchild => hleft (hchildren side id hchild),
        Or.inr (hparent.elim (fun hp => hp ▸ hroot) hleft)⟩
    · obtain ⟨hchildren, hparent⟩ := ihr h
      exact ⟨fun side id hchild => hright (hchildren side id hchild),
        Or.inr (hparent.elim (fun hp => hp ▸ hroot) hright)⟩

end Shape

namespace Tree

variable {t t' : Tree} {s s' : Shape} {before after : List Item} {e : Item} {id : NodeId}

namespace Holds

/-- Every link of every slot leads to a linked node. -/
theorem links_lead (h : t.Holds s) {n : Node} (hn : t.node id = .ok n) {c : NodeId}
    (hlink : n.left = some c ∨ n.right = some c ∨ n.parent = some c) : ∃ e ∈ s.items, e.id = c := by
  obtain ⟨dead, hcells, -, hdead⟩ := h.dead
  have hmem : (id, n) ∈ s.cells none + dead := hcells ▸ mem_cellsOf.mpr (slot_of_node hn)
  rcases Multiset.mem_add.mp hmem with hmem | hmem
  · obtain ⟨hchildren, hparent⟩ := Shape.links_of_cell hmem
    rcases hlink with hlink | hlink | hlink
    · exact hchildren .left c hlink
    · exact hchildren .right c hlink
    · rw [hlink] at hparent
      obtain ⟨x, hx, hid⟩ := hparent.resolve_left nofun
      exact ⟨x, hx, (Option.some.inj hid).symm⟩
  · have hreleased : n = n.released := hdead _ hmem
    rw [hreleased] at hlink
    rcases hlink with hlink | hlink | hlink <;> cases hlink

/-- Only rows that are in the tree are bound, so deleting another one does nothing. -/
theorem remove_absent (h : t.Holds s) {row : RowId} (habsent : ∀ e ∈ s.items, e.version.id ≠ row) :
    TreeAction.removeRow row t = .ok false t := by
  apply remove_row_of_unbound
  cases hbound : t.binding.node? row with
  | none => rfl
  | some id =>
    obtain ⟨e, he, -, hrow⟩ := h.bound row id hbound
    exact absurd hrow (habsent e he)

end Holds

namespace BindsAll

/-- A row is held by one item at most. -/
theorem row_unique (h : t.BindsAll s) (hforms : t.Forms s) {a b : Item} (ha : a ∈ s.items)
    (hb : b ∈ s.items) (hrow : a.version.id = b.version.id) : a = b := by
  have hbound := h a ha
  rw [hrow, h b hb] at hbound
  exact hforms.item_unique ha hb (Option.some.inj hbound).symm

theorem ne_of_mem_rest (h : t.BindsAll s) (hforms : t.Forms s)
    (hitems : s.items = before ++ e :: after) {a : Item} (ha : a ∈ before ++ after) :
    a.version.id ≠ e.version.id := by
  intro hrow
  have hmem : ∀ x, x ∈ s.items ↔ x = e ∨ x ∈ before ++ after := by
    intro x
    rw [hitems, List.mem_append, List.mem_cons, List.mem_append]
    tauto
  obtain rfl := h.row_unique hforms ((hmem a).mpr (Or.inr ha)) ((hmem e).mpr (Or.inl rfl)) hrow
  have hnodup : s.items.Nodup := hforms.nodup_ids.of_map
  rw [hitems, List.nodup_middle, List.nodup_cons] at hnodup
  exact hnodup.1 ha

/-- Each remaining row stays bound when another one is unbound. -/
theorem of_loss (h : t.BindsAll s) (hforms : t.Forms s) (hitems : s.items = before ++ e :: after)
    (hitems' : s'.items = before ++ after)
    (hbinding : t'.binding = t.binding.erase e.version.id) : t'.BindsAll s' := by
  intro a ha
  rw [hitems'] at ha
  rw [hbinding, Binding.node?_erase, if_neg (h.ne_of_mem_rest hforms hitems ha)]
  refine h a ?_
  rw [hitems]
  exact ((List.sublist_cons_self e after).append_left before).subset ha

/-- Each row stays bound when one that was not in the tree is bound anew. -/
theorem of_gain {v : Version} (h : t.BindsAll s) (hfresh : ∀ e ∈ s.items, e.version.id ≠ v.id)
    (hitems : s.items = before ++ after) (hitems' : s'.items = before ++ ⟨id, v⟩ :: after)
    (hbinding : t'.binding = t.binding.insert v.id id) : t'.BindsAll s' := by
  intro a ha
  rw [hitems', List.mem_append, List.mem_cons, or_left_comm, ← List.mem_append, ← hitems] at ha
  rw [hbinding, Binding.node?_insert]
  rcases ha with rfl | ha
  · rw [if_pos rfl]
  · rw [if_neg (hfresh a ha)]
    exact h a ha

/-- Deleting a row takes its item out; deleting one that is not in the tree does nothing. -/
theorem remove_row (h : t.BindsAll s) (hholds : t.Holds s) (row : RowId) :
    (∃ before e after t', s.items = before ++ e :: after ∧ e.version.id = row ∧
      TreeAction.removeRow row t = .ok true t' ∧ t.Loses before e after t') ∨
    ((∀ e ∈ s.items, e.version.id ≠ row) ∧ TreeAction.removeRow row t = .ok false t) := by
  by_cases hrow : ∃ e ∈ s.items, e.version.id = row
  · obtain ⟨e, he, rfl⟩ := hrow
    obtain ⟨before, after, hitems⟩ := List.append_of_mem he
    obtain ⟨t', hrun, hloses⟩ := remove_row_loses hholds hitems (h e he)
    exact Or.inl ⟨before, e, after, t', hitems, rfl, hrun, hloses⟩
  · have habsent : ∀ e ∈ s.items, e.version.id ≠ row := fun e he hsame => hrow ⟨e, he, hsame⟩
    exact Or.inr ⟨habsent, hholds.remove_absent habsent⟩

end BindsAll

end Tree

end VersionedIndex
