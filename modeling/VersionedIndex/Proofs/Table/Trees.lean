import Mathlib.Data.Multiset.Filter
import VersionedIndex.Proofs.Index.Memory
import VersionedIndex.Proofs.Index.Ordered
import VersionedIndex.Table.Vacuum

namespace VersionedIndex

theorem Tree.Holds.drain_versions {t : Tree} {s : Shape} (h : t.Holds s) (see : Option Visibility)
    (any : Index) :
    ∃ (c : Cursor) (depth : Nat), Index.first see t any = .ok c { any with scanDepth := depth } ∧
      c.drain see t = t.versions.filter (Visibility.admits see .read) := by
  rw [Tree.versions, h.inorder]
  exact h.drain_first see any

namespace Index

variable {ix : Index} {t : Tree} {v : Version} {stored : Multiset Version}

def Contains (ix : Index) (t : Tree) (stored : Multiset Version) : Prop :=
  ∃ s, ix.Orders t s ∧ s.stored = stored

namespace Contains

theorem empty (ix : Index) : ix.Contains {} 0 := ⟨.leaf, Orders.empty ix, rfl⟩

theorem of_order (h : ix.Contains t stored) {ix' : Index} (horder : ix'.order = ix.order) :
    ix'.Contains t stored := by
  obtain ⟨s, hs, hstored⟩ := h
  exact ⟨s, ⟨hs.holds, horder ▸ hs.accepted, horder ▸ hs.sorted, hs.bound⟩, hstored⟩

theorem definition_iff : ix.definition.Contains t stored ↔ ix.Contains t stored :=
  ⟨fun h => h.of_order rfl, fun h => h.of_order rfl⟩

theorem holds (h : ix.Contains t stored) : ∃ s, t.Holds s := by
  obtain ⟨s, hs, -⟩ := h
  exact ⟨s, hs.holds⟩

theorem coe_versions (h : ix.Contains t stored) : ↑t.versions = stored := by
  obtain ⟨s, hs, rfl⟩ := h
  rw [Tree.versions, hs.holds.inorder]
  rfl

theorem mem_versions (h : ix.Contains t stored) : v ∈ t.versions ↔ v ∈ stored := by
  rw [← h.coe_versions, Multiset.mem_coe]

theorem sorted (h : ix.Contains t stored) : t.versions.Pairwise ix.order.Before := by
  obtain ⟨s, hs, rfl⟩ := h
  rw [Tree.versions, hs.holds.inorder]
  exact hs.sorted

theorem accepted (h : ix.Contains t stored) (hv : v ∈ stored) : ix.order.Accepts v.data := by
  obtain ⟨s, hs, rfl⟩ := h
  obtain ⟨e, he, rfl⟩ := Shape.mem_stored.mp hv
  exact hs.accepted e he

theorem nodup_ids (h : ix.Contains t stored) : (stored.map (·.id)).Nodup := by
  obtain ⟨s, hs, rfl⟩ := h
  rw [Shape.stored, Multiset.map_coe, Multiset.coe_nodup, List.map_map]
  have hnodup : s.items.Nodup := hs.holds.forms.nodup_ids.of_map
  exact hnodup.map_on fun a ha b hb hrow => hs.row_unique ha hb hrow

theorem card_le (h : ix.Contains t stored) : stored.card ≤ Tree.nodeIdLimit := by
  obtain ⟨s, hs, rfl⟩ := h
  have hsize := hs.holds.size_eq
  have hfits := hs.holds.fits
  rw [Shape.stored, Multiset.coe_card, List.length_map]
  omega

/-- A tree without released slots has room as long as it holds less than there are node ids. -/
theorem has_room (h : ix.Contains t stored) (hretired : t.retired = #[]) (hfree : t.free = #[])
    (hcard : stored.card < Tree.nodeIdLimit) : t.HasRoom := by
  obtain ⟨s, hs, rfl⟩ := h
  have hsize := hs.holds.size_eq
  rw [Shape.stored, Multiset.coe_card, List.length_map] at hcard
  rw [hretired, hfree, Array.size_empty] at hsize
  exact Or.inr (by omega)

theorem reclaim (h : ix.Contains t stored) : ix.Contains t.reclaim.2 stored := by
  obtain ⟨s, hs, rfl⟩ := h
  exact ⟨s, hs.reclaim, rfl⟩

theorem insert (h : ix.Contains t stored) (see : Option Visibility) (hroom : t.HasRoom)
    (hv : ix.order.Accepts v.data) (hfresh : ∀ u ∈ stored, u.id ≠ v.id) :
    (∃ err, ix.insert see v t = .error err t) ∨
    ∃ t', ix.insert see v t = .ok () t' ∧ ix.Contains t' (v ::ₘ stored) ∧ ix.Vacant see v stored ∧
      t'.retired = t.retired ∧ t'.free = (t.allocate v).2.free := by
  obtain ⟨s, hs, rfl⟩ := h
  have hfresh' : ∀ e ∈ s.items, e.version.id ≠ v.id :=
    fun e he => hfresh e.version (Shape.mem_stored.mpr ⟨e, he, rfl⟩)
  rcases hs.insert see hroom hv hfresh' with
    hfail | ⟨t', s', p, hok, hs', rfl, -, hitems, hvacant, hretired, hfree⟩
  · exact Or.inl hfail
  · refine Or.inr ⟨t', hok, ⟨s', hs', ?_⟩, hvacant, hretired, hfree⟩
    -- The version stands somewhere between the others, which a multiset does not tell.
    rw [Shape.stored, Shape.stored, hitems, Path.items_plug, Shape.items, List.append_nil,
      Multiset.cons_coe, Multiset.coe_eq_coe, List.map_append, List.map_append, List.map_cons]
    exact List.perm_middle

theorem remove_row (h : ix.Contains t stored) (row : RowId) :
    ∃ (removed : Bool) (t' : Tree), TreeAction.removeRow row t = .ok removed t' ∧
      ix.Contains t' (stored.filter (·.id ≠ row)) ∧
      (removed = true ↔ ∃ u ∈ stored, u.id = row) := by
  obtain ⟨s, hs, rfl⟩ := h
  rcases hs.delete row with
    ⟨before, e, after, t', s', hitems, rfl, hrun, hs', hitems', -⟩ | ⟨habsent, hrun⟩
  · refine ⟨true, t', hrun, ⟨s', hs', ?_⟩, ?_⟩
    · have hothers : ∀ u ∈ s'.stored, u.id ≠ e.version.id := by
        intro u hu
        obtain ⟨e', he', rfl⟩ := Shape.mem_stored.mp hu
        exact hs.ne_of_mem_rest hitems (hitems' ▸ he')
      have hall : s.stored = e.version ::ₘ s'.stored := by
        rw [Shape.stored, Shape.stored, hitems, hitems', Multiset.cons_coe, Multiset.coe_eq_coe,
          List.map_append, List.map_append, List.map_cons]
        exact List.perm_middle
      rw [hall, Multiset.filter_cons_of_neg _ (by simp), Multiset.filter_eq_self.mpr hothers]
    · exact iff_of_true rfl ⟨e.version, Shape.mem_stored.mpr ⟨e, by simp [hitems], rfl⟩, rfl⟩
  · have hothers : ∀ u ∈ s.stored, u.id ≠ row := by
      intro u hu
      obtain ⟨e, he, rfl⟩ := Shape.mem_stored.mp hu
      exact habsent e he
    refine ⟨false, t, hrun, ⟨s, hs, (Multiset.filter_eq_self.mpr hothers).symm⟩, ?_⟩
    apply iff_of_false Bool.false_ne_true
    rintro ⟨u, hu, hsame⟩
    exact hothers u hu hsame

end Contains

end Index

end VersionedIndex
