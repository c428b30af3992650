import VersionedIndex.Proofs.Index.Placement
import VersionedIndex.Proofs.Tree.Avl

namespace VersionedIndex

namespace Index

def sample : Index where
  name := "sample"
  persistenceId := 1
  order := ⟨⟨0, .bigint, false, false⟩, []⟩
  primaryKey := false
  unique := true
  constraint := none
  forward := false
  position := 0
  config := {}

def sampleVersion (id : RowId) (key : Int64) : Version := ⟨0, id, [.bigint key], Xid.frozen⟩

/-- The trees that inserts and deletes reach from an empty one, where each insert finds room
(`HasRoom`: a free slot, or one more node id of 32 bits). -/
inductive Reaches (ix : Index) : Tree → Prop
  | empty : ix.Reaches {}
  | insert {t : Tree} (see : Option Visibility) (v : Version) :
    ix.Reaches t → t.HasRoom → ix.Reaches ((ix.insert see v).outcome t).2
  | delete {t : Tree} (row : RowId) :
    ix.Reaches t → ix.Reaches ((TreeAction.removeRow row).outcome t).2

end Index

namespace Tree

variable {t t' : Tree} {s : Shape} {v : Version}

namespace Holds

/-- Whatever the comparisons say, a version goes in somewhere, or nothing changes. -/
theorem insert_gains (h : t.Holds s) (ix : Index) (see : Option Visibility) (v : Version)
    (hroom : t.HasRoom) :
    (∃ err, ix.insert see v t = .error err t) ∨
    ∃ t' before after, ix.insert see v t = .ok () t' ∧ s.items = before ++ after ∧
      t.Gains v before after t' := by
  rcases Index.insert_outcome h hroom (ix.kept_by_turns_trivial see t v s) trivial with
    ⟨root, err, -, -, hfail⟩ | ⟨t', p, useRowId, hok, rfl, hgains, -⟩
  · exact Or.inl ⟨err, hfail⟩
  · refine Or.inr ⟨t', p.before, p.after, hok, ?_, hgains⟩
    rw [Path.items_plug, Shape.items, List.append_nil]

theorem insert (h : t.Holds s) (ix : Index) (see : Option Visibility) (v : Version)
    (hroom : t.HasRoom) : ∃ s', ((ix.insert see v).outcome t).2.Holds s' := by
  rcases h.insert_gains ix see v hroom with
    ⟨err, hfail⟩ | ⟨t', before, after, hok, -, s', hs', -⟩
  · exact ⟨s, by rw [Action.outcome, hfail]; exact h⟩
  · exact ⟨s', by rw [Action.outcome, hok]; exact hs'⟩

theorem remove_row (h : t.Holds s) (row : RowId) :
    ∃ removed t', TreeAction.removeRow row t = .ok removed t' ∧ ∃ s', t'.Holds s' := by
  cases hbound : t.binding.node? row with
  | none => exact ⟨false, t, remove_row_of_unbound hbound, s, h⟩
  | some id =>
    obtain ⟨e, he, rfl, rfl⟩ := h.bound row id hbound
    obtain ⟨before, after, hitems⟩ := List.append_of_mem he
    obtain ⟨t', hrun, s', hs', -⟩ := remove_row_loses h hitems hbound
    exact ⟨true, t', hrun, s', hs'⟩

theorem delete (h : t.Holds s) (row : RowId) :
    ∃ s', ((TreeAction.removeRow row).outcome t).2.Holds s' := by
  obtain ⟨removed, t', hrun, hs'⟩ := h.remove_row row
  rw [Action.outcome, hrun]
  exact hs'

theorem size_delete (h : t.Holds s) (row : RowId) :
    ((TreeAction.removeRow row).outcome t).2.slots.size = t.slots.size := by
  cases hbound : t.binding.node? row with
  | none => rw [Action.outcome, remove_row_of_unbound hbound]
  | some id =>
    obtain ⟨e, he, rfl, rfl⟩ := h.bound row id hbound
    obtain ⟨before, after, hitems⟩ := List.append_of_mem he
    obtain ⟨t', hrun, s', hs', hitems', -, hretired, hfree⟩ := remove_row_loses h hitems hbound
    -- What the linked nodes lose, the retired slots gain.
    rw [Action.outcome, hrun, h.size_eq, hs'.size_eq, hitems, hitems', hretired, hfree,
      Array.size_push, List.length_append, List.length_append, List.length_cons]
    omega

theorem size_le_insert (h : t.Holds s) (ix : Index) (see : Option Visibility) (v : Version)
    (hroom : t.HasRoom) : t.slots.size ≤ ((ix.insert see v).outcome t).2.slots.size := by
  rcases h.insert_gains ix see v hroom with
    ⟨err, hfail⟩ | ⟨t', before, after, hok, hitems, s', hs', hitems', -, hretired, hfree⟩
  · rw [Action.outcome, hfail]
  · have hleft : t.free.size ≤ (t.allocate v).2.free.size + 1 := by
      rw [Tree.allocate]
      split
      · rw [Array.size_pop]
        omega
      · exact Nat.le_succ _
    rw [Action.outcome, hok, h.size_eq, hs'.size_eq, hitems, hitems', hretired, hfree,
      List.length_append, List.length_append, List.length_cons]
    omega

end Holds

/-- The row that has gone in last can be taken out again, also if it had been there before. -/
theorem Gains.remove_row {before after : List Item} (h : t.Gains v before after t') :
    ∃ t'', TreeAction.removeRow v.id t' = .ok true t'' ∧
      ∃ s : Shape, t''.Holds s ∧ s.items = before ++ after := by
  obtain ⟨s, hs, hitems, hbinding, -⟩ := h
  have hbound : t'.binding.node? v.id = some (t.allocate v).1 := by
    rw [hbinding, Binding.node?_insert, if_pos rfl]
  obtain ⟨t'', hrun, s', hs', hitems', -⟩ :=
    remove_row_loses (e := ⟨(t.allocate v).1, v⟩) hs hitems hbound
  exact ⟨t'', hrun, s', hs', hitems'⟩

end Tree

namespace Index

theorem Reaches.holds {ix : Index} {t : Tree} (h : ix.Reaches t) : ∃ s, t.Holds s := by
  induction h with
  | empty => exact ⟨.leaf, Tree.holds_empty⟩
  | insert see v _ hroom ih =>
    obtain ⟨s, hs⟩ := ih
    exact hs.insert ix see v hroom
  | delete row _ ih =>
    obtain ⟨s, hs⟩ := ih
    exact hs.delete row

/-- A tree stays well formed and balanced through every run of inserts and deletes, and so it is no
higher than the number of its elements allows. -/
theorem well_formed_of_reaches {ix : Index} {t : Tree} (h : ix.Reaches t) :
    t.WellFormed ∧ ∃ height : Nat, t.height = .ok height ∧
      Nat.fib (height + 2) - 1 ≤ t.elementCount := by
  obtain ⟨s, hs⟩ := h.holds
  refine ⟨hs.wellFormed, s.height, hs.height, ?_⟩
  rw [hs.count]
  exact Nat.sub_le_of_le_add (Tree.fib_le_of_balanced hs.balanced)

/-- The third of these inserts fails, and the delete takes the root away. -/
theorem sample_run_well_formed :
    let t₁ := ((sample.insert none (sampleVersion 1 5)).outcome {}).2
    let t₂ := ((sample.insert none (sampleVersion 2 3)).outcome t₁).2
    let t₃ := ((sample.insert none (sampleVersion 3 5)).outcome t₂).2
    let t₄ := ((TreeAction.removeRow 1).outcome t₃).2
    t₄.elementCount = 1 ∧ t₄.WellFormed ∧ ∃ height : Nat, t₄.height = .ok height ∧
      Nat.fib (height + 2) - 1 ≤ t₄.elementCount := by
  have h₁ : sample.Reaches _ :=
    Reaches.empty.insert none (sampleVersion 1 5) (Or.inr (by decide +kernel))
  have h₂ := h₁.insert none (sampleVersion 2 3) (Or.inr (by decide +kernel))
  have h₃ := h₂.insert none (sampleVersion 3 5) (Or.inr (by decide +kernel))
  exact ⟨by decide +kernel, well_formed_of_reaches (h₃.delete 1)⟩

end Index

end VersionedIndex
