import VersionedIndex.Proofs.Index.Admission
import VersionedIndex.Proofs.Index.Runs

namespace VersionedIndex

namespace Index

def listAfterInsert (ix : Index) (outcome : Except Error Unit) (v : Version) (l : List Version) :
    List Version :=
  match outcome with
  | .ok () => l.orderedInsert ix.order.Before v
  | .error _ => l

def listAfterDelete (outcome : Except Error Bool) (row : RowId) (l : List Version) :
    List Version :=
  match outcome with
  | .ok true => l.filter (·.id ≠ row)
  | _ => l

/-- A tree and the model list that a run of inserts and deletes brings about together. Each insert
finds room (`HasRoom`: a free slot, or one more node id of 32 bits), key columns hold accepted
values, and no row is inserted that is in the tree already. -/
inductive Models (ix : Index) : Tree → List Version → Prop
  | empty : ix.Models {} []
  | insert {t : Tree} {l : List Version} (see : Option Visibility) (v : Version) :
    ix.Models t l → t.HasRoom → ix.order.Accepts v.data → (∀ w ∈ l, w.id ≠ v.id) →
    ix.Models ((ix.insert see v).outcome t).2
      (ix.listAfterInsert ((ix.insert see v).outcome t).1 v l)
  | delete {t : Tree} {l : List Version} (row : RowId) :
    ix.Models t l →
    ix.Models ((TreeAction.removeRow row).outcome t).2
      (listAfterDelete ((TreeAction.removeRow row).outcome t).1 row l)

theorem orderedInsert_eq {α : Type} {r : α → α → Prop} [DecidableRel r] {x : α}
    {before after : List α} (hbefore : ∀ y ∈ before, ¬r x y) (hafter : ∀ y ∈ after, r x y) :
    (before ++ after).orderedInsert r x = before ++ x :: after := by
  induction before with
  | nil =>
    cases after with
    | nil => rfl
    | cons y after => exact if_pos (hafter y List.mem_cons_self)
  | cons y before ih =>
    rw [List.forall_mem_cons] at hbefore
    rw [List.cons_append, List.orderedInsert_cons, if_neg hbefore.1, ih hbefore.2]
    rfl

theorem Orders.insert_refines {ix : Index} {t : Tree} {s : Shape} {v : Version}
    (h : ix.Orders t s) (see : Option Visibility) (hroom : t.HasRoom)
    (hv : ix.order.Accepts v.data) (hfresh : ∀ e ∈ s.items, e.version.id ≠ v.id) :
    ∃ s', ix.Orders ((ix.insert see v).outcome t).2 s' ∧
      s'.items.map (·.version) = ix.listAfterInsert ((ix.insert see v).outcome t).1 v
        (s.items.map (·.version)) := by
  rcases h.insert see hroom hv hfresh with
    ⟨err, hfail⟩ | ⟨t', s', p, hok, h', rfl, hclear, hitems, -⟩
  · rw [Action.outcome, hfail]
    exact ⟨s, h, rfl⟩
  · rw [Action.outcome, hok]
    refine ⟨s', h', ?_⟩
    have hold : ((p.plug .leaf).items.map (·.version)) =
        p.before.map (·.version) ++ p.after.map (·.version) := by
      rw [Path.items_plug, Shape.items, List.append_nil, List.map_append]
    have hmem {e : Item} (he : e ∈ p.before ++ p.after) : e ∈ (p.plug .leaf).items := by
      rw [Path.items_plug, Shape.items, List.append_nil]
      exact he
    change _ = (List.map _ _).orderedInsert ix.order.Before v
    rw [hold, hitems, List.map_append, List.map_cons, orderedInsert_eq]
    · intro w hw
      obtain ⟨e, he, rfl⟩ := List.mem_map.mp hw
      rw [KeyOrder.before_iff hv.suits (h.accepted e (hmem (List.mem_append_left _ he))).suits,
        Std.OrientedCmp.gt_of_lt (hclear.1 e he)]
      decide
    · intro w hw
      obtain ⟨e, he, rfl⟩ := List.mem_map.mp hw
      rw [KeyOrder.before_iff hv.suits (h.accepted e (hmem (List.mem_append_right _ he))).suits]
      exact hclear.2 e he

theorem Orders.delete_refines {ix : Index} {t : Tree} {s : Shape} (h : ix.Orders t s)
    (row : RowId) :
    ∃ s', ix.Orders ((TreeAction.removeRow row).outcome t).2 s' ∧
      s'.items.map (·.version) = listAfterDelete ((TreeAction.removeRow row).outcome t).1 row
        (s.items.map (·.version)) := by
  rcases h.delete row with
    ⟨before, e, after, t', s', hitems, rfl, hrun, h', hitems', -⟩ | ⟨-, hrun⟩
  · rw [Action.outcome, hrun]
    refine ⟨s', h', ?_⟩
    -- Rows are unique in the tree, so only the item that is deleted is filtered out.
    have hkeep (l : List Item) (hl : ∀ e' ∈ l, e' ∈ before ++ after) :
        (l.map (·.version)).filter (·.id ≠ e.version.id) = l.map (·.version) := by
      rw [List.filter_eq_self]
      intro w hw
      obtain ⟨e', he', rfl⟩ := List.mem_map.mp hw
      exact decide_eq_true (h.ne_of_mem_rest hitems (hl e' he'))
    change _ = (List.map _ _).filter _
    rw [hitems, hitems', List.map_append, List.map_append, List.map_cons, List.filter_append,
      List.filter_cons, if_neg (by simp), hkeep before fun _ => List.mem_append_left _,
      hkeep after fun _ => List.mem_append_right _]
  · rw [Action.outcome, hrun]
    exact ⟨s, h, rfl⟩

theorem Models.orders {ix : Index} {t : Tree} {l : List Version} (h : ix.Models t l) :
    ∃ s, ix.Orders t s ∧ s.items.map (·.version) = l := by
  induction h with
  | empty => exact ⟨.leaf, Orders.empty ix, rfl⟩
  | insert see v _ hroom hv hfresh ih =>
    obtain ⟨s, hs, rfl⟩ := ih
    exact hs.insert_refines see hroom hv fun e he => hfresh _ (List.mem_map_of_mem he)
  | delete row _ ih =>
    obtain ⟨s, hs, rfl⟩ := ih
    exact hs.delete_refines row

/-- An insert succeeds unless a version of the list keeps the new one out, and then it is refused as
a duplicate. -/
theorem Models.insert_succeeds_iff {ix : Index} {t : Tree} {l : List Version} (h : ix.Models t l)
    (see : Option Visibility) {v : Version} (hroom : t.HasRoom) (hv : ix.order.Accepts v.data) :
    (((ix.insert see v).outcome t).1 = .ok () ↔ ∀ u ∈ l, ¬ix.KeepsOut see v u) ∧
    ∀ err, ((ix.insert see v).outcome t).1 = .error err → err.isDuplicate = true := by
  obtain ⟨s, hs, rfl⟩ := h.orders
  have hstored (u : Version) : u ∈ s.items.map (·.version) ↔ u ∈ s.stored := by
    rw [Shape.stored, Multiset.mem_coe]
  simp only [hstored]
  rcases hs.sorts.insert_cases see hroom hv.suits with
    ⟨⟨u, hu, hout⟩, err, hfail, e, he, hconflict⟩ | ⟨hfree, t', s', p, hok, -⟩
  · rw [Action.outcome_of_error hfail]
    refine ⟨⟨fun hok => ?_, fun hfree => absurd hout (hfree u hu)⟩, fun err' herr => ?_⟩
    · cases hok
    · cases herr
      exact hs.holds.duplicate_of_conflict he hconflict
  · rw [Action.outcome_of_ok hok]
    refine ⟨iff_of_true rfl hfree, fun err herr => ?_⟩
    cases herr

/-- A delete never fails, and returns whether the row is in the list. -/
theorem Models.delete_succeeds_iff {ix : Index} {t : Tree} {l : List Version} (h : ix.Models t l)
    (row : RowId) :
    ((TreeAction.removeRow row).outcome t).1 = .ok (decide (∃ w ∈ l, w.id = row)) := by
  obtain ⟨s, hs, rfl⟩ := h.orders
  rcases hs.delete row with
    ⟨before, e, after, t', s', hitems, rfl, hrun, -⟩ | ⟨habsent, hrun⟩
  · have hrow : ∃ w ∈ s.items.map (·.version), w.id = e.version.id :=
      ⟨e.version, by simp [hitems], rfl⟩
    rw [Action.outcome_of_ok hrun, decide_eq_true hrow]
  · have hrow : ¬∃ w ∈ s.items.map (·.version), w.id = row := by
      rintro ⟨w, hw, hsame⟩
      obtain ⟨e, he, rfl⟩ := List.mem_map.mp hw
      exact habsent e he hsame
    rw [Action.outcome_of_ok hrun, decide_eq_false hrow]

/-- A tree is its model list: the versions in order along the links, what scans in both directions
yield under any visibility, and the counts. -/
theorem tree_refines_list {ix : Index} {t : Tree} {l : List Version} (h : ix.Models t l) :
    t.inorder.map (·.version) = l ∧
    l.Pairwise (fun a b => ix.order.compareVersions a b true = .lt) ∧
    (∀ (see : Option Visibility) (any : Index), ∃ (c : Cursor) (any' : Index),
      first see t any = .ok c any' ∧ c.drain see t = l.filter (Visibility.admits see .read)) ∧
    (∀ see : Option Visibility, ∃ c : Cursor,
      last see t = .ok c ∧ c.drain see t = (l.filter (Visibility.admits see .read)).reverse) ∧
    (∀ see : Option Visibility,
      nodeCount see t = .ok (l.filter (Visibility.admits see .read)).length) ∧
    t.elementCount = l.length ∧ (t.root.isNone = true ↔ l = []) := by
  obtain ⟨s, hs, rfl⟩ := h.orders
  refine ⟨by rw [hs.holds.inorder], hs.sorted, fun see any => ?_, hs.holds.drain_last,
    hs.holds.node_count, ?_, ?_⟩
  · obtain ⟨c, depth, hfirst, hdrain⟩ := hs.holds.drain_first see any
    exact ⟨c, _, hfirst, hdrain⟩
  · rw [hs.holds.count, List.length_map]
  · rw [hs.holds.root, Option.isNone_iff_eq_none, Shape.root_eq_none, List.map_eq_nil_iff]
    cases s <;> simp [Shape.items]

/-- Five rows go in and make the tree turn, and a sixth has the key of the first. That one is then at
the root, with two children; it can be deleted once. -/
theorem sample_run_refines :
    let r₁ := (sample.insert none (sampleVersion 1 5)).outcome {}
    let r₂ := (sample.insert none (sampleVersion 2 3)).outcome r₁.2
    let r₃ := (sample.insert none (sampleVersion 3 7)).outcome r₂.2
    let r₄ := (sample.insert none (sampleVersion 4 8)).outcome r₃.2
    let r₅ := (sample.insert none (sampleVersion 5 9)).outcome r₄.2
    let r₆ := (sample.insert none (sampleVersion 6 5)).outcome r₅.2
    let r₇ := (TreeAction.removeRow 1).outcome r₆.2
    let r₈ := (TreeAction.removeRow 1).outcome r₇.2
    let rows := [sampleVersion 2 3, sampleVersion 3 7, sampleVersion 4 8, sampleVersion 5 9]
    (r₁.1 = .ok () ∧ r₂.1 = .ok () ∧ r₃.1 = .ok () ∧ r₄.1 = .ok () ∧ r₅.1 = .ok ()) ∧
    r₆.1 = .error (.duplicateKey "sample" none) ∧
    r₆.2.root = some 0 ∧ r₆.2.node 0 = .ok ⟨sampleVersion 1 5, some 1, some 3, none, 1⟩ ∧
    r₇.1 = .ok true ∧ r₈.1 = .ok false ∧
    sample.Models r₈.2 rows ∧ r₈.2.inorder.map (·.version) = rows ∧
    (∃ (c : Cursor) (any : Index),
      first none r₈.2 sample = .ok c any ∧ c.drain none r₈.2 = rows) ∧
    (∃ c : Cursor, last none r₈.2 = .ok c ∧ c.drain none r₈.2 = rows.reverse) ∧
    nodeCount none r₈.2 = .ok 4 ∧ r₈.2.elementCount = 4 := by
  intro r₁ r₂ r₃ r₄ r₅ r₆ r₇ r₈ rows
  have h₁ : sample.Models r₁.2 _ := Models.empty.insert none (sampleVersion 1 5)
    (Or.inr (by decide +kernel)) (by decide) (by decide +kernel)
  have h₂ : sample.Models r₂.2 _ := h₁.insert none (sampleVersion 2 3)
    (Or.inr (by decide +kernel)) (by decide) (by decide +kernel)
  have h₃ : sample.Models r₃.2 _ := h₂.insert none (sampleVersion 3 7)
    (Or.inr (by decide +kernel)) (by decide) (by decide +kernel)
  have h₄ : sample.Models r₄.2 _ := h₃.insert none (sampleVersion 4 8)
    (Or.inr (by decide +kernel)) (by decide) (by decide +kernel)
  have h₅ : sample.Models r₅.2 _ := h₄.insert none (sampleVersion 5 9)
    (Or.inr (by decide +kernel)) (by decide) (by decide +kernel)
  have h₆ : sample.Models r₆.2 _ := h₅.insert none (sampleVersion 6 5)
    (Or.inr (by decide +kernel)) (by decide) (by decide +kernel)
  obtain ⟨l, hl, rfl⟩ : ∃ l, sample.Models r₈.2 l ∧ l = rows :=
    ⟨_, (h₆.delete 1).delete 1, by decide +kernel⟩
  obtain ⟨hinorder, -, hfirst, hlast, hcount, hlength, -⟩ := tree_refines_list hl
  exact ⟨by decide +kernel, by decide +kernel, by decide +kernel, by decide +kernel,
    by decide +kernel, by decide +kernel, hl, hinorder, hfirst none sample, hlast none,
    hcount none, hlength⟩

end Index

end VersionedIndex
