import VersionedIndex.Proofs.Tree.Balance

namespace VersionedIndex

namespace Action

variable {σ α β : Type} {act : Action σ α} {f : α → Action σ β} {s s' : σ}

theorem bind_of_ok {a : α} (h : act s = .ok a s') : (act >>= f) s = f a s' := by
  change EStateM.bind act f s = _
  simp only [EStateM.bind, h]

theorem bind_of_error {e : Error} (h : act s = .error e s') : (act >>= f) s = .error e s' := by
  change EStateM.bind act f s = _
  simp only [EStateM.bind, h]

theorem bind_eq_ok {b : β} : (act >>= f) s = .ok b s' ↔
    ∃ (a : α) (mid : σ), act s = .ok a mid ∧ f a mid = .ok b s' := by
  cases hact : act s with
  | ok a mid =>
    rw [bind_of_ok hact]
    constructor
    · exact fun hok => ⟨a, mid, rfl, hok⟩
    · rintro ⟨_, _, ⟨⟩, hok⟩
      exact hok
  | error e mid =>
    rw [bind_of_error hact]
    exact iff_of_false nofun (by rintro ⟨_, _, ⟨⟩, -⟩)

theorem examine_of_ok {read : σ → Except Error α} {a : α} (h : read s = .ok a) :
    examine read s = .ok a s := by
  simp only [examine, h]

theorem examine_of_error {read : σ → Except Error α} {e : Error} (h : read s = .error e) :
    examine read s = .error e s := by
  simp only [examine, h]

@[simp] theorem outcome_examine (read : σ → Except Error α) (s : σ) :
    (examine read).outcome s = (read s, s) := by
  simp only [outcome, examine]
  cases read s <;> rfl

theorem outcome_of_ok {a : α} (h : act s = .ok a s') : act.outcome s = (.ok a, s') := by
  rw [outcome, h]

theorem outcome_of_error {e : Error} (h : act s = .error e s') :
    act.outcome s = (.error e, s') := by
  rw [outcome, h]

theorem ok_of_outcome {a : α} (h : (act.outcome s).1 = .ok a) : act s = .ok a (act.outcome s).2 := by
  cases hrun : act s with
  | ok b s' =>
    rw [outcome_of_ok hrun] at h ⊢
    rw [Except.ok.inj h]
  | error e s' =>
    rw [outcome_of_error hrun] at h
    cases h

theorem error_of_outcome {e : Error} (h : (act.outcome s).1 = .error e) :
    act s = .error e (act.outcome s).2 := by
  cases hrun : act s with
  | ok b s' =>
    rw [outcome_of_ok hrun] at h
    cases h
  | error e' s' =>
    rw [outcome_of_error hrun] at h ⊢
    rw [Except.error.inj h]

end Action

namespace Tree

theorem nodeIdLimit_lt : nodeIdLimit < maxElementCount := by decide

/-- There is a slot for one more node: a free one, or a new one with a node id of 32 bits. -/
def HasRoom (t : Tree) : Prop := 0 < t.free.size ∨ t.slots.size < nodeIdLimit

instance (t : Tree) : Decidable t.HasRoom := inferInstanceAs (Decidable (_ ∨ _))

/-- The linked nodes of a tree form the balanced shape `s`; all other slots are released and listed
as retired or free, each once; each bound row is held by the node it is bound to; and the recorded
count is that of the linked nodes. -/
structure Holds (t : Tree) (s : Shape) : Prop where
  root : t.root = s.root?
  balanced : s.Balanced
  dead : ∃ dead : Multiset Cell, cellsOf t.slots = s.cells none + dead ∧
    dead.map Prod.fst = ↑(t.retired.toList ++ t.free.toList) ∧ ∀ c ∈ dead, c.2 = c.2.released
  bound : ∀ row id, t.binding.node? row = some id → ∃ e ∈ s.items, e.id = id ∧ e.version.id = row
  count : t.elementCount = s.items.length
  fits : t.slots.size ≤ nodeIdLimit

def BindsAll (t : Tree) (s : Shape) : Prop :=
  ∀ e ∈ s.items, t.binding.node? e.version.id = some e.id

theorem holds_empty : Holds {} .leaf where
  root := rfl
  balanced := trivial
  dead := ⟨0, rfl, rfl, by simp⟩
  bound row id h := by simp [Binding.node?] at h
  count := rfl
  fits := Nat.zero_le _

namespace Holds

variable {t : Tree} {s : Shape}

theorem forms (h : t.Holds s) : t.Forms s := by
  obtain ⟨dead, hcells, -, -⟩ := h.dead
  exact ⟨h.root, hcells ▸ Multiset.le_add_right _ _⟩

/-- The number of slots is that of the linked nodes, the retired slots and the free ones. -/
theorem size_eq (h : t.Holds s) :
    t.slots.size = s.items.length + t.retired.size + t.free.size := by
  obtain ⟨dead, hcells, hids, -⟩ := h.dead
  have hcard := congrArg Multiset.card hids
  rw [Multiset.card_map, Multiset.coe_card, List.length_append, Array.length_toList,
    Array.length_toList] at hcard
  rw [← card_cellsOf, hcells, Multiset.card_add, Shape.card_cells, hcard, Nat.add_assoc]

/-- A retired slot keeps its node without links, and with the balance of a released one. -/
theorem released_of_retired (h : t.Holds s) {id : NodeId} (hid : id ∈ t.retired) :
    ∃ n, t.slots[id]? = some n ∧ n = n.released := by
  obtain ⟨dead, hcells, hids, hdead⟩ := h.dead
  have hmem : id ∈ dead.map Prod.fst := by
    rw [hids, Multiset.mem_coe, List.mem_append, Array.mem_toList_iff]
    exact Or.inl hid
  obtain ⟨⟨i, n⟩, hcell, hi⟩ := Multiset.mem_map.mp hmem
  obtain rfl : i = id := hi
  exact ⟨n, mem_cellsOf.mp (hcells ▸ Multiset.mem_add.mpr (Or.inr hcell)), hdead _ hcell⟩

/-- A retired slot keeps a node that is marked deleted. -/
theorem node_of_retired (h : t.Holds s) {id : NodeId} (hid : id ∈ t.retired) :
    ∃ n, t.node id = .ok n ∧ n.isDeleted = true := by
  obtain ⟨n, hslot, hreleased⟩ := h.released_of_retired hid
  refine ⟨n, node_of_cell (mem_cellsOf.mpr hslot), ?_⟩
  rw [hreleased]
  exact beq_self_eq_true Node.deletedBalance

theorem reclaim (h : t.Holds s) : t.reclaim.2.Holds s := by
  obtain ⟨dead, hcells, hids, hdead⟩ := h.dead
  refine ⟨h.root, h.balanced, ⟨dead, hcells, ?_, hdead⟩, h.bound, h.count, h.fits⟩
  rw [hids, Tree.reclaim, Array.toList_append]
  exact Multiset.coe_eq_coe.mpr List.perm_append_comm

end Holds

/-- The tree `t'` holds the items `before` and `after` with a new one for `v` between them, in the
slot that `t` had ready. -/
def Gains (t : Tree) (v : Version) (before after : List Item) (t' : Tree) : Prop :=
  ∃ s : Shape, t'.Holds s ∧ s.items = before ++ ⟨(t.allocate v).1, v⟩ :: after ∧
    t'.binding = t.binding.insert v.id (t.allocate v).1 ∧ t'.retired = t.retired ∧
    t'.free = (t.allocate v).2.free

/-- A new node has a cell of its own, and the other cells are as they were. -/
theorem cellsOf_allocate {t : Tree} {s : Shape} (h : t.Holds s) (hroom : t.HasRoom) (v : Version) :
    ∃ dead : Multiset Cell,
      cellsOf (t.allocate v).2.slots =
        {((t.allocate v).1, { version := v })} + s.cells none + dead ∧
      dead.map Prod.fst = ↑(t.retired.toList ++ (t.allocate v).2.free.toList) ∧
      (∀ c ∈ dead, c.2 = c.2.released) ∧ (t.allocate v).2.slots.size ≤ nodeIdLimit := by
  obtain ⟨dead, hcells, hids, hreleased⟩ := h.dead
  rcases hback : t.free.back? with _ | id
  · have hfree : t.free = #[] := Array.back?_eq_none_iff.mp hback
    have hsize : t.slots.size < nodeIdLimit := by
      rcases hroom with hroom | hroom
      · simp [hfree] at hroom
      · exact hroom
    simp only [allocate, hback, Nat.mod_eq_of_lt hsize, Array.size_push]
    refine ⟨dead, ?_, hids, hreleased, hsize⟩
    rw [cellsOf_push, hcells, add_assoc]
  · obtain ⟨free, hfree⟩ : ∃ free : Array NodeId, t.free = free.push id := by
      rw [Array.back?_eq_some_iff] at hback
      exact hback
    have hid : id ∈ dead.map Prod.fst := by
      rw [hids, hfree]
      simp
    obtain ⟨⟨i, n⟩, hmem, hi⟩ := Multiset.mem_map.mp hid
    obtain rfl : i = id := hi
    obtain ⟨dead', rfl⟩ := Multiset.exists_cons_of_mem hmem
    simp only [allocate, hback, Array.size_setIfInBounds]
    refine ⟨dead', ?_, ?_, fun c hc => hreleased c (Multiset.mem_cons_of_mem hc), h.fits⟩
    · rw [← Multiset.singleton_add, add_left_comm] at hcells
      rw [cellsOf_set hcells, add_assoc]
    · rw [hfree, Multiset.map_cons, Array.toList_push, ← List.append_assoc, ← Multiset.coe_add,
        ← Multiset.cons_coe i [], Multiset.add_cons, Multiset.coe_nil, add_zero] at hids
      rw [hfree, Array.pop_push]
      exact (Multiset.cons_inj_right _).mp hids

@[simp] theorem binding_allocate (t : Tree) (v : Version) :
    (t.allocate v).2.binding = t.binding.insert v.id (t.allocate v).1 := by
  simp only [allocate]
  split <;> rfl

@[simp] theorem root_allocate (t : Tree) (v : Version) : (t.allocate v).2.root = t.root := by
  simp only [allocate]
  split <;> rfl

@[simp] theorem retired_allocate (t : Tree) (v : Version) :
    (t.allocate v).2.retired = t.retired := by
  simp only [allocate]
  split <;> rfl

@[simp] theorem count_allocate (t : Tree) (v : Version) :
    (t.allocate v).2.elementCount = t.elementCount := by
  simp only [allocate]
  split <;> rfl

end Tree

end VersionedIndex
