import Mathlib.Data.Multiset.AddSub
import Mathlib.Data.Multiset.MapFold
import Mathlib.Data.Multiset.Range
import Mathlib.Algebra.BigOperators.Group.Multiset.Basic
import Mathlib.Algebra.Order.BigOperators.Group.Multiset
import Mathlib.Data.Multiset.OrderedMonoid
import Mathlib.Tactic.Abel
import VersionedIndex.Tree.Remove

/-! The slots of a tree as a multiset of cells. An action is described by the cells that it needs
and those that it leaves; all others stay, so descriptions combine without saying which slots
differ. -/

namespace VersionedIndex

abbrev Cell : Type := NodeId × Node

def cellsOf (slots : Array Node) : Multiset Cell :=
  ↑(slots.toList.zipIdx.map fun p => (p.2, p.1))

theorem mem_cellsOf {slots : Array Node} {id : NodeId} {n : Node} :
    (id, n) ∈ cellsOf slots ↔ slots[id]? = some n := by
  simp [cellsOf, List.mem_zipIdx_iff_getElem?]

theorem ids_cellsOf (slots : Array Node) :
    (cellsOf slots).map Prod.fst = Multiset.range slots.size := by
  have h : (slots.toList.zipIdx.map fun p => (p.2, p.1)).map Prod.fst = List.range slots.size := by
    rw [List.map_map]
    change slots.toList.zipIdx.map Prod.snd = _
    rw [List.zipIdx_map_snd, List.range_eq_range', Array.length_toList]
  simp only [cellsOf, Multiset.map_coe, h, Multiset.range]

theorem card_cellsOf (slots : Array Node) : (cellsOf slots).card = slots.size := by
  simp [cellsOf]

theorem nodup_ids_cellsOf (slots : Array Node) : ((cellsOf slots).map Prod.fst).Nodup := by
  rw [ids_cellsOf]
  exact Multiset.nodup_range _

theorem cellsOf_push (slots : Array Node) (n : Node) :
    cellsOf (slots.push n) = {(slots.size, n)} + cellsOf slots := by
  simp only [cellsOf, Array.toList_push, List.zipIdx_append, List.map_append, Array.length_toList]
  rw [← Multiset.coe_add, add_comm]
  simp

theorem cellsOf_set {slots : Array Node} {id : NodeId} {n : Node} {rest : Multiset Cell}
    (h : cellsOf slots = {(id, n)} + rest) (new : Node) :
    cellsOf (slots.setIfInBounds id new) = {(id, new)} + rest := by
  have hkeys := nodup_ids_cellsOf slots
  rw [h, Multiset.map_add, Multiset.map_singleton, Multiset.singleton_add,
    Multiset.nodup_cons] at hkeys
  -- No slot occurs twice, so the other cells are those with another number.
  have hrest (i : NodeId) (m : Node) : (i, m) ∈ rest ↔ slots[i]? = some m ∧ i ≠ id := by
    constructor
    · intro hm
      refine ⟨mem_cellsOf.mp (h ▸ Multiset.mem_add.mpr (Or.inr hm)), ?_⟩
      rintro rfl
      exact hkeys.1 (Multiset.mem_map.mpr ⟨_, hm, rfl⟩)
    · rintro ⟨hm, hne⟩
      have hin := mem_cellsOf.mpr hm
      rw [h, Multiset.mem_add, Multiset.mem_singleton] at hin
      exact hin.resolve_left fun he => hne (congrArg Prod.fst he)
  have hid : id < slots.size := by
    have hin : slots[id]? = some n := mem_cellsOf.mp (by simp [h])
    exact (Array.getElem?_eq_some_iff.mp hin).1
  apply (Multiset.Nodup.ext _ _).mpr
  · rintro ⟨i, m⟩
    rw [mem_cellsOf, Multiset.mem_add, Multiset.mem_singleton, hrest, Prod.mk.injEq,
      Array.getElem?_setIfInBounds]
    by_cases hi : id = i
    · subst hi
      simp [hid, eq_comm]
    · simp [hi, Ne.symm hi]
  · exact Multiset.Nodup.of_map _ (nodup_ids_cellsOf _)
  · rw [Multiset.singleton_add, Multiset.nodup_cons]
    exact ⟨fun hm => (hrest id new).mp hm |>.2 rfl, Multiset.Nodup.of_map _ hkeys.2⟩

/-- From the root `r` and the cells `pre`, among whatever other cells, `act` returns `a` and leaves
the root `r'` and the cells `post`. Nothing else in the tree changes. -/
def Effect {α : Type} (act : TreeAction α) (r : Option NodeId) (pre : Multiset Cell) (a : α)
    (r' : Option NodeId) (post : Multiset Cell) : Prop :=
  ∀ (t : Tree) (rest : Multiset Cell), t.root = r → cellsOf t.slots = pre + rest →
    ∃ slots, act t = .ok a { t with root := r', slots } ∧ cellsOf slots = post + rest

namespace Effect

variable {α β : Type} {act : TreeAction α} {r r' r'' : Option NodeId} {pre mid post : Multiset Cell}
  {a : α}

theorem pure (a : α) (r : Option NodeId) (pre : Multiset Cell) :
    Effect (Pure.pure a) r pre a r pre := by
  intro t rest hr ht
  refine ⟨t.slots, ?_, ht⟩
  subst hr
  rfl

theorem frame (h : Effect act r pre a r' post) (F : Multiset Cell) :
    Effect act r (pre + F) a r' (post + F) := by
  intro t rest hr ht
  obtain ⟨slots, hact, hslots⟩ := h t (F + rest) hr (by rw [ht, add_assoc])
  exact ⟨slots, hact, by rw [hslots, add_assoc]⟩

theorem bind {f : α → TreeAction β} {b : β} (h : Effect act r pre a r' mid)
    (hf : Effect (f a) r' mid b r'' post) : Effect (act >>= f) r pre b r'' post := by
  intro t rest hr ht
  obtain ⟨slots, hact, hslots⟩ := h t rest hr ht
  obtain ⟨slots', hact', hslots'⟩ := hf { t with root := r', slots } rest rfl hslots
  refine ⟨slots', ?_, hslots'⟩
  change EStateM.bind act f t = _
  simp only [EStateM.bind, hact, hact']

/-- As `bind`, with what holds in between named. -/
theorem through {f : α → TreeAction β} {b : β} (a : α) (r' : Option NodeId) (mid : Multiset Cell)
    (h : Effect act r pre a r' mid) (hf : Effect (f a) r' mid b r'' post) :
    Effect (act >>= f) r pre b r'' post :=
  h.bind hf

/-- One action of a sequence: it needs the cells `P` out of `pre` and leaves `F`. -/
theorem step {P Q : Multiset Cell} {f : α → TreeAction β} {b : β} (h : Effect act r P a r' Q)
    (F : Multiset Cell) (hpre : pre = P + F) (hf : Effect (f a) r' (Q + F) b r'' post) :
    Effect (act >>= f) r pre b r'' post := by
  subst hpre
  exact (h.frame F).bind hf

/-- A reading step of a sequence, which leaves all cells. -/
theorem examine {read : Tree → Except Error α} {f : α → TreeAction β} {b : β}
    (hread : ∀ t : Tree, t.root = r → pre ≤ cellsOf t.slots → read t = .ok a)
    (hf : Effect (f a) r pre b r' post) : Effect (Action.examine read >>= f) r pre b r' post := by
  intro t rest hr ht
  have hok := hread t hr (by rw [ht]; exact Multiset.le_add_right _ _)
  obtain ⟨slots, hact, hslots⟩ := hf t rest hr ht
  refine ⟨slots, ?_, hslots⟩
  change EStateM.bind (Action.examine read) f t = _
  simp only [EStateM.bind, Action.examine, hok, hact]

/-- The cells that an effect starts from may be listed in another way. -/
theorem of_eq {pre' post' : Multiset Cell} (h : Effect act r pre' a r' post') (hpre : pre = pre')
    (hpost : post' = post) : Effect act r pre a r' post := by
  subst hpre hpost
  exact h

end Effect

namespace Tree

variable {t : Tree} {id : NodeId} {n : Node} {side : Side}

theorem node_of_cell (h : (id, n) ∈ cellsOf t.slots) : t.node id = .ok n := by
  rw [mem_cellsOf] at h
  simp only [node, h]

theorem slot_of_node (h : t.node id = .ok n) : t.slots[id]? = some n := by
  simp only [node] at h
  split at h
  · next hsome => rw [hsome, Except.ok.inj h]
  · cases h

theorem child_of_cell (h : (id, n) ∈ cellsOf t.slots) : t.child id side = .ok (n.child side) := by
  simp only [child, node_of_cell h]
  rfl

theorem parent_of_cell (h : (id, n) ∈ cellsOf t.slots) : t.parent id = .ok n.parent := by
  simp only [parent, node_of_cell h]
  rfl

theorem balance_of_cell (h : (id, n) ∈ cellsOf t.slots) : t.balance id = .ok n.balance := by
  simp only [balance, node_of_cell h]
  rfl

theorem existing_child_of_cell (h : (id, n) ∈ cellsOf t.slots) {c : NodeId}
    (hc : n.child side = some c) : t.existingChild id side = .ok c := by
  simp only [existingChild, child_of_cell h, hc]

end Tree

theorem modify_effect (id : NodeId) (f : Node → Node) (n : Node) (r : Option NodeId) :
    Effect (TreeAction.modifyNode id f) r {(id, n)} () r {(id, f n)} := by
  intro t rest hr ht
  have hn : t.slots[id]? = some n := mem_cellsOf.mp (by simp [ht])
  refine ⟨t.slots.setIfInBounds id (f n), ?_, cellsOf_set ht (f n)⟩
  subst hr
  simp only [TreeAction.modifyNode, hn]

theorem set_balance_effect (id : NodeId) (balance : Int8) (n : Node) (r : Option NodeId) :
    Effect (TreeAction.setBalance id balance) r {(id, n)} () r {(id, { n with balance })} :=
  modify_effect id _ n r

theorem set_parent_effect (id : NodeId) (parent : Option NodeId) (n : Node) (r : Option NodeId) :
    Effect (TreeAction.setParent id parent) r {(id, n)} () r {(id, { n with parent })} :=
  modify_effect id _ n r

theorem set_link_effect (id : NodeId) (side : Side) (child : Option NodeId) (n : Node)
    (r : Option NodeId) :
    Effect (TreeAction.setLink id side child) r {(id, n)} () r {(id, n.withChild child side)} :=
  modify_effect id _ n r

theorem set_root_effect (r r' : Option NodeId) (pre : Multiset Cell) :
    Effect (TreeAction.setRoot r') r pre () r' pre := by
  intro t rest _ ht
  exact ⟨t.slots, rfl, ht⟩

end VersionedIndex
