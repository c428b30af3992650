import VersionedIndex.Proofs.Tree.Exchange
import VersionedIndex.Proofs.Tree.Shrinkage

namespace VersionedIndex

open TreeAction

namespace Path

theorem height_plug_congr {p : Path} {s s' : Shape} (h : s.height = s'.height) :
    (p.plug s).height = (p.plug s').height := by
  induction p generalizing s s' with
  | nil => exact h
  | cons f p ih =>
    apply ih
    rw [Shape.height_join, Shape.height_join, h]

theorem before_append_node (q p : Path) (x : Item) (b : Int8) (right : Shape) :
    before (q ++ ⟨x, b, .left, right⟩ :: p) = before p ++ before q := by
  induction q with
  | nil => simp [before, beyond]
  | cons f q ih =>
    simp only [before, List.cons_append, beyond] at ih ⊢
    split
    · exact ih
    · simp only [List.reverse_append, List.reverse_cons, ih, List.append_assoc]

theorem after_append_node (q p : Path) (x : Item) (b : Int8) (right : Shape) :
    after (q ++ ⟨x, b, .left, right⟩ :: p) = after q ++ x :: right.items ++ after p := by
  induction q with
  | nil => simp [after, beyond, Shape.itemsToward]
  | cons f q ih =>
    simp only [after, List.cons_append, beyond] at ih ⊢
    split
    · exact ih
    · rw [ih]
      simp

end Path

/-- The last item of the left subtree of a node is found by the walk down its right links. -/
theorem Tree.Forms.rightmost_of_left {t : Tree} {p q : Path} {below right : Shape} {d x : Item}
    {b bx : Int8} {left : NodeId}
    (h : t.Forms (p.plug (.node (q.plug (.node below x bx .leaf)) d b right)))
    (hq : ∀ f ∈ q, f.side = .right) (hleft : (q.plug (.node below x bx .leaf)).root? = some left) :
    t.rightmost left = .ok x.id := by
  obtain ⟨y, depth, hwalk, hlast⟩ := Tree.Forms.outermost (p := ⟨d, b, .left, right⟩ :: p) .right
    h hleft
  have hx := Shape.last_toward_outermost hq x bx below
  obtain rfl : y = x := Option.some.inj (hlast.symm.trans hx)
  simp only [Tree.rightmost, hwalk]
  rfl

/-- A node can be brought into a position with one child at most: the order of all other items
stays, and so does the balance of the tree. -/
theorem isolate_becomes (p : Path) (left right : Shape) (d : Item) (b : Int8) :
    ∃ (p' : Path) (side : Side) (child : Shape) (b' : Int8),
      Becomes (isolate d.id) (p.plug (.node left d b right)) child.root?
        (p'.plug (.join side child d b' .leaf)) ∧
      p'.before ++ child.items ++ p'.after = p.before ++ (left.items ++ right.items) ++ p.after ∧
      ((p.plug (.node left d b right)).Balanced →
        (p'.plug (.join side child d b' .leaf)).Balanced) := by
  have hstart {T : Shape} {a : Option NodeId}
      {k : Option NodeId → Option NodeId → TreeAction (Option NodeId)}
      (hk : Becomes (k left.root? right.root?) (p.plug (.node left d b right)) a T) :
      Becomes (do k (← Action.examine (·.child d.id .left)) (← Action.examine (·.child d.id .right)))
        (p.plug (.node left d b right)) a T :=
    Becomes.examine (fun t ht => ht.child_left) (Becomes.examine (fun t ht => ht.child_right) hk)
  cases hleft : left.root? with
  | none =>
    obtain rfl := Shape.root_eq_none.mp hleft
    exact ⟨p, .right, right, b, hstart (Becomes.pure _ _), rfl, id⟩
  | some l =>
    cases hright : right.root? with
    | none =>
      obtain rfl := Shape.root_eq_none.mp hright
      refine ⟨p, .left, left, b, hstart ?_, by simp [Shape.items], id⟩
      rw [hleft]
      exact Becomes.pure _ _
    | some r =>
      have hne : left ≠ .leaf := by
        rintro rfl
        simp at hleft
      -- With two children the node changes places with its predecessor, which has no right child.
      obtain ⟨q, x, bx, below, rfl, hq⟩ := Shape.exists_outermost .right hne
      refine ⟨q ++ ⟨x, b, .left, right⟩ :: p, .left, below, bx, hstart ?_, ?_, ?_⟩
      · rw [hleft, hright]
        refine Becomes.examine (a := x.id) (fun t ht => ht.rightmost_of_left hq hleft) ?_
        refine Becomes.examine (a := below.root?) (fun t ht => ?_) ?_
        · exact Tree.Forms.child_left (p := q ++ ⟨d, b, .left, right⟩ :: p)
            (by rw [Path.plug_append]; exact ht)
        · rw [Path.plug_append]
          exact (swap_becomes p q below right d x b bx hq).bind (Becomes.pure _ _)
      · have hafter : Path.after q = [] := Shape.beyond_eq_nil hq
        rw [Path.before_append_node, Path.after_append_node, Path.items_plug, hafter]
        simp [Shape.join, Shape.items]
      · -- The two items have changed places, which no height depends on.
        intro hbalanced
        rw [Path.balanced_plug] at hbalanced
        obtain ⟨⟨hb, hl, hr⟩, hp⟩ := hbalanced
        have hheight : (q.plug (Shape.join .right .leaf x bx below)).height =
            (q.plug (Shape.join .left below d bx .leaf)).height := Path.height_plug_congr rfl
        have hl' : (q.plug (Shape.join .left below d bx .leaf)).Balanced := by
          obtain ⟨hx, hpath⟩ := Path.balanced_plug.mp hl
          exact Path.balanced_plug.mpr ⟨hx, hpath⟩
        rw [Path.plug_append, Path.plug, Path.balanced_plug]
        simp only [Shape.height, Shape.join, Shape.Balanced] at hb hp hheight hl' ⊢
        rw [← hheight]
        exact ⟨⟨hb, hl', hr⟩, hp⟩

theorem Tree.Forms.leaning_le {t : Tree} {p : Path} {s : Shape} (h : t.Forms (p.plug s)) :
    p.leaning ≤ t.totalLeaning := by
  -- Both are sums of one weight, over the cells of the path and over those of all slots.
  let weight (c : Cell) : Nat := c.2.balance.toInt.natAbs
  have htotal : t.totalLeaning = ((cellsOf t.slots).map weight).sum := by
    have hnodes : (t.slots.toList.zipIdx.map fun p => (p.2, p.1)).map weight =
        t.slots.toList.map fun n => n.balance.toInt.natAbs := by
      rw [List.map_map]
      change t.slots.toList.zipIdx.map ((fun n : Node => n.balance.toInt.natAbs) ∘ Prod.fst) = _
      rw [← List.map_map, List.zipIdx_map_fst]
    rw [cellsOf, Multiset.map_coe, hnodes, Multiset.sum_coe]
    rfl
  have hpath (top link : Option NodeId) : p.leaning ≤ ((p.cells top link).map weight).sum := by
    clear h
    induction p generalizing link with
    | nil => exact Nat.zero_le _
    | cons f p ih =>
      have hrec := ih (some f.item.id)
      simp only [Path.leaning, Path.cells, List.map_cons, List.sum_cons, Multiset.map_add,
        Multiset.map_singleton, Multiset.sum_add, Multiset.sum_singleton] at hrec ⊢
      have hf : weight (f.item.id, Node.sided f.side f.item.version link f.sibling.root?
          (Path.parent? top p) f.balance) = f.balance.toInt.natAbs := by
        simp [weight]
      omega
  obtain ⟨rest, hrest⟩ := Multiset.le_iff_exists_add.mp h.cells
  rw [htotal, hrest, Path.cells_plug, Multiset.map_add, Multiset.map_add, Multiset.sum_add,
    Multiset.sum_add]
  have hle := hpath none s.root?
  omega

theorem Tree.release_of_cell {t : Tree} {id : NodeId} {n : Node} {rest : Multiset Cell}
    (h : cellsOf t.slots = {(id, n)} + rest) (hlive : n.balance ≠ Node.deletedBalance) :
    ∃ slots, t.release id = { t with
        slots
        retired := t.retired.push id
        binding :=
          if t.binding.node? n.version.id = some id then t.binding.erase n.version.id
          else t.binding } ∧
      cellsOf slots = {(id, n.released)} + rest := by
  have hn : t.slots[id]? = some n := mem_cellsOf.mp (by simp [h])
  have hnot : n.isDeleted = false := by simpa [Node.isDeleted] using hlive
  refine ⟨t.slots.setIfInBounds id n.released, ?_, cellsOf_set h _⟩
  simp only [Tree.release, hn, hnot]
  by_cases hbound : t.binding.node? n.version.id = some id
  · simp only [hbound, if_true]
    rfl
  · simp only [hbound, if_false]
    rfl

namespace Tree

/-- The tree `t'` holds the items `before` and `after` without the one that `t` held between them;
its slot is retired and its row is not bound any more. -/
def Loses (t : Tree) (before : List Item) (e : Item) (after : List Item) (t' : Tree) : Prop :=
  ∃ s : Shape, t'.Holds s ∧ s.items = before ++ after ∧
    t'.binding = t.binding.erase e.version.id ∧ t'.retired = t.retired.push e.id ∧
    t'.free = t.free

end Tree

/-- Unlinking a node leaves its cell beside the rest of the tree. -/
theorem unlink_effect (p : Path) (side : Side) (child : Shape) (d : Item) (b : Int8) :
    ∃ n : Node, n.version = d.version ∧ n.balance = b ∧ n.parent = p.parent? none ∧
      (p.plug (.join side child d b .leaf)).cells none =
        {(d.id, n)} + (p.cells none (some d.id) + child.cells (some d.id)) ∧
      Effect (TreeAction.replace d.id child.root?) (p.plug (.join side child d b .leaf)).root?
        ((p.plug (.join side child d b .leaf)).cells none) () (p.plug child).root?
        ({(d.id, n)} + (p.plug child).cells none) := by
  refine ⟨Node.sided side d.version child.root? none (p.parent? none) b, by simp, by simp, by simp,
    ?_, ?_⟩
  · rw [Path.cells_plug, Shape.cells_join, Shape.root_join]
    simp only [Shape.root_leaf, Shape.cells_leaf]
    abel
  · rw [Path.root_plug, Path.root_plug, Path.cells_plug, Shape.cells_join, Shape.root_join,
      Path.cells_plug]
    simp only [Shape.root_leaf, Shape.cells_leaf]
    exact (replace_effect p d.id _ (Node.sided_parent _ _ _ _ _ _) child (some d.id)).of_eq
      (by abel) (by abel)

/-- A balance that fits is not the mark of a released node. -/
theorem Leans.ne_deleted {side : Side} {b : Int8} {near far : Nat}
    (h : Leans (b * side.sign) near far) : b ≠ Node.deletedBalance := by
  rcases h with ⟨hb, -⟩ | ⟨hb, -⟩ | ⟨hb, -⟩
  · rw [Side.mul_sign_eq_zero.mp hb]
    decide
  · rw [Side.mul_sign_eq_one.mp hb]
    cases side <;> decide
  · rw [Side.mul_sign_eq_neg_one.mp hb]
    cases side <;> decide

/-- The invariant after a node has been unlinked and its slot retired. -/
theorem Tree.Holds.of_loss {t : Tree} {s T : Shape} {before after : List Item} {e : Item} {n : Node}
    {slots : Array Node} {dead : Multiset Cell} (h : t.Holds s)
    (hitems : s.items = before ++ e :: after) (hT : T.Balanced)
    (hTitems : T.items = before ++ after)
    (hslots : cellsOf slots = T.cells none + ({(e.id, n.released)} + dead))
    (hids : dead.map Prod.fst = ↑(t.retired.toList ++ t.free.toList))
    (hdead : ∀ c ∈ dead, c.2 = c.2.released) (hfits : slots.size ≤ Tree.nodeIdLimit) :
    t.Loses before e after
      ({ t with
        root := T.root?, slots, retired := t.retired.push e.id
        binding := t.binding.erase e.version.id }.updateElementCount (-1)) := by
  refine ⟨T, ⟨rfl, hT, ⟨_, hslots, ?_, ?_⟩, ?_, ?_, hfits⟩, hTitems, rfl, rfl, rfl⟩
  · simp only [Tree.updateElementCount, Multiset.map_add, Multiset.map_singleton, hids,
      Array.toList_push]
    rw [Multiset.singleton_add, Multiset.cons_coe, List.append_assoc]
    exact Multiset.coe_eq_coe.mpr List.perm_middle.symm
  · intro c hc
    rw [Multiset.mem_add, Multiset.mem_singleton] at hc
    rcases hc with rfl | hc
    · rfl
    · exact hdead c hc
  · intro row id hbound
    simp only [Tree.updateElementCount, Binding.node?_erase] at hbound
    split_ifs at hbound with hrow
    obtain ⟨e', he', heid, herow⟩ := h.bound row id hbound
    refine ⟨e', ?_, heid, herow⟩
    rw [hitems, List.mem_append, List.mem_cons] at he'
    rw [hTitems, List.mem_append]
    rcases he' with he' | rfl | he'
    · exact Or.inl he'
    · exact absurd herow.symm hrow
    · exact Or.inr he'
  · have hlength : t.slots.size ≤ Tree.nodeIdLimit := h.fits
    have hle := h.forms.length_le
    have hlimit := Tree.nodeIdLimit_lt
    simp only [Tree.updateElementCount, h.count, hTitems, hitems, List.length_append,
      List.length_cons] at hle ⊢
    omega

/-- Removing a node of a tree takes its item out and retires its slot. -/
theorem remove_loses {t : Tree} {s : Shape} {before after : List Item} {e : Item}
    (h : t.Holds s) (hitems : s.items = before ++ e :: after)
    (hbound : t.binding.node? e.version.id = some e.id) :
    ∃ t' : Tree, remove e.id t = .ok () t' ∧
      t.Loses before e after (t'.updateElementCount (-1)) := by
  have he : e ∈ s.items := by
    rw [hitems]
    simp
  obtain ⟨p, left, b, right, rfl⟩ := Shape.exists_path_of_mem .left he
  obtain ⟨p', side, child, b', hisolate, hitems', hbalanced'⟩ := isolate_becomes p left right e b
  obtain ⟨n, hversion, hnbalance, hparent, hcells', hunlink⟩ := unlink_effect p' side child e b'
  obtain ⟨dead, hcells, hids, hdead⟩ := h.dead
  obtain ⟨hjoin, hpath⟩ := Path.balanced_plug.mp (hbalanced' h.balanced)
  rw [Shape.balanced_join] at hjoin
  obtain ⟨slots₁, hrun₁, hslots₁⟩ := hisolate t dead h.root hcells
  let t₁ : Tree := { t with root := (p'.plug (.join side child e b' .leaf)).root?, slots := slots₁ }
  have hforms₁ : t₁.Forms (p'.plug (.join side child e b' .leaf)) :=
    ⟨rfl, hslots₁ ▸ Multiset.le_add_right _ _⟩
  obtain ⟨slots₂, hrun₂, hslots₂⟩ := hunlink t₁ dead rfl hslots₁
  let t₂ : Tree := { t with root := (p'.plug child).root?, slots := slots₂ }
  have hparent₂ : t₂.parent e.id = .ok (p'.parent? none) := by
    rw [← hparent]
    exact Tree.parent_of_cell (by simp [t₂, hslots₂])
  rw [add_assoc] at hslots₂
  obtain ⟨slots₃, hrelease, hslots₃⟩ := Tree.release_of_cell (t := t₂) hslots₂
    (hnbalance ▸ hjoin.1.ne_deleted)
  let t₃ : Tree := { t₂ with
    slots := slots₃, retired := t.retired.push e.id, binding := t.binding.erase e.version.id }
  have ht₃ : t₂.release e.id = t₃ := by
    rw [hrelease, hversion]
    simp only [t₂, hbound, if_true, t₃]
  have hcells₃ : cellsOf slots₃ = (p'.plug child).cells none + ({(e.id, n.released)} + dead) := by
    rw [hslots₃, add_left_comm]
  have hforms₃ : t₃.Forms (p'.plug child) := ⟨rfl, hcells₃ ▸ Multiset.le_add_right _ _⟩
  have hsteps : p'.leaning < t₃.totalLeaning + 2 := by
    have hle := hforms₃.leaning_le
    omega
  rw [Shape.height_join, Shape.height, Nat.max_zero, add_comm] at hpath
  obtain ⟨T, hT, hTitems, hretrace⟩ := retrace_shrink_becomes hsteps hjoin.2.1 rfl hpath
  obtain ⟨slots₄, hrun₄, hslots₄⟩ := hretrace t₃ _ rfl hcells₃
  have hsplit : before = p.before ++ left.items ∧ after = right.items ++ p.after := by
    apply h.forms.split_unique .right hitems
    change (p.plug (.node left e b right)).items = _
    rw [Path.items_plug]
    simp [Shape.items]
  have hTitems' : T.items = before ++ after := by
    rw [hTitems, Path.items_plug, hitems', hsplit.1, hsplit.2]
    simp
  have hsize : slots₄.size ≤ Tree.nodeIdLimit := by
    have hlen₄ : slots₄.size = t.slots.size := by
      rw [← card_cellsOf, ← card_cellsOf, hslots₄, hcells]
      simp only [Multiset.card_add, Shape.card_cells, Multiset.card_singleton, hTitems', hitems,
        List.length_append, List.length_cons]
      omega
    exact hlen₄ ▸ h.fits
  refine ⟨_, ?_, h.of_loss hitems hT hTitems' hslots₄ hids hdead hsize⟩
  have hsideOf : Action.examine (·.sideOf e.id) t₁ = .ok p'.side t₁ :=
    Action.examine_of_ok (hforms₁.side_of (Shape.root_join _ _ _ _ _))
  have hparentOf : Action.examine (·.parent e.id) t₂ = .ok (p'.parent? none) t₂ :=
    Action.examine_of_ok hparent₂
  have hreleased : release e.id t₂ = .ok () t₃ := by
    rw [← ht₃]
    rfl
  simp only [remove]
  apply (Action.bind_of_ok hrun₁).trans
  apply (Action.bind_of_ok hsideOf).trans
  apply (Action.bind_of_ok hrun₂).trans
  apply (Action.bind_of_ok hparentOf).trans
  apply (Action.bind_of_ok hreleased).trans
  exact hrun₄

/-- Removing a bound row takes its item out of the tree. -/
theorem remove_row_loses {t : Tree} {s : Shape} {before after : List Item} {e : Item}
    (h : t.Holds s) (hitems : s.items = before ++ e :: after)
    (hbound : t.binding.node? e.version.id = some e.id) :
    ∃ t' : Tree, removeRow e.version.id t = .ok true t' ∧ t.Loses before e after t' := by
  obtain ⟨t', hrun, hloses⟩ := remove_loses h hitems hbound
  refine ⟨_, ?_, hloses⟩
  have hget : (get : TreeAction Tree) t = .ok t t := rfl
  simp only [removeRow]
  rw [Action.bind_of_ok hget]
  simp only [hbound]
  rw [Action.bind_of_ok hrun]
  rfl

theorem remove_row_of_unbound {t : Tree} {row : RowId} (h : t.binding.node? row = none) :
    removeRow row t = .ok false t := by
  have hget : (get : TreeAction Tree) t = .ok t t := rfl
  simp only [removeRow]
  rw [Action.bind_of_ok hget]
  simp only [h]
  rfl

end VersionedIndex
