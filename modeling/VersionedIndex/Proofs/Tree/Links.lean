import VersionedIndex.Proofs.Tree.Shape

namespace VersionedIndex

namespace Shape

theorem nodup_ids_of_le {slots : Array Node} {pre : Multiset Cell} (h : pre ≤ cellsOf slots) :
    (pre.map Prod.fst).Nodup :=
  Multiset.nodup_of_le (Multiset.map_le_map h) (nodup_ids_cellsOf slots)

theorem root_ne_of_cells {slots : Array Node} {s : Shape} {id : NodeId} {n : Node}
    {parent : Option NodeId} (h : {(id, n)} + s.cells parent ≤ cellsOf slots) :
    s.root? ≠ some id := by
  intro hs
  have hnodup := nodup_ids_of_le h
  rw [Multiset.map_add, Multiset.map_singleton, Multiset.singleton_add,
    Multiset.nodup_cons] at hnodup
  cases s with
  | leaf => simp at hs
  | node l e b r =>
    obtain rfl : e.id = id := Option.some.inj hs
    exact hnodup.1 (by simp [cells])

end Shape

/-- The side on which a node hangs below its parent is found on the parent's left link. -/
theorem Tree.side_below_of_cell {t : Tree} {id child : NodeId} {side : Side} {v : Version}
    {far parent : Option NodeId} {b : Int8}
    (h : (id, Node.sided side v (some child) far parent b) ∈ cellsOf t.slots)
    (hfar : far ≠ some child) : t.sideBelow id child = .ok side := by
  simp only [Tree.sideBelow, Tree.child_of_cell h]
  cases side with
  | left => exact congrArg Except.ok (if_pos rfl)
  | right => exact congrArg Except.ok (if_neg hfar)

theorem set_parent_of_shape {s : Shape} {c : NodeId} (hc : s.root? = some c)
    (parent top : Option NodeId) (r : Option NodeId) :
    Effect (TreeAction.setParent c parent) r (s.cells top) () r (s.cells parent) := by
  cases s with
  | leaf => simp at hc
  | node l e b rt =>
    obtain rfl : e.id = c := Option.some.inj hc
    exact ((set_parent_effect e.id parent _ r).frame
      (l.cells (some e.id) + rt.cells (some e.id))).of_eq (add_assoc _ _ _) (add_assoc _ _ _).symm

theorem set_child_effect (id : NodeId) (side : Side) (n : Node) (s : Shape)
    (top r : Option NodeId) :
    Effect (TreeAction.setChild id side s.root?) r ({(id, n)} + s.cells top) () r
      ({(id, n.withChild s.root? side)} + s.cells (some id)) := by
  apply (set_link_effect id side s.root? n r).step (s.cells top) rfl
  cases hs : s.root? with
  | none =>
    rw [Shape.root_eq_none] at hs
    subst hs
    exact Effect.pure () r _
  | some c =>
    exact ((set_parent_of_shape hs (some id) top r).frame _).of_eq (add_comm _ _) (add_comm _ _)

/-- A node of one item is exchanged for another tree at the lower end of a path; the node keeps its
own links. -/
theorem replace_effect (p : Path) (x : NodeId) (n : Node) (hn : n.parent = p.parent? none)
    (s : Shape) (top : Option NodeId) :
    Effect (TreeAction.replace x s.root?) (p.root? (some x))
      ({(x, n)} + p.cells none (some x) + s.cells top) () (p.root? s.root?)
      ({(x, n)} + p.cells none s.root? + s.cells (p.parent? none)) := by
  refine Effect.examine (a := n.parent) (fun t _ ht => Tree.parent_of_cell (n := n) ?_) ?_
  · exact Multiset.mem_of_le ht (by simp)
  · rw [hn]
    cases p with
    | nil =>
      change Effect _ (some x) ({(x, n)} + 0 + s.cells top) () s.root? ({(x, n)} + 0 + s.cells none)
      cases hs : s.root? with
      | none =>
        rw [Shape.root_eq_none] at hs
        subst hs
        exact set_root_effect _ _ _
      | some c =>
        exact (set_parent_of_shape hs none top _).step _ (add_comm _ _)
          ((set_root_effect _ _ _).of_eq (add_comm _ _) rfl)
    | cons f p =>
      let link (c : Option NodeId) : Node := Node.sided f.side f.item.version c f.sibling.root?
        (Path.parent? none p) f.balance
      let others := f.sibling.cells (some f.item.id) + Path.cells none (some f.item.id) p
      have hcells (c : Option NodeId) :
          Path.cells none c (f :: p) = {(f.item.id, link c)} + others := add_assoc _ _ _
      simp only [hcells]
      refine Effect.examine (a := f.side) (fun t _ ht => ?_) ?_
      · have hcell : (f.item.id, link (some x)) ∈ cellsOf t.slots :=
          Multiset.mem_of_le ht (by simp)
        apply Tree.side_below_of_cell hcell
        have hsub : {(x, n)} + ({(f.item.id, link (some x))} + others) + s.cells top =
            ({(x, n)} + f.sibling.cells (some f.item.id)) +
              ({(f.item.id, link (some x))} + Path.cells none (some f.item.id) p +
                s.cells top) := by
          simp only [others]
          abel
        rw [hsub] at ht
        exact Shape.root_ne_of_cells (le_trans (Multiset.le_add_right _ _) ht)
      · have hset := (set_child_effect f.item.id f.side (link (some x)) s top
          (Path.root? (some x) (f :: p))).frame ({(x, n)} + others)
        have hlink : (link (some x)).withChild s.root? f.side = link s.root? :=
          Node.sided_with_near _ _ _ _ _ _ _
        rw [hlink] at hset
        refine hset.of_eq ?_ ?_
        · abel
        · change _ = _ + s.cells (some f.item.id)
          abel

structure Tree.Forms (t : Tree) (s : Shape) : Prop where
  root : t.root = s.root?
  cells : s.cells none ≤ cellsOf t.slots

/-- `act` turns a tree that forms `s` into one that forms `s'`, returns `a`, and changes nothing
beside the linked nodes and the root. -/
def Becomes {α : Type} (act : TreeAction α) (s : Shape) (a : α) (s' : Shape) : Prop :=
  Effect act s.root? (s.cells none) a s'.root? (s'.cells none)

namespace Tree.Forms

section Items

variable {t : Tree} {s : Shape}

theorem nodup_ids (h : t.Forms s) : (s.items.map (·.id)).Nodup := by
  have hnodup := Shape.nodup_ids_of_le h.cells
  rwa [Shape.ids_cells] at hnodup

theorem length_le (h : t.Forms s) : s.items.length ≤ t.slots.size := by
  rw [← card_cellsOf, ← s.card_cells none]
  exact Multiset.card_le_card h.cells

theorem item_unique (h : t.Forms s) {a b : Item} (ha : a ∈ s.items) (hb : b ∈ s.items)
    (hid : a.id = b.id) : a = b :=
  List.inj_on_of_nodup_map h.nodup_ids ha hb hid

end Items

variable {t : Tree} {p : Path} {side : Side} {near far : Shape} {e : Item} {b : Int8}

theorem cell (h : t.Forms (p.plug (.join side near e b far))) :
    (e.id, Node.sided side e.version near.root? far.root? (p.parent? none) b) ∈
      cellsOf t.slots := by
  apply Multiset.mem_of_le h.cells
  rw [Path.cells_plug, Shape.cells_join]
  simp

theorem node (h : t.Forms (p.plug (.join side near e b far))) :
    t.node e.id = .ok (Node.sided side e.version near.root? far.root? (p.parent? none) b) :=
  Tree.node_of_cell h.cell

theorem balance (h : t.Forms (p.plug (.join side near e b far))) : t.balance e.id = .ok b := by
  rw [Tree.balance_of_cell h.cell, Node.sided_balance]

theorem parent (h : t.Forms (p.plug (.join side near e b far))) :
    t.parent e.id = .ok (p.parent? none) := by
  rw [Tree.parent_of_cell h.cell, Node.sided_parent]

theorem child_near (h : t.Forms (p.plug (.join side near e b far))) :
    t.child e.id side = .ok near.root? := by
  rw [Tree.child_of_cell h.cell, Node.sided_near]

theorem child_far (h : t.Forms (p.plug (.join side near e b far))) :
    t.child e.id side.flip = .ok far.root? := by
  rw [Tree.child_of_cell h.cell, Node.sided_far]

theorem child_left {left right : Shape} (h : t.Forms (p.plug (.node left e b right))) :
    t.child e.id .left = .ok left.root? := by
  rw [Shape.node_eq_join] at h
  exact h.child_near

theorem child_right {left right : Shape} (h : t.Forms (p.plug (.node left e b right))) :
    t.child e.id .right = .ok right.root? := by
  rw [Shape.node_eq_join] at h
  exact h.child_far

theorem sibling_root_ne {f : Frame} {s : Shape} {x : NodeId}
    (h : t.Forms (Path.plug (f :: p) s)) (hs : s.root? = some x) : f.sibling.root? ≠ some x := by
  have hcells := h.cells
  cases s with
  | leaf => simp at hs
  | node l e b r =>
    obtain rfl : e.id = x := Option.some.inj hs
    have hsplit : (Path.plug (f :: p) (.node l e b r)).cells none =
        {(e.id, ⟨e.version, l.root?, r.root?, some f.item.id, b⟩)} +
          f.sibling.cells (some f.item.id) +
        ({(f.item.id, Node.sided f.side f.item.version (some e.id) f.sibling.root?
          (Path.parent? none p) f.balance)} + l.cells (some e.id) + r.cells (some e.id) +
          Path.cells none (some f.item.id) p) := by
      rw [Path.cells_plug, Path.cells, Shape.cells]
      simp only [Path.parent?, Shape.root_node]
      abel
    rw [hsplit] at hcells
    exact Shape.root_ne_of_cells (le_trans (Multiset.le_add_right _ _) hcells)

end Tree.Forms

def Path.side : Path → Side
  | [] => .left
  | f :: _ => f.side

theorem Tree.Forms.parent_of {t : Tree} {p : Path} {s : Shape} {x : NodeId}
    (h : t.Forms (p.plug s)) (hs : s.root? = some x) : t.parent x = .ok (p.parent? none) := by
  obtain rfl | ⟨near, e, b, far, rfl⟩ := s.eq_leaf_or_join .left
  · simp at hs
  · obtain rfl : e.id = x := by simpa using hs
    exact h.parent

theorem Tree.Forms.side_of {t : Tree} {p : Path} {s : Shape} {x : NodeId}
    (h : t.Forms (p.plug s)) (hs : s.root? = some x) : t.sideOf x = .ok p.side := by
  obtain rfl | ⟨near, e, b, far, rfl⟩ := s.eq_leaf_or_join .left
  · simp at hs
  · obtain rfl : e.id = x := by simpa using hs
    simp only [Tree.sideOf, h.parent]
    cases p with
    | nil => rfl
    | cons f p =>
      have hcell := Tree.Forms.cell (p := p) (e := f.item) h
      rw [Shape.root_join] at hcell
      exact Tree.side_below_of_cell hcell (h.sibling_root_ne hs)

namespace Becomes

variable {α β : Type} {act : TreeAction α} {s s' s'' : Shape} {a : α}

theorem pure (a : α) (s : Shape) : Becomes (Pure.pure a) s a s := Effect.pure a _ _

theorem bind {f : α → TreeAction β} {b : β} (h : Becomes act s a s')
    (hf : Becomes (f a) s' b s'') : Becomes (act >>= f) s b s'' :=
  Effect.bind h hf

theorem examine {read : Tree → Except Error α} {f : α → TreeAction β} {b : β}
    (hread : ∀ t : Tree, t.Forms s → read t = .ok a) (hf : Becomes (f a) s b s') :
    Becomes (Action.examine read >>= f) s b s' :=
  Effect.examine (fun t hr ht => hread t ⟨hr, ht⟩) hf

end Becomes

section Rotations

variable (p : Path) (side : Side)

theorem set_balance_becomes (near : Shape) (e : Item) (b b' : Int8) (far : Shape) :
    Becomes (TreeAction.setBalance e.id b') (p.plug (.join side near e b far)) ()
      (p.plug (.join side near e b' far)) := by
  simp only [Becomes, Path.root_plug, Path.cells_plug, Shape.cells_join, Shape.root_join]
  have hset := (set_balance_effect e.id b'
    (Node.sided side e.version near.root? far.root? (p.parent? none) b) (p.root? (some e.id))).frame
      (near.cells (some e.id) + far.cells (some e.id) + p.cells none (some e.id))
  rw [Node.sided_with_balance] at hset
  exact hset.of_eq (by abel) (by abel)

theorem set_balance_near_becomes (near inner far : Shape) (x y : Item) (b bx b' : Int8) :
    Becomes (TreeAction.setBalance x.id b')
      (p.plug (.join side (.join side near x bx inner) y b far)) ()
      (p.plug (.join side (.join side near x b' inner) y b far)) :=
  set_balance_becomes (⟨y, b, side, far⟩ :: p) side near x bx b' inner

theorem set_balance_far_becomes (near inner far : Shape) (x y : Item) (b bx b' : Int8) :
    Becomes (TreeAction.setBalance x.id b')
      (p.plug (.join side near y b (.join side inner x bx far))) ()
      (p.plug (.join side near y b (.join side inner x b' far))) := by
  have h := set_balance_becomes (⟨y, b, side.flip, near⟩ :: p) side inner x bx b' far
  simpa only [Path.plug, Shape.join_flip] using h

/-- A single rotation raises `y`, the child of `x` on `side`; the tree between the two changes its
parent. -/
theorem rotate_single_becomes (outer inner far : Shape) (x y : Item) (bx b : Int8) :
    Becomes (TreeAction.rotateSingle x.id side y.id)
      (p.plug (.join side (.join side outer y b inner) x bx far)) ()
      (p.plug (.join side outer y b (.join side inner x bx far))) := by
  let nodeX (near parent : Option NodeId) : Node :=
    Node.sided side x.version near far.root? parent bx
  let nodeY (far parent : Option NodeId) : Node :=
    Node.sided side y.version outer.root? far parent b
  let top := p.parent? none
  simp only [Becomes, Path.root_plug, Path.cells_plug, Shape.cells_join, Shape.root_join]
  have hrep := replace_effect p x.id (nodeX (some y.id) top) (Node.sided_parent _ _ _ _ _ _)
    (.join side outer y b inner) (some x.id)
  simp only [Shape.root_join, Shape.cells_join] at hrep
  refine hrep.step (far.cells (some x.id)) ?_ ?_
  · simp only [nodeX]
    abel
  refine Effect.examine (a := inner.root?) (fun t _ ht => ?_) ?_
  · rw [Tree.child_of_cell (n := nodeY inner.root? top) (Multiset.mem_of_le ht (by simp [nodeY, top])),
      Node.sided_far]
  refine (set_child_effect x.id side (nodeX (some y.id) top) inner (some y.id) _).step
    ({(y.id, nodeY inner.root? top)} + outer.cells (some y.id) + far.cells (some x.id) +
      p.cells none (some y.id)) ?_ ?_
  · simp only [nodeX, nodeY, top]
    abel
  have hset := (set_child_effect y.id side.flip (nodeY inner.root? top) (.join side inner x bx far)
    top (p.root? (some y.id))).frame (outer.cells (some y.id) + p.cells none (some y.id))
  simp only [Shape.root_join, Shape.cells_join] at hset
  refine hset.of_eq ?_ ?_
  · simp only [nodeX, nodeY, top, Node.sided_with_near]
    abel
  · simp only [nodeY, top, Node.sided_with_far]
    abel

/-- A double rotation raises `z`, the inner child of the child `y` of `x` on `side`, and deals out
its two subtrees. The new balances follow from the balance of `z`. -/
theorem rotate_double_becomes (outer near' far' far : Shape) (x y z : Item) (bx b bz : Int8) :
    Becomes (TreeAction.rotateDouble x.id side y.id)
      (p.plug (.join side (.join side outer y b (.join side near' z bz far')) x bx far)) z.id
      (p.plug (.join side (.join side outer y (if bz = side.sign then -side.sign else 0) near') z 0
        (.join side far' x (if bz = -side.sign then side.sign else 0) far))) := by
  let nodeX (near parent : Option NodeId) : Node :=
    Node.sided side x.version near far.root? parent bx
  let nodeY (far parent : Option NodeId) : Node :=
    Node.sided side y.version outer.root? far parent b
  let nodeZ (near far parent : Option NodeId) : Node := Node.sided side z.version near far parent bz
  let top := p.parent? none
  refine Becomes.examine (a := z.id) (fun t ht => ?_) ?_
  · have hy := Tree.Forms.cell (p := ⟨x, bx, side, far⟩ :: p) (e := y) ht
    rw [Tree.existing_child_of_cell hy (c := z.id) (by simp)]
  -- First `z` takes the place of `x`; the links of `x` and `y` are stale for now, so the linked nodes
  -- form no tree and are listed as cells.
  refine Effect.through () (p.root? (some z.id))
    ({(x.id, nodeX (some y.id) top)} + {(y.id, nodeY (some z.id) (some x.id))} +
      {(z.id, nodeZ near'.root? far'.root? top)} + outer.cells (some y.id) +
      near'.cells (some z.id) + far'.cells (some z.id) + far.cells (some x.id) +
      p.cells none (some z.id)) ?_ ?_
  · simp only [Path.root_plug, Path.cells_plug, Shape.cells_join, Shape.root_join]
    have hrep := (replace_effect p x.id (nodeX (some y.id) top) (Node.sided_parent _ _ _ _ _ _)
      (.join side near' z bz far') (some y.id)).frame
        ({(y.id, nodeY (some z.id) (some x.id))} + outer.cells (some y.id) + far.cells (some x.id))
    simp only [Shape.root_join, Shape.cells_join] at hrep
    refine hrep.of_eq ?_ ?_
    · simp only [nodeX, nodeY]
      abel
    · simp only [nodeX, nodeY, nodeZ]
      abel
  refine Effect.examine (a := near'.root?) (fun t _ ht => ?_) ?_
  · rw [Tree.child_of_cell (n := nodeZ near'.root? far'.root? top)
      (Multiset.mem_of_le ht (by simp [nodeZ])), Node.sided_near]
  refine (set_child_effect y.id side.flip (nodeY (some z.id) (some x.id)) near' (some z.id) _).step
    ({(x.id, nodeX (some y.id) top)} + {(z.id, nodeZ near'.root? far'.root? top)} +
      outer.cells (some y.id) + far'.cells (some z.id) + far.cells (some x.id) +
      p.cells none (some z.id)) (by abel) ?_
  refine Effect.through () (p.root? (some z.id))
    ({(x.id, nodeX (some y.id) top)} + {(y.id, nodeY near'.root? (some z.id))} +
      {(z.id, nodeZ (some y.id) far'.root? top)} + outer.cells (some y.id) +
      near'.cells (some y.id) + far'.cells (some z.id) + far.cells (some x.id) +
      p.cells none (some z.id)) ?_ ?_
  · have hset := (set_child_effect z.id side (nodeZ near'.root? far'.root? top)
      (.join side outer y b near') (some x.id) (p.root? (some z.id))).frame
        ({(x.id, nodeX (some y.id) top)} + far'.cells (some z.id) + far.cells (some x.id) +
          p.cells none (some z.id))
    simp only [Shape.root_join, Shape.cells_join] at hset
    refine hset.of_eq ?_ ?_
    · simp only [nodeY, Node.sided_with_far]
      abel
    · simp only [nodeY, nodeZ, Node.sided_with_near]
      abel
  refine Effect.examine (a := far'.root?) (fun t _ ht => ?_) ?_
  · rw [Tree.child_of_cell (n := nodeZ (some y.id) far'.root? top)
      (Multiset.mem_of_le ht (by simp [nodeZ])), Node.sided_far]
  refine (set_child_effect x.id side (nodeX (some y.id) top) far' (some z.id) _).step
    ({(y.id, nodeY near'.root? (some z.id))} + {(z.id, nodeZ (some y.id) far'.root? top)} +
      outer.cells (some y.id) + near'.cells (some y.id) + far.cells (some x.id) +
      p.cells none (some z.id)) (by abel) ?_
  -- From here on the tree is whole again and only balances change.
  let rotated := p.plug (.join side (.join side outer y b near') z bz (.join side far' x bx far))
  refine Effect.through () rotated.root? (rotated.cells none) ?_ ?_
  · simp only [rotated, Path.root_plug, Path.cells_plug, Shape.cells_join, Shape.root_join]
    have hset := (set_child_effect z.id side.flip (nodeZ (some y.id) far'.root? top)
      (.join side far' x bx far) top (p.root? (some z.id))).frame
        ({(y.id, nodeY near'.root? (some z.id))} + outer.cells (some y.id) +
          near'.cells (some y.id) + p.cells none (some z.id))
    simp only [Shape.root_join, Shape.cells_join] at hset
    refine hset.of_eq ?_ ?_
    · simp only [nodeX, Node.sided_with_near]
      abel
    · simp only [nodeY, nodeZ, Node.sided_with_far]
      abel
  refine Becomes.examine (a := bz) (fun t ht => ht.balance) ?_
  apply (set_balance_far_becomes p side _ far' far x z bz bx _).bind
  apply (set_balance_near_becomes p side outer near' _ y z bz b _).bind
  exact (set_balance_becomes p side _ z bz 0 _).bind (Becomes.pure _ _)

end Rotations

end VersionedIndex
