import VersionedIndex.Proofs.Tree.Cells

/-! Shapes: the trees that linked nodes form, written out. A path is the way from a node up to the
root with all that hangs off it, and both sides of a node are written alike. -/

namespace VersionedIndex

structure Item where
  id : NodeId
  version : Version
deriving DecidableEq

inductive Shape where
  | leaf
  | node (left : Shape) (item : Item) (balance : Int8) (right : Shape)

def Node.sided (side : Side) (version : Version) (near far parent : Option NodeId)
    (balance : Int8) : Node :=
  match side with
  | .left => ⟨version, near, far, parent, balance⟩
  | .right => ⟨version, far, near, parent, balance⟩

namespace Node

variable (side : Side) (v : Version) (near far parent link : Option NodeId) (b b' : Int8)

@[simp] theorem sided_near : (sided side v near far parent b).child side = near := by
  cases side <;> rfl

@[simp] theorem sided_far : (sided side v near far parent b).child side.flip = far := by
  cases side <;> rfl

@[simp] theorem sided_parent : (sided side v near far parent b).parent = parent := by
  cases side <;> rfl

@[simp] theorem sided_balance : (sided side v near far parent b).balance = b := by
  cases side <;> rfl

@[simp] theorem sided_version : (sided side v near far parent b).version = v := by
  cases side <;> rfl

@[simp] theorem sided_with_near :
    (sided side v near far parent b).withChild link side = sided side v link far parent b := by
  cases side <;> rfl

@[simp] theorem sided_with_far :
    (sided side v near far parent b).withChild link side.flip = sided side v near link parent b := by
  cases side <;> rfl

@[simp] theorem sided_with_parent :
    { sided side v near far parent b with parent := link } = sided side v near far link b := by
  cases side <;> rfl

@[simp] theorem sided_with_balance :
    { sided side v near far parent b with balance := b' } = sided side v near far parent b' := by
  cases side <;> rfl

end Node

namespace Shape

def root? : Shape → Option NodeId
  | leaf => none
  | node _ e _ _ => some e.id

def items : Shape → List Item
  | leaf => []
  | node l e _ r => l.items ++ e :: r.items

def height : Shape → Nat
  | leaf => 0
  | node l _ _ r => 1 + max l.height r.height

def cells : Option NodeId → Shape → Multiset Cell
  | _, leaf => 0
  | parent, node l e b r =>
    {(e.id, ⟨e.version, l.root?, r.root?, parent, b⟩)} + l.cells (some e.id) + r.cells (some e.id)

def join (side : Side) (near : Shape) (e : Item) (b : Int8) (far : Shape) : Shape :=
  match side with
  | .left => node near e b far
  | .right => node far e b near

def itemsToward (side : Side) (s : Shape) : List Item :=
  match side with
  | .left => s.items.reverse
  | .right => s.items

variable (side : Side) (near far : Shape) (e : Item) (b : Int8)

@[simp] theorem root_leaf : leaf.root? = none := rfl

@[simp] theorem root_node : (node near e b far).root? = some e.id := rfl

@[simp] theorem root_join : (join side near e b far).root? = some e.id := by cases side <;> rfl

theorem join_flip : join side.flip near e b far = join side far e b near := by cases side <;> rfl

theorem node_eq_join : node near e b far = join .left near e b far := rfl

/-- Each tree is empty or has a near and a far side. -/
theorem eq_leaf_or_join (s : Shape) :
    s = leaf ∨ ∃ near e b far, s = join side near e b far := by
  cases s with
  | leaf => exact Or.inl rfl
  | node l e b r =>
    cases side with
    | left => exact Or.inr ⟨l, e, b, r, rfl⟩
    | right => exact Or.inr ⟨r, e, b, l, rfl⟩

theorem root_eq_none {s : Shape} : s.root? = none ↔ s = leaf := by
  cases s <;> simp

theorem height_join : (join side near e b far).height = 1 + max near.height far.height := by
  cases side with
  | left => rfl
  | right => exact congrArg (1 + ·) (max_comm _ _)

theorem height_eq_zero {s : Shape} : s.height = 0 ↔ s = leaf := by
  cases s with
  | leaf => simp [height]
  | node l e b r => simp only [height, reduceCtorEq, iff_false]; omega

@[simp] theorem cells_leaf (parent : Option NodeId) : leaf.cells parent = 0 := rfl

theorem cells_join (parent : Option NodeId) :
    (join side near e b far).cells parent =
      {(e.id, Node.sided side e.version near.root? far.root? parent b)} +
        near.cells (some e.id) + far.cells (some e.id) := by
  cases side with
  | left => rfl
  | right => exact add_right_comm _ _ _

theorem items_toward_join :
    (join side near e b far).itemsToward side =
      far.itemsToward side ++ e :: near.itemsToward side := by
  cases side with
  | left => simp [join, itemsToward, items]
  | right => rfl

theorem items_toward_join_flip :
    (join side near e b far).itemsToward side.flip =
      near.itemsToward side.flip ++ e :: far.itemsToward side.flip := by
  have h := items_toward_join side.flip far near e b
  rwa [join_flip] at h

theorem items_toward_flip (s : Shape) : s.itemsToward side.flip = (s.itemsToward side).reverse := by
  cases side with
  | left => exact (List.reverse_reverse _).symm
  | right => rfl

theorem card_cells (s : Shape) (parent : Option NodeId) :
    (s.cells parent).card = s.items.length := by
  induction s generalizing parent with
  | leaf => rfl
  | node l e b r ihl ihr =>
    simp only [cells, items, Multiset.card_add, Multiset.card_singleton, List.length_append,
      List.length_cons, ihl, ihr]
    omega

theorem height_le_length (s : Shape) : s.height ≤ s.items.length := by
  induction s with
  | leaf => exact le_rfl
  | node l e b r ihl ihr =>
    simp only [height, items, List.length_append, List.length_cons]
    omega

theorem ids_cells (s : Shape) (parent : Option NodeId) :
    (s.cells parent).map Prod.fst = ↑(s.items.map (·.id)) := by
  induction s generalizing parent with
  | leaf => rfl
  | node l e b r ihl ihr =>
    simp only [cells, items, Multiset.map_add, Multiset.map_singleton, ihl, ihr, List.map_append,
      List.map_cons]
    rw [← Multiset.coe_add, ← Multiset.cons_coe, Multiset.singleton_add, Multiset.cons_add,
      Multiset.add_cons]

end Shape

structure Frame where
  item : Item
  balance : Int8
  side : Side
  sibling : Shape

abbrev Path : Type := List Frame

namespace Path

def plug : Path → Shape → Shape
  | [], s => s
  | f :: p, s => plug p (Shape.join f.side s f.item f.balance f.sibling)

def parent? (top : Option NodeId) : Path → Option NodeId
  | [] => top
  | f :: _ => some f.item.id

def root? (link : Option NodeId) : Path → Option NodeId
  | [] => link
  | f :: p => root? (some f.item.id) p

def cells (top link : Option NodeId) : Path → Multiset Cell
  | [] => 0
  | f :: p =>
    {(f.item.id, Node.sided f.side f.item.version link f.sibling.root? (parent? top p) f.balance)} +
      f.sibling.cells (some f.item.id) + cells top (some f.item.id) p

def beyond (side : Side) : Path → List Item
  | [] => []
  | f :: p =>
    if f.side = side then beyond side p
    else f.item :: f.sibling.itemsToward side ++ beyond side p

def before (p : Path) : List Item := (p.beyond .left).reverse

def after (p : Path) : List Item := p.beyond .right

theorem plug_append (p q : Path) (s : Shape) : plug (p ++ q) s = plug q (plug p s) := by
  induction p generalizing s with
  | nil => rfl
  | cons f p ih => exact ih _

theorem root_plug (p : Path) (s : Shape) : (p.plug s).root? = p.root? s.root? := by
  induction p generalizing s with
  | nil => rfl
  | cons f p ih => rw [plug, ih, Shape.root_join]; rfl

/-- The cells of a whole tree are those of the part at the end of a path and those of the path. -/
theorem cells_plug (p : Path) (s : Shape) (top : Option NodeId) :
    (p.plug s).cells top = s.cells (p.parent? top) + p.cells top s.root? := by
  induction p generalizing s with
  | nil => exact (add_zero _).symm
  | cons f p ih =>
    rw [plug, ih, Shape.cells_join, Shape.root_join]
    change _ = s.cells (some f.item.id) + (_ + _ + cells top (some f.item.id) p)
    abel

theorem items_toward_plug (side : Side) (p : Path) (s : Shape) :
    (p.plug s).itemsToward side =
      (p.beyond side.flip).reverse ++ s.itemsToward side ++ p.beyond side := by
  induction p generalizing s with
  | nil => simp [plug, beyond]
  | cons f p ih =>
    rw [plug, ih]
    by_cases h : f.side = side
    · have hne : f.side ≠ side.flip := by rw [h]; cases side <;> decide
      subst h
      rw [Shape.items_toward_join]
      simp [beyond, hne, Shape.items_toward_flip]
    · have he : f.side = side.flip := by revert h; cases f.side <;> cases side <;> decide
      have hs : side = f.side.flip := by rw [he, Side.flip_flip]
      subst hs
      rw [Shape.items_toward_join_flip]
      simp [beyond, h]

theorem items_plug (p : Path) (s : Shape) :
    (p.plug s).items = p.before ++ s.items ++ p.after :=
  items_toward_plug .right p s

theorem items_plug_congr {p : Path} {s s' : Shape} (h : s.items = s'.items) :
    (p.plug s).items = (p.plug s').items := by
  rw [items_plug, items_plug, h]

/-- Each step of a path is a node of the whole tree. -/
theorem length_le_items (p : Path) (s : Shape) : p.length ≤ (p.plug s).items.length := by
  induction p generalizing s with
  | nil => exact Nat.zero_le _
  | cons f p ih =>
    have h := ih .leaf
    have hjoin : (Shape.join f.side s f.item f.balance f.sibling).items ≠ [] := by
      cases f.side <;> simp [Shape.join, Shape.items]
    have hpos := List.length_pos_iff.mpr hjoin
    simp only [items_plug, Shape.items, List.append_nil, List.length_append] at h
    simp only [plug, items_plug, List.length_append, List.length_cons]
    omega

theorem mem_items_plug {p : Path} {f : Frame} (h : f ∈ p) (s : Shape) :
    f.item ∈ (p.plug s).items := by
  induction p generalizing s with
  | nil => simp at h
  | cons g p ih =>
    rcases List.mem_cons.mp h with rfl | h
    · rw [plug, items_plug]
      cases f.side <;> simp [Shape.join, Shape.items]
    · exact ih h _

theorem plug_snoc (p : Path) (f : Frame) (s : Shape) :
    plug (p ++ [f]) s = Shape.join f.side (plug p s) f.item f.balance f.sibling :=
  plug_append p [f] s

end Path

end VersionedIndex
