import Mathlib.Data.Nat.Fib.Basic
import Mathlib.Data.Set.Card
import VersionedIndex.Proofs.Tree.Removal
import VersionedIndex.Proofs.Tree.Growth

namespace VersionedIndex

namespace Tree

def nodeAt? (t : Tree) : List Side → Option NodeId
  | [] => t.root
  | side :: way => do
    let n ← t.slots[← nodeAt? t way]?
    n.child side

def Linked (t : Tree) (id : NodeId) : Prop := ∃ way, t.nodeAt? way = some id

/-- The links, balances and the count of a tree agree with each other. A node that is not marked
deleted is linked, and by one way only. -/
structure WellFormed (t : Tree) : Prop where
  root : ∀ id, t.root = some id → t.parent id = .ok none
  answered : ∀ id side c, t.Linked id → t.child id side = .ok (some c) → t.parent c = .ok (some id)
  live : ∀ id, t.Linked id → ∃ n, t.node id = .ok n ∧ n.isDeleted = false
  once : ∀ id n, t.node id = .ok n → n.isDeleted = false → ∃! way, t.nodeAt? way = some id
  balance : ∀ id n, t.Linked id → t.node id = .ok n → ∃ left right : Nat,
    t.heightWithin (t.slots.size + 1) n.left = .ok left ∧
    t.heightWithin (t.slots.size + 1) n.right = .ok right ∧
    n.balance.toInt = right - left ∧ -1 ≤ n.balance.toInt ∧ n.balance.toInt ≤ 1
  count : {id | t.Linked id}.encard = t.elementCount

def inorderFrom (t : Tree) : Nat → Option NodeId → List Item
  | _, none => []
  | 0, some _ => []
  | depth + 1, some id =>
    match t.slots[id]? with
    | none => []
    | some n => inorderFrom t depth n.left ++ ⟨id, n.version⟩ :: inorderFrom t depth n.right

def inorder (t : Tree) : List Item := t.inorderFrom t.slots.size t.root

def versions (t : Tree) : List Version := t.inorder.map (·.version)

namespace Forms

variable {t : Tree}

theorem inorder_from {p : Path} {s : Shape} {depth : Nat} (h : t.Forms (p.plug s))
    (hdepth : s.height ≤ depth) : t.inorderFrom depth s.root? = s.items := by
  -- By induction on the shape: the path grows by each step down.
  induction s generalizing p depth with
  | leaf => cases depth <;> rfl
  | node l e b r ihl ihr =>
    rw [Shape.height] at hdepth
    obtain ⟨depth, rfl⟩ : ∃ n, depth = n + 1 := Nat.exists_eq_succ_of_ne_zero (by omega)
    have hjoin : t.Forms (p.plug (.join .left l e b r)) := h
    have hcell := hjoin.cell
    rw [mem_cellsOf] at hcell
    have hl : t.inorderFrom depth l.root? = l.items :=
      ihl (p := ⟨e, b, .left, r⟩ :: p) h (by omega)
    have hr : t.inorderFrom depth r.root? = r.items :=
      ihr (p := ⟨e, b, .right, l⟩ :: p) h (by omega)
    simp only [Shape.root_node, inorderFrom, hcell, Node.sided, hl, hr, Shape.items]

/-- A path upward, read backward, is a way down. -/
theorem nodeAt_of_path {p : Path} {s : Shape} (h : t.Forms (p.plug s)) :
    t.nodeAt? (p.map (·.side)) = s.root? := by
  induction p generalizing s with
  | nil => exact h.root
  | cons f p ih =>
    have hcell := Tree.Forms.cell (p := p) (e := f.item) h
    rw [mem_cellsOf] at hcell
    simp only [List.map_cons, nodeAt?, ih h, Shape.root_join, Option.bind_eq_bind, Option.bind_some,
      hcell, Node.sided_near]

theorem exists_path_of_nodeAt {T : Shape} {way : List Side} {id : NodeId} (h : t.Forms T)
    (hway : t.nodeAt? way = some id) :
    ∃ (p : Path) (s : Shape), T = p.plug s ∧ p.map (·.side) = way ∧ s.root? = some id := by
  induction way generalizing id with
  | nil =>
    refine ⟨[], T, rfl, rfl, ?_⟩
    rw [← h.root]
    exact hway
  | cons side way ih =>
    simp only [nodeAt?, Option.bind_eq_bind, Option.bind_eq_some_iff] at hway
    obtain ⟨x, hx, n, hn, hchild⟩ := hway
    obtain ⟨p, s, rfl, hp, hs⟩ := ih hx
    obtain rfl | ⟨near, e, b, far, rfl⟩ := s.eq_leaf_or_join side
    · simp at hs
    · obtain rfl : e.id = x := by simpa using hs
      refine ⟨⟨e, b, side, far⟩ :: p, near, rfl, congrArg (side :: ·) hp, ?_⟩
      have hcell := h.cell
      rw [mem_cellsOf, hn] at hcell
      rw [← hchild, Option.some.inj hcell, Node.sided_near]

/-- The parent link of a node and the side on which it hangs tell the last step of a way to it. -/
theorem last_step {T : Shape} {side : Side} {way : List Side} {id : NodeId} (h : t.Forms T)
    (hway : t.nodeAt? (side :: way) = some id) :
    ∃ x, t.nodeAt? way = some x ∧ t.parent id = .ok (some x) ∧ t.sideOf id = .ok side := by
  obtain ⟨p, s, rfl, hp, hs⟩ := h.exists_path_of_nodeAt hway
  cases p with
  | nil => simp at hp
  | cons f p =>
    simp only [List.map_cons, List.cons.injEq] at hp
    obtain ⟨rfl, rfl⟩ := hp
    refine ⟨f.item.id, ?_, h.parent_of hs, h.side_of hs⟩
    rw [Tree.Forms.nodeAt_of_path (p := p) h, Shape.root_join]

theorem parent_of_root {T : Shape} {id : NodeId} (h : t.Forms T) (hroot : t.nodeAt? [] = some id) :
    t.parent id = .ok none :=
  Tree.Forms.parent_of (p := []) h (h.root.symm.trans hroot)

/-- Two ways down to one node are the same way. -/
theorem way_unique {T : Shape} {way way' : List Side} {id : NodeId} (h : t.Forms T)
    (hway : t.nodeAt? way = some id) (hway' : t.nodeAt? way' = some id) : way = way' := by
  induction way generalizing way' id with
  | nil =>
    cases way' with
    | nil => rfl
    | cons side way' =>
      obtain ⟨x, -, hx, -⟩ := h.last_step hway'
      have hnone := h.parent_of_root hway
      rw [hx] at hnone
      cases hnone
  | cons side way ih =>
    obtain ⟨x, hx, hparent, hside⟩ := h.last_step hway
    cases way' with
    | nil =>
      have hnone := h.parent_of_root hway'
      rw [hparent] at hnone
      cases hnone
    | cons side' way' =>
      obtain ⟨x', hx', hparent', hside'⟩ := h.last_step hway'
      rw [hparent] at hparent'
      cases hparent'
      rw [hside] at hside'
      cases hside'
      -- Both ways come from one parent and from one side, so their rests lead to that parent.
      rw [ih hx hx']

theorem linked_iff {T : Shape} (h : t.Forms T) {id : NodeId} :
    t.Linked id ↔ ∃ e ∈ T.items, e.id = id := by
  constructor
  · rintro ⟨way, hway⟩
    obtain ⟨p, s, rfl, -, hs⟩ := h.exists_path_of_nodeAt hway
    cases s with
    | leaf => simp at hs
    | node l e b r =>
      refine ⟨e, ?_, Option.some.inj hs⟩
      rw [Path.items_plug]
      simp [Shape.items]
  · rintro ⟨e, he, rfl⟩
    obtain ⟨p, l, b, r, rfl⟩ := Shape.exists_path_of_mem .left he
    exact ⟨_, h.nodeAt_of_path⟩

/-- The child of a linked node points back to it. -/
theorem parent_of_child {T : Shape} {side : Side} {id c : NodeId} (h : t.Forms T) (hid : t.Linked id)
    (hchild : t.child id side = .ok (some c)) : t.parent c = .ok (some id) := by
  obtain ⟨e, he, rfl⟩ := h.linked_iff.mp hid
  obtain ⟨p, near, b, far, rfl⟩ := Shape.exists_path_of_mem side he
  rw [h.child_near] at hchild
  exact Tree.Forms.parent_of (p := ⟨e, b, side, far⟩ :: p) h (Except.ok.inj hchild)

theorem encard_linked {T : Shape} (h : t.Forms T) :
    {id | t.Linked id}.encard = T.items.length := by
  have hset : {id | t.Linked id} = ↑(T.items.map (·.id)).toFinset := by
    ext id
    simp [h.linked_iff]
  rw [hset, Set.encard_coe_eq_coe_finsetCard, List.toFinset_card_of_nodup h.nodup_ids,
    List.length_map]

theorem inorder {T : Shape} (h : t.Forms T) : t.inorder = T.items := by
  have hle := T.height_le_length
  have hlength := h.length_le
  rw [Tree.inorder, h.root]
  exact inorder_from (p := []) h (by omega)

end Forms

namespace Holds

variable {t : Tree} {s : Shape}

theorem linked_iff (h : t.Holds s) {id : NodeId} : t.Linked id ↔ ∃ e ∈ s.items, e.id = id :=
  h.forms.linked_iff

/-- A slot whose node is not marked deleted belongs to an item. -/
theorem item_of_live (h : t.Holds s) {id : NodeId} {n : Node} (hn : t.node id = .ok n)
    (hlive : n.isDeleted = false) : ∃ e ∈ s.items, e.id = id := by
  obtain ⟨dead, hcells, -, hdead⟩ := h.dead
  have hmem : (id, n) ∈ s.cells none + dead := hcells ▸ mem_cellsOf.mpr (Tree.slot_of_node hn)
  rcases Multiset.mem_add.mp hmem with hmem | hmem
  · have hid : id ∈ (s.cells none).map Prod.fst := Multiset.mem_map.mpr ⟨_, hmem, rfl⟩
    rw [Shape.ids_cells, Multiset.mem_coe, List.mem_map] at hid
    exact hid
  · have hreleased : n = n.released := hdead _ hmem
    rw [hreleased] at hlive
    exact absurd hlive (by simp [Node.isDeleted, Node.released])

/-- A linked node with its place in the tree. -/
theorem place_of_linked (h : t.Holds s) {id : NodeId} (side : Side) (hid : t.Linked id) :
    ∃ (p : Path) (near : Shape) (e : Item) (b : Int8) (far : Shape), e.id = id ∧
      s = p.plug (.join side near e b far) ∧ Leans (b * side.sign) near.height far.height := by
  obtain ⟨e, he, rfl⟩ := h.linked_iff.mp hid
  obtain ⟨p, near, b, far, rfl⟩ := Shape.exists_path_of_mem side he
  have hbalanced := (Path.balanced_plug.mp h.balanced).1
  exact ⟨p, near, e, b, far, rfl, rfl, (Shape.balanced_join.mp hbalanced).1⟩

theorem wellFormed (h : t.Holds s) : t.WellFormed where
  root id hroot := h.forms.parent_of_root hroot
  answered _ _ _ hid hchild := h.forms.parent_of_child hid hchild
  live id hid := by
    obtain ⟨p, near, e, b, far, rfl, rfl, hlean⟩ := h.place_of_linked .left hid
    refine ⟨_, h.forms.node, ?_⟩
    simpa [Node.isDeleted] using hlean.ne_deleted
  once id n hn hlive := by
    obtain ⟨way, hway⟩ := h.linked_iff.mpr (h.item_of_live hn hlive)
    exact ⟨way, hway, fun way' hway' => h.forms.way_unique hway' hway⟩
  balance id n hid hn := by
    obtain ⟨p, left, e, b, right, rfl, rfl, hlean⟩ := h.place_of_linked .left hid
    rw [h.forms.node] at hn
    obtain rfl := Except.ok.inj hn
    have hlength := h.forms.length_le
    rw [Path.items_plug] at hlength
    simp only [Shape.join, Shape.items, List.length_append, List.length_cons] at hlength
    have hl := left.height_le_length
    have hr := right.height_le_length
    refine ⟨left.height, right.height, ?_, ?_, ?_⟩
    · exact Tree.Forms.height_within (p := ⟨e, b, .left, right⟩ :: p) h.forms (by omega)
    · exact Tree.Forms.height_within (p := ⟨e, b, .right, left⟩ :: p) h.forms (by omega)
    · rw [Side.sign, Int8.mul_one] at hlean
      rw [Node.sided_balance]
      rcases hlean with ⟨rfl, he⟩ | ⟨rfl, he⟩ | ⟨rfl, he⟩
      · exact ⟨by rw [he]; simp, by decide, by decide⟩
      · exact ⟨by rw [he]; simp, by decide, by decide⟩
      · exact ⟨by rw [he]; simp, by decide, by decide⟩
  count := by rw [h.forms.encard_linked, h.count]

end Holds

/-- A balanced tree has at least as many nodes as its height demands. -/
theorem fib_le_of_balanced {s : Shape} (h : s.Balanced) :
    Nat.fib (s.height + 2) ≤ s.items.length + 1 := by
  induction s with
  | leaf => simp [Shape.height]
  | node l e b r ihl ihr =>
    obtain ⟨hlean, hl, hr⟩ := h
    have hlength : (Shape.node l e b r).items.length + 1 =
        (l.items.length + 1) + (r.items.length + 1) := by
      simp only [Shape.items, List.length_append, List.length_cons]
      omega
    rw [hlength]
    -- The lower subtree is at most one lower, which is what the recursion of Fibonacci allows for.
    have hsum (high low : Nat) (hlow : high ≤ low + 1) :
        Nat.fib (1 + high + 2) ≤ Nat.fib (high + 2) + Nat.fib (low + 2) := by
      rw [show 1 + high + 2 = (high + 1) + 2 by omega, Nat.fib_add_two, add_comm]
      exact Nat.add_le_add_left (Nat.fib_mono (by omega)) _
    have hl := ihl hl
    have hr := ihr hr
    rcases le_total r.height l.height with hle | hle
    · have hfib := hsum l.height r.height (by rcases hlean with h | h | h <;> omega)
      rw [Shape.height, max_eq_left hle]
      omega
    · have hfib := hsum r.height l.height (by rcases hlean with h | h | h <;> omega)
      rw [Shape.height, max_eq_right hle]
      omega

theorem Holds.inorder {t : Tree} {s : Shape} (h : t.Holds s) : t.inorder = s.items :=
  h.forms.inorder

theorem Holds.versions_eq {t : Tree} {s : Shape} (h : t.Holds s) :
    t.versions = s.items.map (·.version) := by
  rw [versions, h.inorder]

theorem Holds.mem_versions {t : Tree} {s : Shape} (h : t.Holds s) {v : Version} :
    v ∈ t.versions ↔ ∃ e ∈ s.items, e.version = v := by
  rw [h.versions_eq, List.mem_map]

theorem Holds.count_versions {t : Tree} {s : Shape} (h : t.Holds s) :
    t.elementCount = t.versions.length := by
  rw [h.count, h.versions_eq, List.length_map]

theorem Holds.height {t : Tree} {s : Shape} (h : t.Holds s) : t.height = .ok s.height := by
  have hle := s.height_le_length
  have hlength := h.forms.length_le
  rw [Tree.height, h.root]
  exact Tree.Forms.height_within (p := []) h.forms (by omega)

end Tree

end VersionedIndex
