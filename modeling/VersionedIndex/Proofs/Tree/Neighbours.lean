import Mathlib.Data.Fintype.Card
import VersionedIndex.Proofs.Tree.Trails

namespace VersionedIndex

namespace Tree

/-- The links of a tree agree with each other: the root has no parent, the children of each linked
node point back to it, and they are not one child on both sides. Balances, counts and the order of the
versions do not matter. -/
structure Coherent (t : Tree) : Prop extends t.Answered where
  forks : ∀ id, t.Linked id → t.Forks id

/-- What hangs at the end of a way has a shape: its cells are slots of the tree, and its items are at
the ends of longer ways, each at one. -/
structure Covers (t : Tree) (way : List Side) (link parent : Option NodeId) (s : Shape) : Prop where
  root : s.root? = link
  cells : ∀ c ∈ s.cells parent, c ∈ cellsOf t.slots
  nodup : (s.items.map (·.id)).Nodup
  below : ∀ e ∈ s.items, ∃ on, t.nodeAt? (on ++ way) = some e.id

variable {t : Tree}

theorem Covers.leaf (way : List Side) (parent : Option NodeId) : t.Covers way none parent .leaf where
  root := rfl
  cells _ hc := absurd hc (Multiset.notMem_zero _)
  nodup := List.nodup_nil
  below := nofun

/-- Up to each of its nodes a way down is a way down. -/
theorem exists_nodeAt_drop {way : List Side} {id : NodeId} (hway : t.nodeAt? way = some id) (i : Nat) :
    ∃ x, t.nodeAt? (way.drop i) = some x := by
  induction i generalizing way id with
  | zero => exact ⟨id, hway⟩
  | succ i ih =>
    cases way with
    | nil => exact ⟨id, hway⟩
    | cons side way =>
      obtain ⟨p, hp, -⟩ := nodeAt_cons.mp hway
      exact ih hp

namespace Coherent

variable {way way' : List Side} {id p : NodeId} {side side' : Side}

theorem side_unique (h : t.Coherent) (hp : t.Linked p) (hchild : t.child p side = .ok (some id))
    (hchild' : t.child p side' = .ok (some id)) : side = side' := by
  cases side with
  | left =>
    cases side' with
    | left => rfl
    | right => exact absurd hchild' (h.forks p hp id hchild)
  | right =>
    cases side' with
    | left => exact absurd hchild (h.forks p hp id hchild')
    | right => rfl

/-- Two ways down to one node are the same way. -/
theorem way_unique (h : t.Coherent) (hway : t.nodeAt? way = some id)
    (hway' : t.nodeAt? way' = some id) : way = way' := by
  induction way generalizing way' id with
  | nil =>
    cases way' with
    | nil => rfl
    | cons side way' =>
      obtain ⟨p, hp, hchild⟩ := nodeAt_cons.mp hway'
      cases (h.root id hway).symm.trans (h.child p side id ⟨way', hp⟩ hchild)
  | cons side way ih =>
    obtain ⟨p, hp, hchild⟩ := nodeAt_cons.mp hway
    have hparent := h.child p side id ⟨way, hp⟩ hchild
    cases way' with
    | nil => cases (h.root id hway').symm.trans hparent
    | cons side' way' =>
      obtain ⟨p', hp', hchild'⟩ := nodeAt_cons.mp hway'
      cases hparent.symm.trans (h.child p' side' id ⟨way', hp'⟩ hchild')
      rw [h.side_unique ⟨way, hp⟩ hchild hchild', ih hp hp']

theorem exists_node (h : t.Coherent) (hid : t.Linked id) : ∃ n, t.node id = .ok n := by
  rcases hid.root_or_child with hroot | ⟨p, side, hp, hchild⟩
  · obtain ⟨n, hn, -⟩ := parent_eq_ok.mp (h.root id hroot)
    exact ⟨n, hn⟩
  · obtain ⟨n, hn, -⟩ := parent_eq_ok.mp (h.child p side id hp hchild)
    exact ⟨n, hn⟩

/-- A way down passes each slot once at most. -/
theorem length_lt (h : t.Coherent) (hway : t.nodeAt? way = some id) : way.length < t.slots.size := by
  have hpass (i : Fin (way.length + 1)) :
      ∃ x : Fin t.slots.size, t.nodeAt? (way.drop i) = some x.val := by
    obtain ⟨x, hx⟩ := exists_nodeAt_drop hway i
    obtain ⟨n, hn⟩ := h.exists_node ⟨_, hx⟩
    exact ⟨⟨x, (Array.getElem?_eq_some_iff.mp (slot_of_node hn)).1⟩, hx⟩
  choose f hf using hpass
  -- The ways to two nodes that it passes differ in length.
  have hinjective : Function.Injective f := by
    intro i j hij
    have hsame := congrArg List.length (h.way_unique (hf i) (hij ▸ hf j))
    rw [List.length_drop, List.length_drop] at hsame
    omega
  have hcard := Fintype.card_le_of_injective f hinjective
  rwa [Fintype.card_fin, Fintype.card_fin] at hcard

/-- A node and what hangs on its two sides. -/
theorem covers_node (h : t.Coherent) (hway : t.nodeAt? way = some id) {n : Node}
    (hn : t.node id = .ok n) {left right : Shape}
    (hleft : t.Covers (.left :: way) n.left (some id) left)
    (hright : t.Covers (.right :: way) n.right (some id) right) :
    t.Covers way (some id) n.parent (.node left ⟨id, n.version⟩ n.balance right) where
  root := rfl
  cells c hc := by
    rw [Shape.cells, hleft.root, hright.root, Multiset.mem_add, Multiset.mem_add,
      Multiset.mem_singleton] at hc
    rcases hc with (rfl | hc) | hc
    · exact mem_cellsOf.mpr (slot_of_node hn)
    · exact hleft.cells c hc
    · exact hright.cells c hc
  nodup := by
    have hnot {side : Side} {s : Shape} {link : Option NodeId}
        (hs : t.Covers (side :: way) link (some id) s) : id ∉ s.items.map (·.id) := by
      intro hmem
      obtain ⟨e, he, rfl⟩ := List.mem_map.mp hmem
      obtain ⟨on, hon⟩ := hs.below e he
      have hsame := congrArg List.length (h.way_unique hway hon)
      rw [List.length_append, List.length_cons] at hsame
      omega
    have hdisjoint : ∀ x ∈ left.items.map (·.id), ∀ y ∈ right.items.map (·.id), x ≠ y := by
      rintro x hx y hy rfl
      obtain ⟨e, he, rfl⟩ := List.mem_map.mp hx
      obtain ⟨e', he', hid⟩ := List.mem_map.mp hy
      obtain ⟨on, hon⟩ := hleft.below e he
      obtain ⟨on', hon'⟩ := hright.below e' he'
      have hsame := h.way_unique hon (hid ▸ hon')
      cases (List.append_inj' hsame rfl).2
    rw [Shape.items, List.map_append, List.map_cons, List.nodup_middle, List.nodup_cons,
      List.mem_append, List.nodup_append]
    exact ⟨not_or.mpr ⟨hnot hleft, hnot hright⟩, hleft.nodup, hright.nodup, hdisjoint⟩
  below e he := by
    rw [Shape.items, List.mem_append, List.mem_cons] at he
    rcases he with he | rfl | he
    · obtain ⟨on, hon⟩ := hleft.below e he
      exact ⟨on ++ [.left], by rwa [List.append_assoc]⟩
    · exact ⟨[], hway⟩
    · obtain ⟨on, hon⟩ := hright.below e he
      exact ⟨on ++ [.right], by rwa [List.append_assoc]⟩

/-- What hangs at the end of a way has a shape. -/
theorem exists_covers (h : t.Coherent) (depth : Nat) (hway : t.nodeAt? way = some id)
    (hdepth : t.slots.size ≤ way.length + depth) {parent : Option NodeId}
    (hparent : t.parent id = .ok parent) : ∃ s, t.Covers way (some id) parent s := by
  -- By induction on the number of levels that are left.
  induction depth generalizing way id parent with
  | zero => exact absurd (h.length_lt hway) (Nat.not_lt.mpr hdepth)
  | succ depth ih =>
    obtain ⟨n, hn, rfl⟩ := parent_eq_ok.mp hparent
    have hside (side : Side) : ∃ s, t.Covers (side :: way) (n.child side) (some id) s := by
      cases hchild : n.child side with
      | none => exact ⟨.leaf, .leaf _ _⟩
      | some c =>
        have hlink : t.child id side = .ok (some c) := child_eq_ok.mpr ⟨n, hn, hchild⟩
        refine ih (nodeAt_cons.mpr ⟨id, hway, hlink⟩) ?_ (h.child id side c ⟨way, hway⟩ hlink)
        rw [List.length_cons]
        omega
    obtain ⟨left, hleft⟩ := hside .left
    obtain ⟨right, hright⟩ := hside .right
    exact ⟨_, h.covers_node hway hn hleft hright⟩

/-- Links that agree with each other form a shape. -/
theorem forms (h : t.Coherent) : ∃ s, t.Forms s := by
  cases hroot : t.root with
  | none => exact ⟨.leaf, hroot, Multiset.zero_le _⟩
  | some root =>
    have hway : t.nodeAt? [] = some root := hroot
    obtain ⟨s, hs⟩ := h.exists_covers t.slots.size hway (Nat.le_add_left _ _) (h.root root hroot)
    exact ⟨s, .of_nodup (hroot.trans hs.root.symm) hs.cells hs.nodup⟩

end Coherent

namespace Forms

variable {s : Shape} {before after : List NodeId} {id other : NodeId}

/-- Whatever forms a shape has links that agree with each other, like all trees of an index. -/
theorem coherent (h : t.Forms s) : t.Coherent where
  root _ hroot := h.parent_of_root hroot
  child _ _ _ hid hchild := h.parent_of_child hid hchild
  forks id hid c hleft hright := by
    have hway {side : Side} {way : List Side} (hway : t.nodeAt? way = some id)
        (hchild : t.child id side = .ok (some c)) : t.nodeAt? (side :: way) = some c :=
      nodeAt_cons.mpr ⟨id, hway, hchild⟩
    obtain ⟨way, hid⟩ := hid
    cases h.way_unique (hway hid hleft) (hway hid hright)

theorem exists_split (h : t.Forms s) (hid : t.Linked id) :
    ∃ before after, s.items.map (·.id) = before ++ id :: after :=
  List.append_of_mem (List.mem_map.mpr (h.linked_iff.mp hid))

/-- The neighbours of a node are what stands beside it in order. -/
theorem neighbours (h : t.Forms s) (hsplit : s.items.map (·.id) = before ++ id :: after) :
    t.successor id = .ok after.head? ∧ t.predecessor id = .ok before.getLast? := by
  obtain ⟨xs, l, hitems, rfl, hrest⟩ := List.map_eq_append_iff.mp hsplit
  obtain ⟨e, ys, rfl, rfl, rfl⟩ := List.map_eq_cons_iff.mp hrest
  have hforward : s.itemsToward .right = xs ++ e :: ys := hitems
  have hbackward : s.itemsToward .left = ys.reverse ++ e :: xs.reverse := by
    simp [Shape.itemsToward, hitems]
  constructor
  · rw [List.head?_map]
    exact h.neighbour hforward
  · rw [List.getLast?_map, ← List.head?_reverse]
    exact h.neighbour hbackward

/-- No node stands at two places. -/
theorem notMem_of_split (h : t.Forms s) (hsplit : s.items.map (·.id) = before ++ id :: after) :
    id ∉ before ∧ id ∉ after := by
  have hnodup := h.nodup_ids
  rw [hsplit, List.nodup_middle, List.nodup_cons, List.mem_append, not_or] at hnodup
  exact hnodup.1

/-- Only the last node has no successor. -/
theorem successor_eq_none_iff (h : t.Forms s) (hid : t.Linked id) :
    t.successor id = .ok none ↔ (s.items.map (·.id)).getLast? = some id := by
  obtain ⟨before, after, hsplit⟩ := h.exists_split hid
  rw [(h.neighbours hsplit).1, hsplit]
  cases after with
  | nil => simp
  | cons x after =>
    refine iff_of_false (by simp) fun hlast => (h.notMem_of_split hsplit).2 ?_
    rw [List.getLast?_append_cons, List.getLast?_cons_cons] at hlast
    exact List.mem_of_getLast? hlast

/-- Only the first node has no predecessor. -/
theorem predecessor_eq_none_iff (h : t.Forms s) (hid : t.Linked id) :
    t.predecessor id = .ok none ↔ (s.items.map (·.id)).head? = some id := by
  obtain ⟨before, after, hsplit⟩ := h.exists_split hid
  rw [(h.neighbours hsplit).2, hsplit]
  cases before with
  | nil => simp
  | cons x before =>
    refine iff_of_false (by simp) fun hfirst => (h.notMem_of_split hsplit).1 ?_
    rw [List.cons_append, List.head?_cons, Option.some_inj] at hfirst
    exact hfirst ▸ List.mem_cons_self

/-- Successor and predecessor undo each other. -/
theorem successor_iff_predecessor (h : t.Forms s) (hid : t.Linked id) (hother : t.Linked other) :
    t.successor id = .ok (some other) ↔ t.predecessor other = .ok (some id) := by
  constructor
  · intro hnext
    obtain ⟨before, after, hsplit⟩ := h.exists_split hid
    rw [(h.neighbours hsplit).1, Except.ok.injEq, List.head?_eq_some_iff] at hnext
    obtain ⟨rest, rfl⟩ := hnext
    have hsplit' : s.items.map (·.id) = (before ++ [id]) ++ other :: rest := by
      rw [hsplit, List.append_assoc, List.singleton_append]
    rw [(h.neighbours hsplit').2, List.getLast?_concat]
  · intro hprevious
    obtain ⟨before, after, hsplit⟩ := h.exists_split hother
    rw [(h.neighbours hsplit).2, Except.ok.injEq, List.getLast?_eq_some_iff] at hprevious
    obtain ⟨rest, rfl⟩ := hprevious
    rw [List.append_assoc, List.singleton_append] at hsplit
    rw [(h.neighbours hsplit).1, List.head?_cons]

/-- The walk by successors from a place on goes along the rest of the items. -/
theorem trail (h : t.Forms s) (before : List NodeId)
    (hsplit : s.items.map (·.id) = before ++ after) : t.Trail after.head? after := by
  induction after generalizing before with
  | nil => exact .ended
  | cons id after ih =>
    refine .step (h.neighbours hsplit).1 (ih (before ++ [id]) ?_)
    rw [hsplit, List.append_assoc, List.singleton_append]

/-- The walks down from a linked node come to an end. -/
theorem exists_outermost (h : t.Forms s) (side : Side) (hid : t.Linked id) :
    ∃ last depth, t.outermost side id = .ok (last, depth) := by
  obtain ⟨e, he, rfl⟩ := h.linked_iff.mp hid
  obtain ⟨p, near, b, far, rfl⟩ := Shape.exists_path_of_mem side he
  obtain ⟨x, depth, hwalk, -⟩ := Forms.outermost side h (Shape.root_join _ _ _ _ _)
  exact ⟨x.id, depth, hwalk⟩

/-- The four walks from a linked node come to an end. -/
theorem walks_end (h : t.Forms s) (hid : t.Linked id) :
    (∃ found, t.leftmost id = .ok found) ∧ (∃ last, t.rightmost id = .ok last) ∧
      (∃ next, t.successor id = .ok next) ∧ ∃ previous, t.predecessor id = .ok previous := by
  obtain ⟨first, depth, hleft⟩ := h.exists_outermost .left hid
  obtain ⟨last, depth', hright⟩ := h.exists_outermost .right hid
  obtain ⟨before, after, hsplit⟩ := h.exists_split hid
  obtain ⟨hnext, hprevious⟩ := h.neighbours hsplit
  refine ⟨⟨_, hleft⟩, ⟨last, ?_⟩, ⟨_, hnext⟩, _, hprevious⟩
  rw [rightmost, hright]
  rfl

/-- The walks down from the root end at the first item and at the last one. -/
theorem outermost_of_root (h : t.Forms s) {root : NodeId} (hroot : t.root = some root) :
    ∃ first depth last, t.leftmost root = .ok (first, depth) ∧ t.rightmost root = .ok last ∧
      (s.items.map (·.id)).head? = some first ∧ (s.items.map (·.id)).getLast? = some last := by
  have hs : s.root? = some root := h.root.symm.trans hroot
  obtain ⟨x, depth, hleft, hfirst⟩ := Forms.outermost (p := []) .left h hs
  obtain ⟨y, depth', hright, hlast⟩ := Forms.outermost (p := []) .right h hs
  refine ⟨x.id, depth, y.id, hleft, ?_, ?_, ?_⟩
  · rw [rightmost, hright]
    rfl
  · rw [Shape.itemsToward, List.getLast?_reverse] at hfirst
    rw [List.head?_map, hfirst, Option.map_some]
  · rw [Shape.itemsToward] at hlast
    rw [List.getLast?_map, hlast, Option.map_some]

end Forms

/-- Successor and predecessor go along the linked nodes in order. Each linked node is there once, its
successor stands right behind it and its predecessor right before it, so the two undo each other, and
only the last node and the first one have none. Every walk from a linked node comes to an end. The
ways down from the root end at the first node and at the last one, and going on by successors from the
first one passes all of them. -/
theorem Coherent.walks_in_order (h : t.Coherent) :
    let ids := t.inorder.map (·.id)
    (ids.Nodup ∧ ∀ id, id ∈ ids ↔ t.Linked id) ∧
    (∀ before id after, ids = before ++ id :: after →
      t.successor id = .ok after.head? ∧ t.predecessor id = .ok before.getLast?) ∧
    (∀ id, t.Linked id → (t.successor id = .ok none ↔ ids.getLast? = some id) ∧
      (t.predecessor id = .ok none ↔ ids.head? = some id)) ∧
    (∀ id other, t.Linked id → t.Linked other →
      (t.successor id = .ok (some other) ↔ t.predecessor other = .ok (some id))) ∧
    (∀ id, t.Linked id → (∃ found, t.leftmost id = .ok found) ∧ (∃ last, t.rightmost id = .ok last) ∧
      (∃ next, t.successor id = .ok next) ∧ ∃ previous, t.predecessor id = .ok previous) ∧
    (∀ root, t.root = some root → ∃ first depth last, t.leftmost root = .ok (first, depth) ∧
      t.rightmost root = .ok last ∧ ids.head? = some first ∧ ids.getLast? = some last ∧
      t.Trail (some first) ids) := by
  obtain ⟨s, hs⟩ := h.forms
  rw [hs.inorder]
  intro ids
  refine ⟨⟨hs.nodup_ids, fun id => ?_⟩, fun _ _ _ => hs.neighbours, fun id hid => ?_,
    fun _ _ => hs.successor_iff_predecessor, fun _ => hs.walks_end, fun root hroot => ?_⟩
  · rw [hs.linked_iff, List.mem_map]
  · exact ⟨hs.successor_eq_none_iff hid, hs.predecessor_eq_none_iff hid⟩
  · obtain ⟨first, depth, last, hleft, hright, hfirst, hlast⟩ := hs.outermost_of_root hroot
    have htrail := hs.trail [] rfl
    exact ⟨first, depth, last, hleft, hright, hfirst, hlast, hfirst ▸ htrail⟩

def bent : Tree := (Action.outcome (do
  let a ← TreeAction.allocate ⟨0, 1, [], 0⟩
  let b ← TreeAction.allocate ⟨0, 2, [], 0⟩
  let c ← TreeAction.allocate ⟨0, 3, [], 0⟩
  TreeAction.setRoot (some a)
  TreeAction.setChild a .right (some b)
  TreeAction.setChild b .left (some c) : TreeAction Unit) {}).2

/-- No balance is right and the count is zero, but the walks go by the links. -/
theorem bent_walks_in_order :
    bent.Coherent ∧ bent.inorder.map (·.id) = [0, 2, 1] ∧ bent.Linked 2 ∧
    bent.successor 0 = .ok (some 2) ∧ bent.predecessor 2 = .ok (some 0) ∧
    bent.successor 2 = .ok (some 1) ∧ bent.successor 1 = .ok none ∧
    bent.leftmost 0 = .ok (0, 1) ∧ bent.rightmost 0 = .ok 1 ∧ bent.Trail (some 0) [0, 2, 1] := by
  have hforms : bent.Forms (.node .leaf ⟨0, ⟨0, 1, [], 0⟩⟩ 0
      (.node (.node .leaf ⟨2, ⟨0, 3, [], 0⟩⟩ 0 .leaf) ⟨1, ⟨0, 2, [], 0⟩⟩ 0 .leaf)) :=
    .of_nodup (by decide +kernel) (by decide +kernel) (by decide +kernel)
  have hids : bent.inorder.map (·.id) = [0, 2, 1] := by decide +kernel
  obtain ⟨⟨-, hmem⟩, hneighbours, hends, hinverse, -, hroot⟩ := hforms.coherent.walks_in_order
  rw [hids] at hmem hneighbours hends hroot
  have hlinked : bent.Linked 0 ∧ bent.Linked 2 ∧ bent.Linked 1 := by
    simp [← hmem]
  obtain ⟨h₀, h₂, h₁⟩ := hlinked
  obtain ⟨first, depth, last, hleft, hright, hfirst, hlast, htrail⟩ := hroot 0 (by decide +kernel)
  cases hfirst
  cases hlast
  have hnext := (hneighbours [] 0 [2, 1] rfl).1
  refine ⟨hforms.coherent, hids, h₂, hnext, (hinverse 0 2 h₀ h₂).mp hnext,
    (hneighbours [0] 2 [1] rfl).1, (hends 1 h₁).1.mpr rfl, by decide +kernel, hright, htrail⟩

end Tree

end VersionedIndex
