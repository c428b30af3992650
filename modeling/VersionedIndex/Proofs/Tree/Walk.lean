import VersionedIndex.Proofs.Tree.Links
import Mathlib.Data.List.Basic

namespace VersionedIndex

namespace Shape

theorem exists_path_of_mem {s : Shape} {e : Item} (side : Side) (h : e ∈ s.items) :
    ∃ (p : Path) (near : Shape) (b : Int8) (far : Shape), s = p.plug (join side near e b far) := by
  induction s with
  | leaf => simp [items] at h
  | node l x b r ihl ihr =>
    rw [items, List.mem_append, List.mem_cons] at h
    rcases h with h | rfl | h
    · obtain ⟨p, near, be, far, rfl⟩ := ihl h
      exact ⟨p ++ [⟨x, b, .left, r⟩], near, be, far, by rw [Path.plug_snoc]; rfl⟩
    · cases side with
      | left => exact ⟨[], l, b, r, rfl⟩
      | right => exact ⟨[], r, b, l, rfl⟩
    · obtain ⟨p, near, be, far, rfl⟩ := ihr h
      exact ⟨p ++ [⟨x, b, .right, l⟩], near, be, far, by rw [Path.plug_snoc]; rfl⟩

theorem mem_items_toward {s : Shape} (side : Side) {e : Item} :
    e ∈ s.itemsToward side ↔ e ∈ s.items := by
  cases side with
  | left => exact List.mem_reverse
  | right => exact Iff.rfl

theorem items_toward_eq_nil {s : Shape} {side : Side} : s.itemsToward side = [] ↔ s = leaf := by
  cases s with
  | leaf => cases side <;> simp [itemsToward, items]
  | node l e b r => cases side <;> simp [itemsToward, items]

/-- A tree that is not empty has an outermost item on each side, at the end of a path of steps
from that side. -/
theorem exists_outermost {s : Shape} (side : Side) (h : s ≠ leaf) :
    ∃ (p : Path) (x : Item) (b : Int8) (inner : Shape),
      s = p.plug (join side leaf x b inner) ∧ ∀ f ∈ p, f.side = side := by
  -- By induction on the height, as the way goes down one side of the tree only.
  induction hs : s.height using Nat.strong_induction_on generalizing s with
  | _ n ih =>
    obtain rfl | ⟨near, e, b, far, rfl⟩ := s.eq_leaf_or_join side
    · exact absurd rfl h
    · rw [height_join] at hs
      by_cases hnear : near = leaf
      · subst hnear
        exact ⟨[], e, b, far, rfl, by simp⟩
      · obtain ⟨p, x, bx, inner, rfl, hp⟩ := ih near.height (by omega) hnear rfl
        refine ⟨p ++ [⟨e, b, side, far⟩], x, bx, inner, by rw [Path.plug_snoc], ?_⟩
        intro f hf
        rcases List.mem_append.mp hf with hf | hf
        · exact hp f hf
        · rw [List.mem_singleton.mp hf]

theorem beyond_eq_nil {p : Path} {side : Side} (h : ∀ f ∈ p, f.side = side) :
    p.beyond side = [] := by
  induction p with
  | nil => rfl
  | cons f p ih =>
    rw [Path.beyond, if_pos (h f List.mem_cons_self)]
    exact ih fun g hg => h g (List.mem_cons_of_mem f hg)

theorem last_toward_outermost {p : Path} {side : Side} (h : ∀ f ∈ p, f.side = side) (x : Item)
    (b : Int8) (inner : Shape) :
    ((p.plug (join side leaf x b inner)).itemsToward side).getLast? = some x := by
  rw [Path.items_toward_plug, beyond_eq_nil h, items_toward_join]
  simp [items_toward_eq_nil.mpr rfl]

end Shape

namespace Tree.Forms

variable {t : Tree} {p : Path} {s : Shape} {side : Side}

/-- The walk down one side ends at the last item of a walk toward that side. -/
theorem outermost_from {id : NodeId} {steps : Nat} (h : t.Forms (p.plug s))
    (hs : s.root? = some id) (hsteps : s.height ≤ steps) (depth : Nat) :
    ∃ (x : Item) (d : Nat), t.outermostFrom side steps id depth = .ok (x.id, d) ∧
      (s.itemsToward side).getLast? = some x := by
  induction steps generalizing p s id depth with
  | zero =>
    rw [Nat.le_zero, Shape.height_eq_zero] at hsteps
    simp [hsteps] at hs
  | succ steps ih =>
    obtain rfl | ⟨near, e, b, far, rfl⟩ := s.eq_leaf_or_join side
    · simp at hs
    · obtain rfl : e.id = id := by simpa using hs
      rw [Shape.items_toward_join]
      simp only [Tree.outermostFrom, h.child_near]
      cases hnear : near.root? with
      | none =>
        rw [Shape.root_eq_none] at hnear
        exact ⟨e, depth, rfl, by simp [Shape.items_toward_eq_nil.mpr hnear]⟩
      | some c =>
        rw [Shape.height_join] at hsteps
        obtain ⟨x, d, hwalk, hlast⟩ := ih (p := ⟨e, b, side, far⟩ :: p) h hnear (by omega) (depth + 1)
        refine ⟨x, d, hwalk, ?_⟩
        rw [List.getLast?_append_cons, List.getLast?_cons, hlast]
        rfl

theorem outermost (side : Side) {id : NodeId} (h : t.Forms (p.plug s)) (hs : s.root? = some id) :
    ∃ (x : Item) (d : Nat), t.outermost side id = .ok (x.id, d) ∧
      (s.itemsToward side).getLast? = some x := by
  apply h.outermost_from hs
  have hheight := s.height_le_length
  have hlength := h.length_le
  rw [Path.items_plug, List.length_append, List.length_append] at hlength
  omega

/-- The way up from a subtree ends at the first item beyond it. -/
theorem climb_from {c : NodeId} {steps : Nat} (h : t.Forms (p.plug s)) (hs : s.root? = some c)
    (hsteps : p.length ≤ steps) :
    t.climbFrom side steps c (p.parent? none) = .ok ((p.beyond side).head?.map (·.id)) := by
  induction p generalizing s c steps with
  | nil => cases steps <;> rfl
  | cons f p ih =>
    obtain ⟨steps, rfl⟩ : ∃ n, steps = n + 1 :=
      Nat.exists_eq_succ_of_ne_zero (by rw [List.length_cons] at hsteps; omega)
    have hnode := Tree.Forms.node (p := p) (e := f.item) h
    rw [hs] at hnode
    simp only [Path.parent?, Tree.climbFrom, hnode, Path.beyond]
    by_cases hside : f.side = side
    · -- The step comes from `side`, so the node lies before, and the way up goes on.
      subst hside
      rw [if_pos (Node.sided_near _ _ _ _ _ _), if_pos rfl, Node.sided_parent]
      exact ih h (Shape.root_join _ _ _ _ _) (Nat.le_of_succ_le_succ hsteps)
    · -- The step comes from the other side, so the node is the next one.
      have hflip : side = f.side.flip := by revert hside; cases f.side <;> cases side <;> decide
      rw [if_neg hside, hflip, Node.sided_far, if_neg (h.sibling_root_ne hs)]
      rfl

/-- In a tree without repetition an item has one place only. -/
theorem split_unique (side : Side) {T : Shape} {xs ys xs' ys' : List Item} {e : Item} (h : t.Forms T)
    (hxs : T.itemsToward side = xs ++ e :: ys) (hxs' : T.itemsToward side = xs' ++ e :: ys') :
    xs = xs' ∧ ys = ys' := by
  have hnodup : (T.itemsToward side).Nodup := by
    have hitems : T.items.Nodup := h.nodup_ids.of_map
    cases side with
    | left => exact List.nodup_reverse.mpr hitems
    | right => exact hitems
  have hnot (as bs : List Item) (hsplit : T.itemsToward side = as ++ e :: bs) :
      e ∉ as ∧ e ∉ bs := by
    rw [hsplit, List.nodup_append, List.nodup_cons] at hnodup
    exact ⟨fun hm => hnodup.2.2 e hm e List.mem_cons_self rfl, hnodup.2.1.1⟩
  rw [hxs'] at hxs
  have hsame := (List.append_cons_inj_of_notMem (hnot xs' ys' hxs').1 (hnot xs' ys' hxs').2).mp hxs
  exact ⟨hsame.1.symm, hsame.2.2.symm⟩

/-- The neighbour on a side is the next item of a walk toward that side. -/
theorem neighbour {T : Shape} {xs ys : List Item} {e : Item} (h : t.Forms T)
    (hsplit : T.itemsToward side = xs ++ e :: ys) :
    t.neighbour side e.id = .ok (ys.head?.map (·.id)) := by
  have he : e ∈ T.items := by
    rw [← Shape.mem_items_toward side, hsplit]
    simp
  obtain ⟨p, near, b, far, rfl⟩ := Shape.exists_path_of_mem side he
  have hplace : (p.plug (.join side near e b far)).itemsToward side =
      ((p.beyond side.flip).reverse ++ far.itemsToward side) ++
        e :: (near.itemsToward side ++ p.beyond side) := by
    rw [Path.items_toward_plug, Shape.items_toward_join]
    simp
  obtain ⟨-, rfl⟩ := h.split_unique side hsplit hplace
  simp only [Tree.neighbour, h.node, Node.sided_near, Node.sided_parent]
  cases hnear : near.root? with
  | none =>
    rw [Shape.root_eq_none] at hnear
    rw [Shape.items_toward_eq_nil.mpr hnear, List.nil_append]
    apply h.climb_from (Shape.root_join _ _ _ _ _)
    have hlength := h.length_le
    have hpath := Path.length_le_items p (.join side near e b far)
    omega
  | some c =>
    obtain ⟨x, d, hwalk, hlast⟩ := Tree.Forms.outermost (p := ⟨e, b, side, far⟩ :: p) side.flip h
      hnear
    simp only [hwalk]
    rw [Shape.items_toward_flip, List.getLast?_reverse] at hlast
    rw [List.head?_append, hlast]
    rfl

/-- The height that is measured is the height of the shape. -/
theorem height_within {limit : Nat} (h : t.Forms (p.plug s)) (hlimit : s.height ≤ limit) :
    t.heightWithin limit s.root? = .ok s.height := by
  induction s generalizing p limit with
  | leaf => cases limit <;> rfl
  | node l e b r ihl ihr =>
    rw [Shape.height] at hlimit
    obtain ⟨limit, rfl⟩ : ∃ n, limit = n + 1 := Nat.exists_eq_succ_of_ne_zero (by omega)
    have hjoin : t.Forms (p.plug (.join .left l e b r)) := h
    have hnode := hjoin.node
    have hl : t.heightWithin limit l.root? = .ok l.height :=
      ihl (p := ⟨e, b, .left, r⟩ :: p) h (by omega)
    have hr : t.heightWithin limit r.root? = .ok r.height :=
      ihr (p := ⟨e, b, .right, l⟩ :: p) h (by omega)
    simp only [Shape.root_node, Tree.heightWithin, hnode, Node.sided]
    change (do
      let left ← t.heightWithin limit l.root?
      let right ← t.heightWithin limit r.root?
      return 1 + max left right) = _
    rw [hl, hr]
    rfl

end Tree.Forms

end VersionedIndex
