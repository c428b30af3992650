import VersionedIndex.Proofs.Tree.Growth
import VersionedIndex.Proofs.Tree.Walk
import VersionedIndex.Index.Insert

namespace VersionedIndex

namespace Index

variable {ix : Index} {see : Option Visibility} {t : Tree} {v : Version} {T : Shape}

/-- `motive` is kept by each turn of the way down for `v`: it speaks of a place in the tree and of
whether row ids are compared from there on. -/
def KeptByTurns (ix : Index) (see : Option Visibility) (t : Tree) (v : Version) (T : Shape)
    (motive : Path → Bool → Prop) : Prop :=
  ∀ (p : Path) (left : Shape) (e : Item) (b : Int8) (right : Shape) (useRowId useRowId' : Bool)
    (order : Ordering), T = p.plug (.node left e b right) → motive p useRowId →
    ix.compareAt see t v e.id useRowId = .ok (order, useRowId') →
    (order = .lt → motive (⟨e, b, .left, right⟩ :: p) useRowId') ∧
    (order = .gt → motive (⟨e, b, .right, left⟩ :: p) useRowId')

/-- Nothing need be known of a place to follow the way down. -/
theorem kept_by_turns_trivial (ix : Index) (see : Option Visibility) (t : Tree) (v : Version)
    (T : Shape) : ix.KeptByTurns see t v T fun _ _ => True := by
  intro p left e b right useRowId useRowId' order _ _ _
  exact ⟨fun _ => trivial, fun _ => trivial⟩

/-- Unless the versions compare equal, the way down goes on to the child on the side of the turn, or it
ends there if there is none. -/
theorem place_from_turn {steps : Nat} {id : NodeId} {useRowId useRowId' : Bool} {order : Ordering}
    {side : Side} {child? : Option NodeId}
    (hcompare : ix.compareAt see t v id useRowId = .ok (order, useRowId'))
    (hside : order = .lt ∧ side = .left ∨ order = .gt ∧ side = .right)
    (hchild : t.child id side = .ok child?) :
    ix.placeFrom see t v (steps + 1) id useRowId =
      child?.elim (.ok (id, side)) fun child => ix.placeFrom see t v steps child useRowId' := by
  rw [placeFrom, hcompare]
  change (if order = .eq then _ else _) = _
  rcases hside with ⟨rfl, rfl⟩ | ⟨rfl, rfl⟩
  · rw [if_neg (by decide), if_pos rfl, hchild]
    cases child? <;> rfl
  · rw [if_neg (by decide), if_neg (by decide), hchild]
    cases child? <;> rfl

/-- The way down ends at a free place, of which everything holds that each turn keeps. -/
theorem place_from_free {motive : Path → Bool → Prop} (h : t.Forms T)
    (hturns : ix.KeptByTurns see t v T motive) {steps : Nat} {p : Path} {s : Shape} {id : NodeId}
    {useRowId : Bool} (hT : T = p.plug s) (hs : s.root? = some id) (hp : motive p useRowId)
    {parent : NodeId} {side : Side}
    (hplace : ix.placeFrom see t v steps id useRowId = .ok (parent, side)) :
    ∃ (f : Frame) (q : Path) (useRowId' : Bool), T = Path.plug (f :: q) .leaf ∧
      f.item.id = parent ∧ f.side = side ∧ motive (f :: q) useRowId' := by
  -- By induction on the steps: the path grows by the turn, and `motive` goes along with it.
  induction steps generalizing p s id useRowId with
  | zero => simp [placeFrom] at hplace
  | succ steps ih =>
    cases s with
    | leaf => simp at hs
    | node left e b right =>
      obtain rfl : e.id = id := Option.some.inj hs
      cases hcompare : ix.compareAt see t v e.id useRowId with
      | error err =>
        rw [placeFrom, hcompare] at hplace
        cases hplace
      | ok result =>
        obtain ⟨order, useRowId'⟩ := result
        obtain ⟨hlt, hgt⟩ := hturns p left e b right useRowId useRowId' order hT hp hcompare
        have hgoOn (side' : Side) {near far : Shape} (hnode : T = p.plug (.join side' near e b far))
            (hside : order = .lt ∧ side' = .left ∨ order = .gt ∧ side' = .right)
            (hmotive : motive (⟨e, b, side', far⟩ :: p) useRowId') :
            ∃ (f : Frame) (q : Path) (useRowId' : Bool), T = Path.plug (f :: q) .leaf ∧
              f.item.id = parent ∧ f.side = side ∧ motive (f :: q) useRowId' := by
          rw [place_from_turn hcompare hside (Tree.Forms.child_near (hnode ▸ h))] at hplace
          cases hnear : near.root? with
          | none =>
            rw [hnear] at hplace
            cases hplace
            rw [Shape.root_eq_none] at hnear
            exact ⟨_, p, useRowId', hnear ▸ hnode, rfl, rfl, hmotive⟩
          | some child =>
            rw [hnear] at hplace
            exact ih (p := ⟨e, b, side', far⟩ :: p) hnode hnear hmotive hplace
        cases order with
        | lt => exact hgoOn .left hT (Or.inl ⟨rfl, rfl⟩) (hlt rfl)
        | gt => exact hgoOn .right hT (Or.inr ⟨rfl, rfl⟩) (hgt rfl)
        | eq =>
          rw [placeFrom, hcompare] at hplace
          change (do throw (← ix.conflict see t e.id)) = _ at hplace
          cases hconflict : ix.conflict see t e.id with
          | error err =>
            rw [hconflict] at hplace
            cases hplace
          | ok err =>
            rw [hconflict] at hplace
            cases hplace

/-- What an insert leaves: a tree that has gained the version at a free place, or the same tree, if
the way down finds no place. It starts without row ids in a unique index, unless a key column is
NULL. -/
theorem insert_outcome {motive : Path → Bool → Prop} (h : t.Holds T) (hroom : t.HasRoom)
    (hturns : ix.KeptByTurns see t v T motive)
    (hstart : motive [] (!ix.unique || ix.order.hasNull v.data)) :
    (∃ root err, t.root = some root ∧ ix.placeFrom see t v (2 * t.slots.size + 2) root
      (!ix.unique || ix.order.hasNull v.data) = .error err ∧ ix.insert see v t = .error err t) ∨
    (∃ (t' : Tree) (p : Path) (useRowId : Bool), ix.insert see v t = .ok () t' ∧
      T = p.plug .leaf ∧ t.Gains v p.before p.after t' ∧ motive p useRowId) := by
  have hget : (get : TreeAction Tree) t = .ok t t := rfl
  have hroot := h.root
  cases hT : T.root? with
  | none =>
    obtain rfl := Shape.root_eq_none.mp hT
    obtain ⟨t', hplant, hgains⟩ := plant_gains h hroom v
    refine Or.inr ⟨t', [], _, ?_, rfl, hgains, hstart⟩
    simp only [insert]
    rw [Action.bind_of_ok hget, hroot]
    exact hplant
  | some root =>
    rw [hT] at hroot
    -- The way down passes no node twice, so twice the number of slots is enough steps.
    cases hplace : ix.placeFrom see t v (2 * t.slots.size + 2) root
        (!ix.unique || ix.order.hasNull v.data) with
    | error err =>
      refine Or.inl ⟨root, err, hroot, hplace, ?_⟩
      simp only [insert]
      rw [Action.bind_of_ok hget, hroot]
      exact Action.bind_of_error (Action.examine_of_error hplace)
    | ok found =>
      obtain ⟨parent, side⟩ := found
      obtain ⟨f, q, useRowId, hfree, rfl, rfl, hmotive⟩ :=
        place_from_free h.forms hturns (p := []) rfl hT hstart hplace
      subst hfree
      obtain ⟨t', hattach, hgains⟩ := attach_gains h hroom v
      refine Or.inr ⟨t', f :: q, useRowId, ?_, rfl, hgains, hmotive⟩
      have hexamine : Action.examine (fun t : Tree => ix.placeFrom see t v (2 * t.slots.size + 2) root
          (!ix.unique || ix.order.hasNull v.data)) t = .ok (f.item.id, f.side) t :=
        Action.examine_of_ok hplace
      simp only [insert]
      rw [Action.bind_of_ok hget, hroot]
      exact (Action.bind_of_ok hexamine).trans hattach

end Index

end VersionedIndex
