import VersionedIndex.Proofs.Tree.Holding

namespace VersionedIndex

open TreeAction

def Path.leaning (p : Path) : Nat := (p.map fun f => f.balance.toInt.natAbs).sum

/-- What a node does whose near subtree `s` has become two lower than the far one. After the
rotation it is as high as it was before `s` had shrunk, and the way up ends, or it is one lower, and
the way up goes on from its new top. -/
theorem shrink_rotation_becomes (p : Path) (side : Side) {s far : Shape} {x : Item} {b : Int8}
    {h : Nat} (goOn : NodeId → TreeAction Unit) (hs : s.Balanced) (hh : s.height = h)
    (hfar : far.Balanced) (hf : far.height = h + 2) :
    ∃ (T : Shape) (top : NodeId), T.Balanced ∧ T.root? = some top ∧
      T.items = (Shape.join side s x b far).items ∧
      (T.height = h + 3 ∨ T.height = h + 2) ∧
      ∀ T' : Shape, (T.height = h + 3 → T' = p.plug T) →
        (T.height = h + 2 → Becomes (goOn top) (p.plug T) () T') →
        Becomes (do
          let pivot ← Action.examine (·.existingChild x.id side.flip)
          let balance ← Action.examine (·.balance pivot)
          if balance * side.sign ≥ 0 then do
            rotateSingle x.id side.flip pivot
            if balance = 0 then do
              setBalance x.id side.sign
              setBalance pivot (-side.sign)
            else do
              setBalance x.id 0
              setBalance pivot 0
              goOn pivot
          else do
            goOn (← rotateDouble x.id side.flip pivot))
          (p.plug (.join side s x b far)) () T' := by
  obtain rfl | ⟨outer, y, by', inner, rfl⟩ := far.eq_leaf_or_join side.flip
  · simp [Shape.height] at hf
  -- The rotation is made on the far side, so the tree is looked at from there.
  have hturn : Shape.join side s x b (.join side.flip outer y by' inner) =
      .join side.flip (.join side.flip outer y by' inner) x b s := (Shape.join_flip _ _ _ _ _).symm
  rw [hturn]
  have hread (t : Tree)
      (ht : t.Forms (p.plug (.join side.flip (.join side.flip outer y by' inner) x b s))) :
      t.existingChild x.id side.flip = .ok y.id ∧ t.balance y.id = .ok by' := by
    refine ⟨Tree.existing_child_of_cell ht.cell (by simp), ?_⟩
    exact Tree.Forms.balance (p := ⟨x, b, side.flip, s⟩ :: p) ht
  rw [Shape.join_flip, Shape.balanced_join] at hfar
  rw [Shape.height_join] at hf
  obtain ⟨hlean, hinner, houter⟩ := hfar
  have hrotate := rotate_single_becomes p side.flip outer inner s x y b by'
  have hsingle (α β : Int8) := Shape.items_rotate_single side.flip outer inner s x y α β b by'
  rcases hlean with ⟨hb, he⟩ | ⟨hb, he⟩ | ⟨hb, he⟩
  · -- An even pivot: a single rotation that keeps the height.
    have hi : inner.height = h + 1 := by omega
    refine ⟨.join side.flip outer y (-side.sign) (.join side.flip inner x side.sign s), y.id, ?_,
      Shape.root_join _ _ _ _ _, hsingle _ _, Or.inl ?_, ?_⟩
    · rw [Shape.join_flip, Shape.join_flip, Shape.balanced_join, Shape.balanced_join,
        Shape.height_join, hh, ← he, hi, max_eq_right (Nat.le_succ _), add_comm 1]
      exact ⟨leans_neg_sign _ _, ⟨leans_sign _ _, hs, hinner⟩, houter⟩
    · simp only [Shape.height_join]
      omega
    · intro T' hsame _
      rw [hsame (by simp only [Shape.height_join]; omega)]
      refine Becomes.examine (fun t ht => (hread t ht).1) (Becomes.examine
        (fun t ht => (hread t ht).2) ?_)
      rw [if_pos (by rw [hb]; decide), if_pos (Side.mul_sign_eq_zero.mp hb)]
      apply hrotate.bind
      exact (set_balance_far_becomes p side.flip outer inner s x y by' b side.sign).bind
        (set_balance_becomes p side.flip outer y by' (-side.sign) _)
  · -- A pivot that leans outward: a single rotation that lowers the tree.
    have hi : inner.height = h := by omega
    have hne : by' ≠ 0 := by
      rintro rfl
      exact absurd hb (by cases side <;> decide)
    refine ⟨.join side.flip outer y 0 (.join side.flip inner x 0 s), y.id, ?_,
      Shape.root_join _ _ _ _ _, hsingle _ _, Or.inr ?_, ?_⟩
    · rw [Shape.join_flip, Shape.join_flip, Shape.balanced_join, Shape.balanced_join,
        Shape.height_join, hh, he, hi, max_self, add_comm 1]
      exact ⟨leans_zero _ _, ⟨leans_zero _ _, hs, hinner⟩, houter⟩
    · simp only [Shape.height_join]
      omega
    · intro T' _ hgo
      have hgo := hgo (by simp only [Shape.height_join]; omega)
      refine Becomes.examine (fun t ht => (hread t ht).1) (Becomes.examine
        (fun t ht => (hread t ht).2) ?_)
      rw [if_pos (by rw [hb]; decide), if_neg hne]
      apply hrotate.bind
      apply (set_balance_far_becomes p side.flip outer inner s x y by' b 0).bind
      exact (set_balance_becomes p side.flip outer y by' 0 _).bind hgo
  · -- A pivot that leans inward: a double rotation.
    have ho : outer.height = h := by omega
    obtain rfl | ⟨near', z, bz, far', rfl⟩ := inner.eq_leaf_or_join side.flip
    · simp [Shape.height] at he
    have hbal := Shape.balanced_rotate_double (x := x) (y := y) houter hs hinner ho hh (by omega)
    refine ⟨_, z.id, hbal.1, Shape.root_join _ _ _ _ _,
      Shape.items_rotate_double _ _ _ _ _ _ _ _ _ _ _ _ _ _, Or.inr hbal.2, ?_⟩
    intro T' _ hgo
    refine Becomes.examine (fun t ht => (hread t ht).1) (Becomes.examine
      (fun t ht => (hread t ht).2) ?_)
    rw [if_neg (by rw [hb]; decide)]
    exact (rotate_double_becomes p side.flip outer near' far' s x y z b by' bz).bind (hgo hbal.2)

/-- Restoring the balance above a subtree that has shrunk by one: the items keep their order and
the tree is balanced again. -/
theorem retrace_shrink_becomes {steps : Nat} {p : Path} {s : Shape} {h : Nat}
    (hsteps : p.leaning < steps) (hs : s.Balanced) (hh : s.height = h)
    (hp : Path.Balanced (h + 1) p) :
    ∃ T : Shape, T.Balanced ∧ T.items = (p.plug s).items ∧
      Becomes (retraceShrink steps (p.parent? none) p.side) (p.plug s) () T := by
  -- The induction follows the path upward; a step that goes on leaves a node that leant, which the
  -- number of steps is measured by.
  induction p generalizing steps s h with
  | nil =>
    refine ⟨s, hs, rfl, ?_⟩
    cases steps <;> exact Becomes.pure _ _
  | cons f p ih =>
    obtain ⟨x, b, side, far⟩ := f
    obtain ⟨hlean, hfar, hrest⟩ := hp
    dsimp only at hlean hfar hrest
    obtain ⟨steps, rfl⟩ : ∃ n, steps = n + 1 := Nat.exists_eq_succ_of_ne_zero (by omega)
    have hlower (hb : b ≠ 0) : Path.leaning p < steps := by
      have hpos : 0 < b.toInt.natAbs := by
        rw [Int.natAbs_pos]
        exact fun hz => hb (Int8.toInt_inj.mp hz)
      simp only [Path.leaning, List.map_cons, List.sum_cons] at hsteps ⊢
      omega
    have hgo {T : Shape} {top : NodeId} (hT : T.Balanced) (htop : T.root? = some top)
        (hrest : Path.Balanced (T.height + 1) p) (hb : b ≠ 0) :
        ∃ T' : Shape, T'.Balanced ∧ T'.items = (Path.plug p T).items ∧
          Becomes (do
            let side ← Action.examine (·.sideOf top)
            let parent ← Action.examine (·.parent top)
            retraceShrink steps parent side) (Path.plug p T) () T' := by
      obtain ⟨T', hT', hitems, hbecomes⟩ := ih (hlower hb) hT rfl hrest
      refine ⟨T', hT', hitems, ?_⟩
      exact Becomes.examine (fun t ht => ht.side_of htop)
        (Becomes.examine (fun t ht => ht.parent_of htop) hbecomes)
    simp only [Path.parent?, Path.side, Path.plug, retraceShrink]
    have hread (t : Tree) (ht : t.Forms (Path.plug p (.join side s x b far))) :
        t.balance x.id = .ok b := ht.balance
    have hset (b' : Int8) := set_balance_becomes p side s x b b' far
    have hitems (b' : Int8) := Path.items_plug_congr (p := p)
      (Shape.items_join_congr side x b' b (rfl : s.items = s.items) (rfl : far.items = far.items))
    rcases hlean with ⟨hb, he⟩ | ⟨hb, he⟩ | ⟨hb, he⟩
    · -- The node was even: it leans now and is as high as before.
      refine ⟨Path.plug p (.join side s x side.sign far), ?_, hitems _, Becomes.examine hread ?_⟩
      · rw [Path.balanced_plug, Shape.balanced_join, Shape.height_join, hh, ← he,
          max_eq_right (Nat.le_succ _)]
        refine ⟨⟨leans_sign _ _, hs, hfar⟩, ?_⟩
        rwa [← he, max_self] at hrest
      · rw [if_neg (by rw [hb]; decide), if_pos hb]
        exact hset _
    · -- The node was leaning the other way: it needs a rotation.
      obtain ⟨T, top, hT, htop, hTitems, hheight, hrotation⟩ := shrink_rotation_becomes p side
        (x := x) (b := b) (fun top => do
          let side ← Action.examine (·.sideOf top)
          let parent ← Action.examine (·.parent top)
          retraceShrink steps parent side) hs hh hfar he
      have hstart {T' : Shape} {k : Int8 → TreeAction Unit}
          (hk : Becomes (k b) (Path.plug p (.join side s x b far)) () T') :
          Becomes (Action.examine (·.balance x.id) >>= k) (Path.plug p (.join side s x b far)) () T' :=
        Becomes.examine hread hk
      rw [he, max_eq_right (Nat.le_succ _), add_comm] at hrest
      have h1 : b * side.sign ≠ -1 := by rw [hb]; decide
      have h0 : b * side.sign ≠ 0 := by rw [hb]; decide
      rcases hheight with hheight | hheight
      · refine ⟨Path.plug p T, ?_, Path.items_plug_congr hTitems, hstart ?_⟩
        · rw [Path.balanced_plug, hheight]
          exact ⟨hT, hrest⟩
        · rw [if_neg h1, if_neg h0, if_pos hb]
          exact hrotation _ (fun _ => rfl) fun hlow => absurd (hheight.symm.trans hlow) (by omega)
      · obtain ⟨T', hT', hT'items, hbecomes⟩ := hgo hT htop (by rwa [hheight])
          (by rintro rfl; exact h0 (Side.mul_sign_eq_zero.mpr rfl))
        refine ⟨T', hT', hT'items.trans (Path.items_plug_congr hTitems), hstart ?_⟩
        rw [if_neg h1, if_neg h0, if_pos hb]
        exact hrotation _ (fun hhigh => absurd (hheight.symm.trans hhigh) (by omega))
          fun _ => hbecomes
    · -- The node was leaning this way: it is even now and one lower.
      have hf : far.height = h := (Nat.succ.inj he).symm
      have hheight : (Shape.join side s x 0 far).height = h + 1 := by
        rw [Shape.height_join, hh, hf, max_self, add_comm]
      obtain ⟨T, hT, hTitems, hbecomes⟩ := hgo (T := .join side s x 0 far)
        (Shape.balanced_join.mpr ⟨by rw [hh, hf]; exact leans_zero _ _, hs, hfar⟩)
        (Shape.root_join _ _ _ _ _)
        (by rw [hheight]; rwa [hf, max_eq_left (Nat.le_succ _), add_comm] at hrest)
        (by rintro rfl; exact absurd hb (by cases side <;> decide))
      refine ⟨T, hT, hTitems.trans (hitems 0), Becomes.examine hread ?_⟩
      rw [if_pos hb]
      exact (hset 0).bind hbecomes

end VersionedIndex
