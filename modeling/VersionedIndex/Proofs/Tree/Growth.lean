import VersionedIndex.Proofs.Tree.Holding

namespace VersionedIndex

open TreeAction

theorem Becomes.discard {α : Type} {act : TreeAction α} {s s' : Shape} {a : α}
    (h : Becomes act s a s') : Becomes (Functor.discard act) s () s' := by
  intro t rest hr ht
  obtain ⟨slots, hact, hslots⟩ := h t rest hr ht
  refine ⟨slots, ?_, hslots⟩
  change EStateM.map (fun _ => ()) act t = _
  simp only [EStateM.map, hact]

/-- What a node does whose near subtree `s` has become two higher than the far one: one rotation
makes it as high as it was before `s` had grown. -/
theorem growth_rotation_becomes (p : Path) {side : Side} {s far : Shape} {x : Item} {b : Int8}
    {h : Nat} (hs : s.Balanced) (hh : s.height = h + 2) (htilt : s.Tilted) (hfar : far.Balanced)
    (hf : far.height = h) :
    ∃ T : Shape, T.Balanced ∧ T.height = h + 2 ∧ T.items = (Shape.join side s x b far).items ∧
      Becomes (do
        let pivot ← Action.examine (·.existingChild x.id side)
        if (← Action.examine (·.balance pivot)) = -side.sign then do
          rotateSingle x.id side pivot
          setBalance x.id 0
          setBalance pivot 0
        else Functor.discard (rotateDouble x.id side pivot))
        (p.plug (.join side s x b far)) () (p.plug T) := by
  obtain rfl | ⟨outer, y, by', inner, rfl⟩ := s.eq_leaf_or_join side
  · simp [Shape.height] at hh
  have hread (t : Tree) (ht : t.Forms (p.plug (.join side (.join side outer y by' inner) x b far))) :
      t.existingChild x.id side = .ok y.id ∧ t.balance y.id = .ok by' := by
    refine ⟨Tree.existing_child_of_cell ht.cell (by simp), ?_⟩
    exact Tree.Forms.balance (p := ⟨x, b, side, far⟩ :: p) ht
  rw [Shape.balanced_join] at hs
  obtain ⟨hlean, houter, hinner⟩ := hs
  rw [Shape.height_join] at hh
  by_cases hb : by' = -side.sign
  · have ho : outer.height = inner.height + 1 := by
      rcases hlean with ⟨hl, -⟩ | ⟨hl, -⟩ | ⟨-, hl⟩
      · rw [Side.mul_sign_eq_zero.mp hl] at hb
        exact absurd hb (by cases side <;> decide)
      · exact absurd ((Side.mul_sign_eq_one.mp hl).symm.trans hb) (Side.sign_ne_neg side)
      · exact hl
    have hi : inner.height = h := by omega
    refine ⟨.join side outer y 0 (.join side inner x 0 far), ?_, ?_,
      Shape.items_rotate_single _ _ _ _ _ _ _ _ _ _, ?_⟩
    · simp only [Shape.balanced_join, Shape.height_join, hf, ho, hi, max_self]
      exact ⟨add_comm 1 h ▸ leans_zero _ _, houter, leans_zero _ _, hinner, hfar⟩
    · simp only [Shape.height_join, hf, ho, hi]
      omega
    · refine Becomes.examine (fun t ht => (hread t ht).1) (Becomes.examine
        (fun t ht => (hread t ht).2) ?_)
      rw [if_pos hb]
      apply (rotate_single_becomes p side outer inner far x y b by').bind
      exact (set_balance_far_becomes p side outer inner far x y by' b 0).bind
        (set_balance_becomes p side outer y by' 0 _)
  · have hi : inner.height = outer.height + 1 := by
      rcases hlean with ⟨hl, he⟩ | ⟨-, hl⟩ | ⟨hl, -⟩
      · rw [Side.mul_sign_eq_zero] at hl
        have hleaf : outer = .leaf ∧ inner = .leaf := by
          cases side with
          | left => exact htilt.resolve_left fun hne => hne hl
          | right => exact (htilt.resolve_left fun hne => hne hl).symm
        rw [hleaf.1, hleaf.2] at hh
        simp [Shape.height] at hh
      · exact hl
      · exact absurd (Side.mul_sign_eq_neg_one.mp hl) hb
    obtain rfl | ⟨near', z, bz, far', rfl⟩ := inner.eq_leaf_or_join side
    · simp [Shape.height] at hi
    have hbal := Shape.balanced_rotate_double (x := x) (y := y) houter hfar hinner
      (show outer.height = h by omega) hf (by omega)
    refine ⟨_, hbal.1, hbal.2, Shape.items_rotate_double _ _ _ _ _ _ _ _ _ _ _ _ _ _, ?_⟩
    refine Becomes.examine (fun t ht => (hread t ht).1) (Becomes.examine
      (fun t ht => (hread t ht).2) ?_)
    rw [if_neg hb]
    exact (rotate_double_becomes p side outer near' far' far x y z b by' bz).discard

/-- Restoring the balance above a subtree that has grown by one: the items keep their order and the
tree is balanced again. -/
theorem retrace_growth_becomes {steps : Nat} {p : Path} {f : Frame} {s : Shape} {h : Nat}
    (hsteps : p.length < steps) (hs : s.Balanced) (hh : s.height = h + 1) (htilt : s.Tilted)
    (hp : Path.Balanced h (f :: p)) :
    ∃ T : Shape, T.Balanced ∧ T.items = (Path.plug (f :: p) s).items ∧
      Becomes (retraceGrowth steps f.item.id f.side) (Path.plug (f :: p) s) () T := by
  -- The induction goes up the path; only an even node passes the growth on.
  induction steps generalizing p f s h with
  | zero => exact absurd hsteps (Nat.not_lt_zero _)
  | succ steps ih =>
    obtain ⟨x, b, side, far⟩ := f
    obtain ⟨hlean, hfar, hrest⟩ := hp
    simp only [retraceGrowth, Path.plug]
    dsimp only at hlean hfar hrest
    have hread (t : Tree) (ht : t.Forms (p.plug (.join side s x b far))) :
        t.balance x.id = .ok b := ht.balance
    rcases hlean with ⟨hb, he⟩ | ⟨hb, he⟩ | ⟨hb, he⟩
    · -- The node was even: it leans now, and the growth goes on above it.
      have hjoin : (Shape.join side s x (-side.sign) far).Balanced := by
        rw [Shape.balanced_join, hh, ← he]
        exact ⟨leans_neg_sign _ _, hs, hfar⟩
      have hheight : (Shape.join side s x (-side.sign) far).height = 1 + max h far.height + 1 := by
        rw [Shape.height_join, hh]
        omega
      have hitems : (Shape.join side s x (-side.sign) far).items = (Shape.join side s x b far).items :=
        Shape.items_join_congr side x _ _ rfl rfl
      have htilted : (Shape.join side s x (-side.sign) far).Tilted := by
        cases side <;> exact Or.inl (by decide)
      have hparent (t : Tree) (ht : t.Forms (p.plug (.join side s x (-side.sign) far))) :
          t.parent x.id = .ok (p.parent? none) := ht.parent
      have hstart {T : Shape} {k : Int8 → TreeAction Unit}
          (hk : Becomes (k b) (p.plug (.join side s x b far)) () T) :
          Becomes (Action.examine (·.balance x.id) >>= k) (p.plug (.join side s x b far)) () T :=
        Becomes.examine hread hk
      cases p with
      | nil =>
        refine ⟨_, hjoin, hitems, hstart ?_⟩
        rw [if_neg (by rw [hb]; decide), if_pos hb]
        apply (set_balance_becomes [] side s x b (-side.sign) far).bind
        exact Becomes.examine hparent (Becomes.pure _ _)
      | cons f p =>
        obtain ⟨T, hT, hTitems, hbecomes⟩ := ih (Nat.lt_of_succ_lt_succ hsteps) hjoin hheight
          htilted hrest
        refine ⟨T, hT, hTitems.trans (Path.items_plug_congr hitems), hstart ?_⟩
        rw [if_neg (by rw [hb]; decide), if_pos hb]
        apply (set_balance_becomes (f :: p) side s x b (-side.sign) far).bind
        refine Becomes.examine hparent (Becomes.examine (fun t ht => ?_) hbecomes)
        exact ht.side_of (Shape.root_join _ _ _ _ _)
    · -- The node was leaning the other way: it is even now and as high as before.
      refine ⟨p.plug (.join side s x 0 far), ?_, ?_, Becomes.examine hread ?_⟩
      · rw [Path.balanced_plug, Shape.balanced_join, Shape.height_join, hh, he]
        refine ⟨⟨leans_zero _ _, hs, hfar⟩, ?_⟩
        rw [max_self]
        rwa [he, max_eq_right (Nat.le_succ _)] at hrest
      · exact Path.items_plug_congr (Shape.items_join_congr side x _ _ rfl rfl)
      · rw [if_pos hb]
        exact set_balance_becomes p side s x b 0 far
    · -- The node was leaning this way already: one rotation brings back the old height.
      obtain ⟨T, hT, hTheight, hTitems, hbecomes⟩ := growth_rotation_becomes p (x := x) (b := b) hs
        (hh.trans (congrArg (· + 1) he)) htilt hfar rfl
      refine ⟨p.plug T, ?_, Path.items_plug_congr hTitems, Becomes.examine hread ?_⟩
      · rw [Path.balanced_plug, hTheight]
        refine ⟨hT, ?_⟩
        rwa [he, max_eq_left (Nat.le_succ _), add_comm] at hrest
      · rw [if_neg (by rw [hb]; decide), if_neg (by rw [hb]; decide), if_pos hb]
        exact hbecomes

/-- Hanging a tree at the free lower end of a path. -/
theorem hang_effect (f : Frame) (p : Path) (s : Shape) (top r : Option NodeId) :
    Effect (setChild f.item.id f.side s.root?) r
      (s.cells top + (Path.plug (f :: p) .leaf).cells none) () r
      ((Path.plug (f :: p) s).cells none) := by
  have hset := (set_child_effect f.item.id f.side (Node.sided f.side f.item.version none
    f.sibling.root? (Path.parent? none p) f.balance) s top r).frame
      (f.sibling.cells (some f.item.id) + Path.cells none (some f.item.id) p)
  rw [Node.sided_with_near] at hset
  refine hset.of_eq ?_ ?_
  · simp only [Path.cells_plug, Path.cells, Shape.cells_leaf, Shape.root_leaf]
    abel
  · simp only [Path.cells_plug, Path.cells, Path.parent?]
    abel

/-- The invariant after a new node has been linked in, given what it gains. -/
theorem Tree.Holds.of_gain {t : Tree} {v : Version} {s T : Shape} {before after : List Item}
    {slots : Array Node} {dead : Multiset Cell} (h : t.Holds s) (hitems : s.items = before ++ after)
    (hT : T.Balanced) (hTitems : T.items = before ++ ⟨(t.allocate v).1, v⟩ :: after)
    (hslots : cellsOf slots = T.cells none + dead)
    (hids : dead.map Prod.fst = ↑(t.retired.toList ++ (t.allocate v).2.free.toList))
    (hdead : ∀ c ∈ dead, c.2 = c.2.released) (hfits : slots.size ≤ Tree.nodeIdLimit) :
    t.Gains v before after
      ({ (t.allocate v).2 with root := T.root?, slots }.updateElementCount 1) := by
  refine ⟨T, ⟨rfl, hT, ⟨dead, hslots, ?_, hdead⟩, ?_, ?_, hfits⟩, hTitems, ?_, ?_, rfl⟩
  · simpa only [Tree.updateElementCount, Tree.retired_allocate] using hids
  · intro row id hbound
    simp only [Tree.updateElementCount, Tree.binding_allocate, Binding.node?_insert] at hbound
    split_ifs at hbound with hrow
    · refine ⟨⟨(t.allocate v).1, v⟩, by simp [hTitems], Option.some.inj hbound, hrow.symm⟩
    · obtain ⟨e, he, heid, herow⟩ := h.bound row id hbound
      rw [hitems, List.mem_append] at he
      refine ⟨e, ?_, heid, herow⟩
      rw [hTitems, List.mem_append, List.mem_cons]
      tauto
  · have hlength : T.items.length ≤ Tree.nodeIdLimit := by
      rw [← T.card_cells none]
      apply le_trans (Multiset.card_le_card (Multiset.le_add_right _ dead))
      rw [← hslots, card_cellsOf]
      exact hfits
    have hcount : T.items.length = s.items.length + 1 := by
      rw [hTitems, hitems]
      simp only [List.length_append, List.length_cons]
      omega
    have hlimit := Tree.nodeIdLimit_lt
    simp only [Tree.updateElementCount, Tree.count_allocate, h.count]
    omega
  · simp only [Tree.updateElementCount, Tree.binding_allocate]
  · simp only [Tree.updateElementCount, Tree.retired_allocate]

/-- Attaching a node at a free place of a tree. -/
theorem attach_gains {t : Tree} {p : Path} {f : Frame} (h : t.Holds (Path.plug (f :: p) .leaf))
    (hroom : t.HasRoom) (v : Version) :
    ∃ t' : Tree, attach v f.item.id f.side t = .ok () t' ∧
      t.Gains v (Path.before (f :: p)) (Path.after (f :: p)) t' := by
  obtain ⟨dead, hcells, hids, hdead, hfits⟩ := Tree.cellsOf_allocate h hroom v
  let new : Shape := .node .leaf ⟨(t.allocate v).1, v⟩ 0 .leaf
  have hroot : (t.allocate v).2.root = (Path.plug (f :: p) new).root? := by
    rw [Tree.root_allocate, h.root, Path.root_plug, Path.root_plug]
    rfl
  obtain ⟨linked, hlink, hlinked⟩ := hang_effect f p new none _ (t.allocate v).2 dead hroot hcells
  have hlength : (Path.plug (f :: p) new).items.length ≤ linked.size := by
    rw [← card_cellsOf, hlinked, Multiset.card_add, Shape.card_cells]
    exact Nat.le_add_right _ _
  obtain ⟨hleaf, hpath⟩ := Path.balanced_plug.mp h.balanced
  have hsteps : p.length < linked.size + 2 := by
    have hpath := Path.length_le_items (f :: p) new
    rw [List.length_cons] at hpath
    omega
  obtain ⟨T, hT, hTitems, hretrace⟩ := retrace_growth_becomes (f := f) (s := new) (h := 0) hsteps
    ⟨Or.inl ⟨rfl, rfl⟩, trivial, trivial⟩ rfl (Or.inr ⟨rfl, rfl⟩) hpath
  let t' : Tree := { (t.allocate v).2 with
    root := (Path.plug (f :: p) new).root?, slots := linked }
  obtain ⟨slots, hrun, hslots⟩ := hretrace t' dead rfl hlinked
  have hitems : T.items = Path.before (f :: p) ++ ⟨(t.allocate v).1, v⟩ :: Path.after (f :: p) := by
    rw [hTitems, Path.items_plug]
    simp [new, Shape.items]
  have hsize : slots.size = (t.allocate v).2.slots.size := by
    rw [← card_cellsOf, hslots, ← card_cellsOf, hcells, Multiset.card_add, Multiset.card_add,
      Multiset.card_add, Multiset.card_singleton, Shape.card_cells, Shape.card_cells, hitems,
      Path.items_plug]
    simp only [Shape.items, List.append_nil, List.length_append, List.length_cons]
    omega
  refine ⟨_, ?_, h.of_gain (by rw [Path.items_plug]; simp [Shape.items]) hT hitems hslots hids hdead
    (hsize ▸ hfits)⟩
  have hallocate : allocate v t = .ok (t.allocate v).1 (t.allocate v).2 := rfl
  simp only [attach]
  rw [Action.bind_of_ok hallocate]
  apply (Action.bind_of_ok hlink).trans
  change (retraceGrowth (linked.size + 2) f.item.id f.side >>= fun _ => updateElementCount 1) t' = _
  rw [Action.bind_of_ok hrun]
  rfl

/-- Making a version the only one of an empty tree. -/
theorem plant_gains {t : Tree} (h : t.Holds .leaf) (hroom : t.HasRoom) (v : Version) :
    ∃ t' : Tree, plant v t = .ok () t' ∧ t.Gains v [] [] t' := by
  obtain ⟨dead, hcells, hids, hdead, hfits⟩ := Tree.cellsOf_allocate h hroom v
  have hbalanced : (Shape.node .leaf ⟨(t.allocate v).1, v⟩ 0 .leaf).Balanced :=
    ⟨Or.inl ⟨rfl, rfl⟩, trivial, trivial⟩
  refine ⟨_, ?_, h.of_gain rfl hbalanced rfl hcells hids hdead hfits⟩
  rfl

end VersionedIndex
