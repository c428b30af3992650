import VersionedIndex.Index.Check
import VersionedIndex.Proofs.Tree.Avl

/-! Walks by successors over links that need not form a tree. When the children of the nodes that a
walk passes point back, it passes the nodes of a tree in order, unless a left link leads astray. -/

namespace VersionedIndex

namespace Tree

inductive Descends (t : Tree) (side : Side) : NodeId → NodeId → Prop
  | stop {id : NodeId} : t.child id side = .ok none → Descends t side id id
  | step {id c last : NodeId} :
    t.child id side = .ok (some c) → Descends t side c last → Descends t side id last

inductive Climbs (t : Tree) (side : Side) : NodeId → Option NodeId → Option NodeId → Prop
  | top {child : NodeId} : Climbs t side child none none
  | stop {child p : NodeId} {n : Node} :
    t.node p = .ok n → n.child side ≠ some child → Climbs t side child (some p) (some p)
  | step {child p : NodeId} {n : Node} {next : Option NodeId} :
    t.node p = .ok n → n.child side = some child → Climbs t side p n.parent next →
    Climbs t side child (some p) next

inductive Trail (t : Tree) : Option NodeId → List NodeId → Prop
  | ended : Trail t none []
  | step {id : NodeId} {next : Option NodeId} {rest : List NodeId} :
    t.successor id = .ok next → Trail t next rest → Trail t (some id) (id :: rest)

variable {t : Tree} {side : Side}

theorem child_eq_ok {id : NodeId} {child : Option NodeId} :
    t.child id side = .ok child ↔ ∃ n, t.node id = .ok n ∧ n.child side = child := by
  rw [Tree.child]
  cases t.node id <;> simp [Except.map]

theorem parent_eq_ok {id : NodeId} {parent : Option NodeId} :
    t.parent id = .ok parent ↔ ∃ n, t.node id = .ok n ∧ n.parent = parent := by
  rw [Tree.parent]
  cases t.node id <;> simp [Except.map]

theorem descends_of_outermost {steps depth depth' : Nat} {id last : NodeId}
    (h : t.outermostFrom side steps id depth = .ok (last, depth')) : t.Descends side id last := by
  induction steps generalizing id depth with
  | zero => cases h
  | succ steps ih =>
    rw [outermostFrom] at h
    cases hchild : t.child id side with
    | error e =>
      rw [hchild] at h
      cases h
    | ok child? =>
      rw [hchild] at h
      cases child? with
      | none =>
        cases h
        exact .stop hchild
      | some c => exact .step hchild (ih h)

theorem climbs_of_climb {steps : Nat} {child : NodeId} {parent next : Option NodeId}
    (h : t.climbFrom side steps child parent = .ok next) : t.Climbs side child parent next := by
  induction steps generalizing child parent with
  | zero =>
    cases parent with
    | none =>
      cases h
      exact .top
    | some p => cases h
  | succ steps ih =>
    cases parent with
    | none =>
      cases h
      exact .top
    | some p =>
      rw [climbFrom] at h
      cases hn : t.node p with
      | error e =>
        rw [hn] at h
        cases h
      | ok n =>
        simp only [hn] at h
        split at h
        · next hchild => exact .step hn hchild (ih h)
        · next hchild =>
          cases h
          exact .stop hn hchild

/-- Below a node with a right child the successor is the first node of that subtree, and else the walk
climbs. -/
theorem successor_cases {id : NodeId} {next : Option NodeId} (h : t.successor id = .ok next) :
    ∃ n, t.node id = .ok n ∧
      ((n.right = none ∧ t.Climbs .right id n.parent next) ∨
        ∃ c first, n.right = some c ∧ t.Descends .left c first ∧ next = some first) := by
  rw [successor, neighbour] at h
  cases hn : t.node id with
  | error e =>
    rw [hn] at h
    cases h
  | ok n =>
    refine ⟨n, rfl, ?_⟩
    simp only [hn, Node.child] at h
    cases hright : n.right with
    | none =>
      rw [hright] at h
      exact Or.inl ⟨rfl, climbs_of_climb h⟩
    | some c =>
      rw [hright] at h
      cases hwalk : t.outermost Side.right.flip c with
      | error e =>
        simp only [hwalk] at h
        cases h
      | ok found =>
        simp only [hwalk] at h
        cases h
        exact Or.inr ⟨c, found.1, rfl, descends_of_outermost hwalk, rfl⟩

namespace Trail

variable {start : Option NodeId} {l l' : List NodeId}

theorem of_ends {steps : Nat} (h : t.trailFrom steps start = (l, true)) : t.Trail start l := by
  induction steps generalizing start l with
  | zero => cases start <;> cases h; exact .ended
  | succ steps ih =>
    cases start with
    | none =>
      cases h
      exact .ended
    | some id =>
      rw [trailFrom] at h
      cases hnext : t.successor id with
      | error e =>
        rw [hnext] at h
        cases h
      | ok next =>
        simp only [hnext] at h
        obtain ⟨rfl, hends⟩ := Prod.mk.inj h
        exact .step hnext (ih (Prod.ext rfl hends))

theorem unique (h : t.Trail start l) (h' : t.Trail start l') : l = l' := by
  induction h generalizing l' with
  | ended =>
    cases h'
    rfl
  | step hnext _ ih =>
    cases h' with
    | step hnext' hrest' =>
      cases hnext.symm.trans hnext'
      rw [ih hrest']

theorem of_append {before : List NodeId} {id : NodeId} (h : t.Trail start (before ++ id :: l)) :
    t.Trail (some id) (id :: l) := by
  induction before generalizing start with
  | nil =>
    cases h with
    | step hnext hrest => exact .step hnext hrest
  | cons x before ih =>
    cases h with
    | step _ hrest => exact ih hrest

/-- A walk that came back to a node would not come to an end. -/
theorem nodup (h : t.Trail start l) : l.Nodup := by
  induction h with
  | ended => exact List.nodup_nil
  | @step id next rest hnext hrest ih =>
    refine List.nodup_cons.mpr ⟨fun hmem => ?_, ih⟩
    obtain ⟨before, after, rfl⟩ := List.append_of_mem hmem
    -- From the second visit on it goes the same way again, so it is longer than itself.
    have hsame := congrArg List.length (hrest.of_append.unique (.step hnext hrest))
    rw [List.length_cons, List.length_cons, List.length_append, List.length_cons] at hsame
    omega

end Trail

/-- The slot of an item holds its version. -/
theorem Forms.slot_of_mem {s : Shape} (h : t.Forms s) {e : Item} (he : e ∈ s.items) :
    ∃ n, t.slots[e.id]? = some n ∧ n.version = e.version := by
  obtain ⟨p, near, b, far, rfl⟩ := Shape.exists_path_of_mem .left he
  exact ⟨_, mem_cellsOf.mp h.cell, Node.sided_version _ _ _ _ _ _⟩

/-- A way down ends with a step from a node to its child. -/
theorem nodeAt_cons {way : List Side} {id : NodeId} : t.nodeAt? (side :: way) = some id ↔
    ∃ p, t.nodeAt? way = some p ∧ t.child p side = .ok (some id) := by
  simp only [nodeAt?, Option.bind_eq_bind, Option.bind_eq_some_iff, child_eq_ok]
  refine exists_congr fun p => and_congr_right fun _ => exists_congr fun n => and_congr_left fun _ => ?_
  exact ⟨fun hn => node_of_cell (mem_cellsOf.mpr hn), slot_of_node⟩

/-- A node other than the root is a child of a linked node. -/
theorem Linked.root_or_child {id : NodeId} (h : t.Linked id) :
    t.root = some id ∨ ∃ p side, t.Linked p ∧ t.child p side = .ok (some id) := by
  obtain ⟨way, hway⟩ := h
  cases way with
  | nil => exact Or.inl hway
  | cons side way =>
    obtain ⟨p, hp, hchild⟩ := nodeAt_cons.mp hway
    exact Or.inr ⟨p, side, ⟨way, hp⟩, hchild⟩

theorem Linked.of_root {id : NodeId} (h : t.root = some id) : t.Linked id := ⟨[], h⟩

theorem Linked.child {id c : NodeId} (h : t.Linked id) (hchild : t.child id side = .ok (some c)) :
    t.Linked c := by
  obtain ⟨way, hway⟩ := h
  exact ⟨side :: way, nodeAt_cons.mpr ⟨id, hway, hchild⟩⟩

/-- Nodes that are linked like those of a shape from the root on form the shape, if none of them occurs
twice. -/
theorem Forms.of_nodup {s : Shape} (hroot : t.root = s.root?)
    (hcells : ∀ c ∈ s.cells none, c ∈ cellsOf t.slots) (hnodup : (s.items.map (·.id)).Nodup) :
    t.Forms s := by
  have hids : ((s.cells none).map Prod.fst).Nodup := by
    rw [Shape.ids_cells]
    exact hnodup
  exact ⟨hroot, (Multiset.le_iff_subset (Multiset.Nodup.of_map _ hids)).mpr hcells⟩

/-- The nodes of a trail that starts in the subtree at `x`, below the given parent, are those of a
shape first, and then it goes on from where the way up from `x` ends. -/
def Begins (t : Tree) (x : NodeId) (parent : Option NodeId) (l : List NodeId) : Prop :=
  ∃ (s : Shape) (rest : List NodeId) (next : Option NodeId), s.root? = some x ∧
    l = s.items.map (·.id) ++ rest ∧ (∀ c ∈ s.cells parent, c ∈ cellsOf t.slots) ∧
    t.Climbs .right x parent next ∧ t.Trail next rest

/-- Behind the left subtree and the node itself the trail passes the right subtree, if there is one. -/
theorem begins_of_left {x : NodeId} {n : Node} (hn : t.node x = .ok n) {left : Shape}
    (hleft : left.root? = n.left) (hcells : ∀ c ∈ left.cells (some x), c ∈ cellsOf t.slots)
    {l : List NodeId} (htrail : t.Trail (some x) (x :: l))
    (hright : ∀ c first, n.right = some c → t.Descends .left c first → t.Trail (some first) l →
      t.Begins c (some x) l) :
    t.Begins x n.parent (left.items.map (·.id) ++ x :: l) := by
  have hbegins {right : Shape} {rest : List NodeId} {next : Option NodeId}
      (hroot : right.root? = n.right) (hl : l = right.items.map (·.id) ++ rest)
      (hcells' : ∀ c ∈ right.cells (some x), c ∈ cellsOf t.slots)
      (hclimbs : t.Climbs .right x n.parent next) (hrest : t.Trail next rest) :
      t.Begins x n.parent (left.items.map (·.id) ++ x :: l) := by
    refine ⟨.node left ⟨x, n.version⟩ n.balance right, rest, next, rfl, ?_, fun c hc => ?_, hclimbs,
      hrest⟩
    · rw [hl, Shape.items, List.map_append, List.map_cons, List.append_assoc, List.cons_append]
    · rw [Shape.cells, hleft, hroot, Multiset.mem_add, Multiset.mem_add, Multiset.mem_singleton] at hc
      rcases hc with (rfl | hc) | hc
      · exact mem_cellsOf.mpr (slot_of_node hn)
      · exact hcells c hc
      · exact hcells' c hc
  cases htrail with
  | step hnext hrest =>
    obtain ⟨n', hn', hcases⟩ := successor_cases hnext
    obtain rfl := Except.ok.inj (hn.symm.trans hn')
    rcases hcases with ⟨hnone, hclimbs⟩ | ⟨c, first, hsome, hdown, rfl⟩
    · have hleaf : Shape.leaf.root? = n.right := hnone.symm
      exact hbegins hleaf rfl (fun c hc => absurd hc (Multiset.notMem_zero c)) hclimbs hrest
    · obtain ⟨right, rest, next, hroot, hl, hcells', hclimbs, hrest'⟩ := hright c first hsome hdown hrest
      refine hbegins (hroot.trans hsome.symm) hl hcells' ?_ hrest'
      cases hclimbs with
      | stop hn' hnot =>
        obtain rfl := Except.ok.inj (hn.symm.trans hn')
        exact absurd hsome hnot
      | step hn' _ hclimbs =>
        obtain rfl := Except.ok.inj (hn.symm.trans hn')
        exact hclimbs

def LeftAnswered (t : Tree) : Prop :=
  ∀ id c, t.Linked id → t.child id .left = .ok (some c) →
    t.parent c = .ok (some id) ∧ t.child id .right ≠ .ok (some c)

/-- From the first node below a linked one a trail passes a shape, if it does so below each right child
of its nodes. -/
theorem LeftAnswered.begins_of_right (h : t.LeftAnswered) {l : List NodeId}
    (hright : ∀ (y c first : NodeId) (before after : List NodeId), l = before ++ y :: after →
      t.Linked y → t.child y .right = .ok (some c) → t.Descends .left c first →
      t.Trail (some first) after → t.Begins c (some y) after)
    {x first : NodeId} {parent : Option NodeId} (hx : t.Linked x) (hparent : t.parent x = .ok parent)
    (hdown : t.Descends .left x first) (htrail : t.Trail (some first) l) : t.Begins x parent l := by
  -- By induction on the left spine, whose last node is the first of the trail.
  induction hdown generalizing parent with
  | @stop x hnone =>
    obtain ⟨n, hn, rfl⟩ := parent_eq_ok.mp hparent
    obtain ⟨n', hn', hleft⟩ := child_eq_ok.mp hnone
    obtain rfl := Except.ok.inj (hn.symm.trans hn')
    obtain ⟨after, rfl⟩ : ∃ after, l = x :: after := by
      cases htrail
      exact ⟨_, rfl⟩
    have hleaf : Shape.leaf.root? = n.left := hleft.symm
    refine begins_of_left hn hleaf (fun c hc => absurd hc (Multiset.notMem_zero c)) htrail
      fun c first hc => ?_
    exact hright x c first [] after rfl hx (child_eq_ok.mpr ⟨n, hn, hc⟩)
  | @step x c last hc hdown ih =>
    obtain ⟨n, hn, rfl⟩ := parent_eq_ok.mp hparent
    obtain ⟨n', hn', hleft⟩ := child_eq_ok.mp hc
    obtain rfl := Except.ok.inj (hn.symm.trans hn')
    obtain ⟨hanswer, hother⟩ := h x c hx hc
    obtain ⟨left, rest, next, hroot, rfl, hcells, hclimbs, hrest⟩ := ih (hx.child hc) hanswer htrail
    obtain rfl : next = some x := by
      cases hclimbs with
      | stop => rfl
      | step hn' hsame => exact absurd (child_eq_ok.mpr ⟨_, hn', hsame⟩) hother
    obtain ⟨after, rfl⟩ : ∃ after, rest = x :: after := by
      cases hrest
      exact ⟨_, rfl⟩
    refine begins_of_left hn (hroot.trans hleft.symm) hcells hrest fun c first hc => ?_
    exact hright x c first _ after rfl hx (child_eq_ok.mpr ⟨n, hn, hc⟩)

/-- From the first node below a linked one, a trail on which children point back passes a shape. -/
theorem LeftAnswered.begins (h : t.LeftAnswered) {l : List NodeId}
    (hback : ∀ id ∈ l, ∀ side c, t.child id side = .ok (some c) → t.parent c = .ok (some id))
    {x first : NodeId} {parent : Option NodeId} (hx : t.Linked x) (hparent : t.parent x = .ok parent)
    (hdown : t.Descends .left x first) (htrail : t.Trail (some first) l) : t.Begins x parent l := by
  -- Behind each node the trail is shorter.
  induction hlength : l.length using Nat.strong_induction_on generalizing l x first parent with
  | _ len ih =>
    refine h.begins_of_right (fun y c first before after hl hy hc hdown hrest => ?_) hx hparent hdown
      htrail
    subst hl
    have hanswer := hback y (List.mem_append_right before List.mem_cons_self) .right c hc
    refine ih after.length ?_ (fun id hid => hback id ?_) (hy.child hc) hanswer hdown hrest rfl
    · rw [← hlength, List.length_append, List.length_cons]
      omega
    · exact List.mem_append_right before (List.mem_cons_of_mem y hid)

/-- A whole trail on which children point back passes the nodes of the tree. -/
theorem LeftAnswered.forms (h : t.LeftAnswered) {l : List NodeId}
    (hback : ∀ id ∈ l, ∀ side c, t.child id side = .ok (some c) → t.parent c = .ok (some id))
    {root first : NodeId} (hroot : t.root = some root) (hparent : t.parent root = .ok none)
    (hdown : t.Descends .left root first) (htrail : t.Trail (some first) l) :
    ∃ s, t.Forms s ∧ s.items.map (·.id) = l := by
  obtain ⟨s, rest, next, hs, rfl, hcells, hclimbs, hrest⟩ :=
    h.begins hback (.of_root hroot) hparent hdown htrail
  cases hclimbs
  cases hrest
  have hnodup := htrail.nodup
  rw [List.append_nil] at hnodup
  exact ⟨s, .of_nodup (hroot.trans hs.symm) hcells hnodup, (List.append_nil _).symm⟩

structure Answered (t : Tree) : Prop where
  root : ∀ id, t.root = some id → t.parent id = .ok none
  child : ∀ id side c, t.Linked id → t.child id side = .ok (some c) → t.parent c = .ok (some id)

def Forks (t : Tree) (id : NodeId) : Prop :=
  ∀ c, t.child id .left = .ok (some c) → t.child id .right ≠ .ok (some c)

theorem Descends.linked {x last : NodeId} (h : t.Descends side x last) (hx : t.Linked x) :
    t.Linked last ∧ t.child last side = .ok none := by
  induction h with
  | stop hnone => exact ⟨hx, hnone⟩
  | step hc _ ih => exact ih (hx.child hc)

namespace Answered

variable {id p : NodeId}

/-- The parent of a linked node is linked, and links to it. -/
theorem parent_linked (h : t.Answered) (hid : t.Linked id) (hparent : t.parent id = .ok (some p)) :
    t.Linked p ∧ ∃ side, t.child p side = .ok (some id) := by
  rcases hid.root_or_child with hroot | ⟨q, side, hq, hchild⟩
  · cases (h.root id hroot).symm.trans hparent
  · cases (h.child q side id hq hchild).symm.trans hparent
    exact ⟨hq, side, hchild⟩

/-- The way up that ends where it does not come from the right ends at a node with another child on the
right than the one it comes from. -/
theorem climbs_to_fork (h : t.Answered) {child : NodeId} {parent next : Option NodeId}
    (hclimbs : t.Climbs .right child parent next) (hchild : t.Linked child)
    (hparent : t.parent child = .ok parent) : ∀ id ∈ next, t.Linked id ∧ t.Forks id := by
  induction hclimbs with
  | top => exact nofun
  | @stop child p n hn hnot =>
    rintro id ⟨⟩
    obtain ⟨hp, side, hlink⟩ := h.parent_linked hchild hparent
    refine ⟨hp, fun c hleft hright => ?_⟩
    cases side with
    | left =>
      cases hleft.symm.trans hlink
      obtain ⟨n', hn', hsame⟩ := child_eq_ok.mp hright
      cases hn.symm.trans hn'
      exact hnot hsame
    | right =>
      obtain ⟨n', hn', hsame⟩ := child_eq_ok.mp hlink
      cases hn.symm.trans hn'
      exact hnot hsame
  | @step child p n next hn _ _ ih =>
    exact ih (h.parent_linked hchild hparent).1 (parent_eq_ok.mpr ⟨n, hn, rfl⟩)

/-- A trail keeps to linked nodes, and passes by those whose links lead to one child. -/
theorem trail_to_forks (h : t.Answered) {start : Option NodeId} {l : List NodeId}
    (htrail : t.Trail start l) (hstart : ∀ id ∈ start, t.Linked id ∧ t.Forks id) :
    ∀ id ∈ l, t.Linked id ∧ t.Forks id := by
  induction htrail with
  | ended => exact nofun
  | @step x next rest hnext _ ih =>
    obtain ⟨hx, hforks⟩ := hstart x rfl
    refine List.forall_mem_cons.mpr ⟨⟨hx, hforks⟩, ih ?_⟩
    obtain ⟨n, hn, ⟨-, hclimbs⟩ | ⟨c, first, hc, hdown, rfl⟩⟩ := successor_cases hnext
    · exact h.climbs_to_fork hclimbs hx (parent_eq_ok.mpr ⟨n, hn, rfl⟩)
    · rintro id ⟨⟩
      have hchild : t.child x .right = .ok (some c) := child_eq_ok.mpr ⟨n, hn, hc⟩
      obtain ⟨hfirst, hnone⟩ := hdown.linked (hx.child hchild)
      exact ⟨hfirst, fun c hleft => by cases hnone.symm.trans hleft⟩

end Answered

end Tree

end VersionedIndex
