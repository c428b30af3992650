import VersionedIndex.Proofs.Tree.Walk

namespace VersionedIndex

open TreeAction

theorem Becomes.of_nodup {α : Type} {act : TreeAction α} {s s' : Shape} {a : α}
    (h : (s.items.map (·.id)).Nodup → Becomes act s a s') : Becomes act s a s' := by
  intro t rest hr ht
  have hforms : t.Forms s := ⟨hr, ht ▸ Multiset.le_add_right _ _⟩
  exact h hforms.nodup_ids t rest hr ht

/-- Hanging `x` at the end of a path where `d` hangs. -/
theorem take_place_effect (p : Path) (d x : NodeId) (nd nx : Node) :
    Effect (takePlace d x (p.parent? none)) (p.root? (some d))
      ({(x, nx)} + {(d, nd)} + p.cells none (some d)) () (p.root? (some x))
      ({(x, { nx with parent := p.parent? none })} + {(d, nd)} + p.cells none (some x)) := by
  cases p with
  | nil =>
    apply (set_root_effect _ (some x) _).bind
    apply (set_parent_effect x none nx _).step ({(d, nd)} + 0) (add_assoc _ _ _)
    exact (Effect.pure () _ _).of_eq rfl (add_assoc _ _ _).symm
  | cons f p =>
    -- Below a node its link has to be turned, and on which side is read off the old child.
    let link (c : Option NodeId) : Node := Node.sided f.side f.item.version c f.sibling.root?
      (Path.parent? none p) f.balance
    let others := f.sibling.cells (some f.item.id) + Path.cells none (some f.item.id) p
    have hcells (c : Option NodeId) :
        Path.cells none c (f :: p) = {(f.item.id, link c)} + others := add_assoc _ _ _
    simp only [hcells]
    let nx' : Node := { nx with parent := some f.item.id }
    refine (set_parent_effect x (some f.item.id) nx _).step
      ({(d, nd)} + ({(f.item.id, link (some d))} + others)) (add_assoc _ _ _) ?_
    refine Effect.examine (a := f.side) (fun t _ ht => ?_) ?_
    · have hcell : (f.item.id, link (some d)) ∈ cellsOf t.slots := Multiset.mem_of_le ht (by simp)
      apply Tree.side_below_of_cell hcell
      have hsub : {(x, nx')} + ({(d, nd)} + ({(f.item.id, link (some d))} + others)) =
          ({(d, nd)} + f.sibling.cells (some f.item.id)) +
            ({(x, nx')} + {(f.item.id, link (some d))} + Path.cells none (some f.item.id) p) := by
        simp only [others]
        abel
      rw [hsub] at ht
      exact Shape.root_ne_of_cells (le_trans (Multiset.le_add_right _ _) ht)
    · have hset := (set_link_effect f.item.id f.side (some x) (link (some d))
        (Path.root? (some d) (f :: p))).frame ({(x, nx')} + {(d, nd)} + others)
      rw [Node.sided_with_near] at hset
      exact hset.of_eq (by abel) (by change _ = {(x, nx')} + _ + _; abel)

/-- Taking over the children: `d` hangs at the lower end of the path `q` where `x` was, and `x` has
the links of `d`. -/
theorem take_children_effect (q : Path) (d x : NodeId) (nd nx : Node) (r : Option NodeId)
    (hleft : nd.left = q.root? (some x)) (hq : ∀ f ∈ q, f.side = .right ∧ f.item.id ≠ d) :
    ∃ top : Option NodeId, Effect (takeChildren d x (q.parent? (some d))) r
      ({(x, nx)} + {(d, nd)} + q.cells (some d) (some x)) () r
      ({(x, { nx with left := q.root? (some d), right := nd.right })} +
        ({(d, { nd with parent := q.parent? top })} + q.cells top (some d))) := by
  have hright (pre : Multiset Cell) (h : (d, nd) ∈ pre) (t : Tree) (ht : pre ≤ cellsOf t.slots) :
      t.child d .right = .ok nd.right := Tree.child_of_cell (Multiset.mem_of_le ht h)
  cases q with
  | nil =>
    refine ⟨some x, ?_⟩
    refine Effect.examine (a := nd.right) (fun t _ ht => hright _ (by simp) t ht) ?_
    rw [Path.parent?, if_pos rfl]
    apply (set_parent_effect d (some x) nd r).step ({(x, nx)} + 0) (by abel)
    refine (set_link_effect x .left (some d) nx r).step ({(d, { nd with parent := some x })} + 0)
      (by abel) ?_
    refine ((set_link_effect x .right nd.right _ r).frame
      ({(d, { nd with parent := some x })} + 0)).of_eq rfl rfl
  | cons g q =>
    refine ⟨some d, ?_⟩
    -- With nodes between the two, the parent of `x` is one of them and not `d` itself.
    obtain ⟨hside, hne⟩ := hq g List.mem_cons_self
    obtain ⟨y, b, side, sibling⟩ := g
    obtain rfl : side = .right := hside
    refine Effect.examine (a := nd.right) (fun t _ ht => hright _ (by simp) t ht) ?_
    rw [Path.parent?, if_neg (fun h => hne (Option.some.inj h))]
    let link (c : Option NodeId) : Node := Node.sided .right y.version c sibling.root?
      (Path.parent? (some d) q) b
    let others := sibling.cells (some y.id) + Path.cells (some d) (some y.id) q
    let nd' : Node := { nd with parent := some y.id }
    have hcells (c : Option NodeId) :
        Path.cells (some d) c (⟨y, b, .right, sibling⟩ :: q) = {(y.id, link c)} + others :=
      add_assoc _ _ _
    simp only [hcells]
    refine (set_parent_effect d (some y.id) nd r).step
      ({(x, nx)} + ({(y.id, link (some x))} + others)) (by abel) ?_
    refine (set_link_effect y.id .right (some d) (link (some x)) r).step
      ({(x, nx)} + {(d, nd')} + others) (by abel) ?_
    refine Effect.examine (a := nd.left) (fun t _ ht => ?_) ?_
    · have hcell : (d, nd') ∈ cellsOf t.slots := Multiset.mem_of_le ht (by simp)
      have hchild : t.child d .left = .ok (nd'.child .left) := Tree.child_of_cell hcell
      exact hchild
    refine (set_link_effect x .left nd.left nx r).step
      ({(d, nd')} + ({(y.id, link (some d))} + others)) ?_ ?_
    · rw [Node.sided_with_near]
      abel
    have hroot : nd.left = Path.root? (some d) (⟨y, b, .right, sibling⟩ :: q) := hleft
    rw [← hroot]
    exact (set_link_effect x .right nd.right _ r).frame
      ({(d, nd')} + ({(y.id, link (some d))} + others))

/-- Pointing the upper end of a path, or the node at its lower end when it has no step, to another
parent. -/
theorem set_parent_of_path (q : Path) (d c : NodeId) (nd : Node) (top parent r : Option NodeId)
    (hc : q.root? (some d) = some c) :
    Effect (setParent c parent) r
      ({(d, { nd with parent := q.parent? top })} + q.cells top (some d)) () r
      ({(d, { nd with parent := q.parent? parent })} + q.cells parent (some d)) := by
  induction q generalizing d nd with
  | nil =>
    obtain rfl : d = c := Option.some.inj hc
    exact (set_parent_effect d parent _ r).frame 0
  | cons f q ih =>
    let link : Node := Node.sided f.side f.item.version (some d) f.sibling.root? none f.balance
    have hrec := (ih f.item.id link hc).frame
      ({(d, { nd with parent := some f.item.id })} + f.sibling.cells (some f.item.id))
    simp only [link, Node.sided_with_parent] at hrec
    refine hrec.of_eq ?_ ?_
    · simp only [Path.cells, Path.parent?]
      abel
    · simp only [Path.cells, Path.parent?]
      abel

theorem adopt_child_effect (x : NodeId) (side : Side) (nx : Node) (s : Shape)
    (top r : Option NodeId) (hx : nx.child side = s.root?) :
    Effect (adoptChild x side) r ({(x, nx)} + s.cells top) () r
      ({(x, nx)} + s.cells (some x)) := by
  refine Effect.examine (a := s.root?) (fun t _ ht => ?_) ?_
  · rw [Tree.child_of_cell (n := nx) (Multiset.mem_of_le ht (by simp)), hx]
  · cases hs : s.root? with
    | none =>
      rw [Shape.root_eq_none] at hs
      subst hs
      exact Effect.pure () r _
    | some c =>
      exact ((set_parent_of_shape hs (some x) top r).frame _).of_eq (add_comm _ _) (add_comm _ _)

/-- As `adopt_child_effect` for the path that `x` has taken over on its left. -/
theorem adopt_path_effect (q : Path) (x d : NodeId) (nx nd : Node) (top r : Option NodeId)
    (hx : nx.left = q.root? (some d)) :
    Effect (adoptChild x .left) r
      ({(x, nx)} + ({(d, { nd with parent := q.parent? top })} + q.cells top (some d))) () r
      ({(x, nx)} + ({(d, { nd with parent := q.parent? (some x) })} +
        q.cells (some x) (some d))) := by
  obtain ⟨c, hc⟩ : ∃ c, q.root? (some d) = some c := by
    clear hx
    induction q generalizing d with
    | nil => exact ⟨d, rfl⟩
    | cons f q ih => exact ih f.item.id
  refine Effect.examine (a := some c) (fun t _ ht => ?_) ?_
  · rw [← hc, ← hx]
    exact Tree.child_of_cell (n := nx) (Multiset.mem_of_le ht (by simp))
  · exact ((set_parent_of_path q d c nd top (some x) r hc).frame _).of_eq (add_comm _ _)
      (add_comm _ _)

/-- The node `d` and its predecessor `x`, the last node of its left subtree, change places. -/
theorem swap_becomes (p q : Path) (below right : Shape) (d x : Item) (bd bx : Int8)
    (hq : ∀ f ∈ q, f.side = .right) :
    Becomes (swapWithPredecessor d.id x.id)
      (p.plug (.node (q.plug (.node below x bx .leaf)) d bd right)) ()
      (p.plug (.node (q.plug (.node below d bx .leaf)) x bd right)) := by
  apply Becomes.of_nodup
  intro hnodup
  -- The way down to the predecessor does not come back to the node.
  have hne : ∀ f ∈ q, f.item.id ≠ d.id := by
    intro f hf
    rw [Path.items_plug, Shape.items] at hnodup
    simp only [List.map_append, List.map_cons, List.nodup_append] at hnodup
    exact hnodup.1.2.1.2.2 _ (List.mem_map_of_mem (Path.mem_items_plug hf _)) _ List.mem_cons_self
  let nodeX (left right parent : Option NodeId) (b : Int8) : Node :=
    ⟨x.version, left, right, parent, b⟩
  let nodeD (left right parent : Option NodeId) (b : Int8) : Node :=
    ⟨d.version, left, right, parent, b⟩
  let topD := p.parent? none
  let topX := q.parent? (some d.id)
  let linkQ := q.root? (some x.id)
  let pathQ := q.cells (some d.id) (some x.id)
  let pathP := p.cells none (some d.id)
  let others := below.cells (some x.id) + right.cells (some d.id)
  simp only [Becomes, Path.root_plug, Path.cells_plug, Shape.cells, Shape.root_node,
    Shape.root_leaf, add_zero]
  have hcell {t : Tree} {pre : Multiset Cell} {c : Cell} (ht : pre ≤ cellsOf t.slots)
      (hc : c ∈ pre) : c ∈ cellsOf t.slots := Multiset.mem_of_le ht hc
  refine Effect.examine (a := below.root?) (fun t _ ht =>
    Tree.child_of_cell (n := nodeX below.root? none topX bx) (hcell ht (by simp [nodeX, topX]))) ?_
  refine Effect.examine (a := bx) (fun t _ ht =>
    Tree.balance_of_cell (n := nodeX below.root? none topX bx) (hcell ht (by simp [nodeX, topX]))) ?_
  refine Effect.examine (a := bd) (fun t _ ht =>
    Tree.balance_of_cell (n := nodeD linkQ right.root? topD bd)
      (hcell ht (by simp [nodeD, linkQ, topD]))) ?_
  refine (set_balance_effect x.id bd (nodeX below.root? none topX bx) _).step
    ({(d.id, nodeD linkQ right.root? topD bd)} + pathQ + pathP + others) ?_ ?_
  · simp only [nodeX, nodeD, topX, topD, linkQ, pathQ, pathP, others]
    abel
  refine (set_balance_effect d.id bx (nodeD linkQ right.root? topD bd) _).step
    ({(x.id, nodeX below.root? none topX bd)} + pathQ + pathP + others) ?_ ?_
  · simp only [nodeX, nodeD]
    abel
  refine Effect.examine (a := topX) (fun t _ ht =>
    Tree.parent_of_cell (n := nodeX below.root? none topX bd) (hcell ht (by simp))) ?_
  refine Effect.examine (a := topD) (fun t _ ht =>
    Tree.parent_of_cell (n := nodeD linkQ right.root? topD bx) (hcell ht (by simp [nodeD]))) ?_
  refine (take_place_effect p d.id x.id (nodeD linkQ right.root? topD bx)
    (nodeX below.root? none topX bd)).step (pathQ + others) ?_ ?_
  · simp only [nodeD, pathP]
    abel
  let pathP' := p.cells none (some x.id)
  obtain ⟨top, htake⟩ := take_children_effect q d.id x.id (nodeD linkQ right.root? topD bx)
    (nodeX below.root? none topD bd) (p.root? (some x.id)) rfl fun f hf => ⟨hq f hf, hne f hf⟩
  refine htake.step (pathP' + others) ?_ ?_
  · simp only [nodeX, pathQ, topD, pathP']
    abel
  let linkQ' := q.root? (some d.id)
  refine (adopt_child_effect x.id .right (nodeX linkQ' right.root? topD bd) right (some d.id)
    _ rfl).step ({(d.id, nodeD linkQ right.root? (q.parent? top) bx)} +
      q.cells top (some d.id) + pathP' + below.cells (some x.id)) ?_ ?_
  · simp only [nodeX, nodeD, linkQ', others]
    abel
  refine (adopt_path_effect q x.id d.id (nodeX linkQ' right.root? topD bd)
    (nodeD linkQ right.root? none bx) top _ rfl).step
      (right.cells (some x.id) + pathP' + below.cells (some x.id)) ?_ ?_
  · simp only [nodeX, nodeD]
    abel
  let topX' := q.parent? (some x.id)
  refine (set_child_effect d.id .left (nodeD linkQ right.root? topX' bx) below (some x.id) _).step
    ({(x.id, nodeX linkQ' right.root? topD bd)} + q.cells (some x.id) (some d.id) +
      right.cells (some x.id) + pathP') ?_ ?_
  · simp only [nodeD, topX']
    abel
  refine ((set_link_effect d.id .right none (nodeD below.root? right.root? topX' bx) _).frame
    ({(x.id, nodeX linkQ' right.root? topD bd)} + q.cells (some x.id) (some d.id) +
      right.cells (some x.id) + pathP' + below.cells (some d.id))).of_eq ?_ ?_
  · simp only [nodeD, Node.withChild]
    abel
  · simp only [nodeD, nodeX, Node.withChild, topX', topD, linkQ', pathP']
    abel

end VersionedIndex
