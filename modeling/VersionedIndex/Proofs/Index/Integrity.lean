import Mathlib.Data.List.Chain
import VersionedIndex.Proofs.Index.Runs
import VersionedIndex.Proofs.Tree.Trails

/-! What the integrity check finds. It walks by successors, and these are found along parent links,
which it is to check: a left link to a node that does not point back leads the walk astray. -/

namespace VersionedIndex

namespace Index

/-- A tree is intact: no node that is reachable from the root by child links is marked deleted or has a
balance out of range, each of its children points back to it, the reachable nodes are in strict order
by key and row id along the child links, and they are as many as has been recorded. -/
structure Intact (ix : Index) (t : Tree) : Prop where
  live : ∀ id, t.Linked id → ∃ n, t.node id = .ok n ∧ n.isDeleted = false ∧
    -1 ≤ n.balance ∧ n.balance ≤ 1
  answered : ∀ id side c, t.Linked id → t.child id side = .ok (some c) → t.parent c = .ok (some id)
  ordered : t.versions.IsChain fun a b => ix.order.compareVersions a b true = .lt
  count : {id | t.Linked id}.encard = t.elementCount

variable {ix : Index} {t : Tree}

theorem link_violations_eq_zero {id c : NodeId} (h : linkViolations t id (some c) = 0) :
    t.parent c = .ok (some id) := by
  simp only [linkViolations] at h
  split at h
  · cases h
  · next n hn =>
    split at h
    · next hparent => exact Tree.parent_eq_ok.mpr ⟨n, Tree.node_of_cell (mem_cellsOf.mpr hn), hparent⟩
    · cases h

/-- At a node without violations everything is right that can be seen from the node. -/
theorem node_violations_eq_zero {id : NodeId} (h : nodeViolations t id = 0) :
    (∃ n, t.node id = .ok n ∧ n.isDeleted = false ∧ -1 ≤ n.balance ∧ n.balance ≤ 1) ∧
      ∀ side c, t.child id side = .ok (some c) → t.parent c = .ok (some id) := by
  simp only [nodeViolations] at h
  split at h
  · cases h
  · next n hn =>
    have hnode := Tree.node_of_cell (mem_cellsOf.mpr hn)
    simp only [Nat.add_eq_zero_iff, ite_eq_left_iff, ite_eq_right_iff, Nat.one_ne_zero, imp_false,
      Bool.not_eq_true, not_not] at h
    obtain ⟨⟨⟨hlive, hbalance⟩, hleft⟩, hright⟩ := h
    refine ⟨⟨n, hnode, hlive, hbalance⟩, fun side c hchild => ?_⟩
    obtain ⟨n', hn', hc⟩ := Tree.child_eq_ok.mp hchild
    cases hnode.symm.trans hn'
    cases side with
    | left => exact link_violations_eq_zero (hc ▸ hleft)
    | right => exact link_violations_eq_zero (hc ▸ hright)

/-- On a walk without violations there are none at its nodes and none between neighbours. -/
theorem trail_violations_eq_zero {l : List NodeId} (h : ix.trailViolations t l = 0) :
    (∀ id ∈ l, nodeViolations t id = 0) ∧ l.IsChain fun a b => ix.orderViolations t a b = 0 := by
  induction l with
  | nil => exact ⟨nofun, .nil⟩
  | cons id l ih =>
    cases l with
    | nil => exact ⟨List.forall_mem_singleton.mpr h, .singleton id⟩
    | cons next rest =>
      rw [trailViolations, Nat.add_eq_zero_iff, Nat.add_eq_zero_iff] at h
      obtain ⟨⟨hnode, horder⟩, hrest⟩ := h
      obtain ⟨hnodes, hchain⟩ := ih hrest
      exact ⟨List.forall_mem_cons.mpr ⟨hnode, hnodes⟩, .cons_cons horder hchain⟩

/-- A check without violations has walked through from the first node of a tree whose root has no
parent, and has passed as many nodes as are recorded. -/
theorem walk_of_check {root : NodeId} (hroot : t.root = some root) (h : ix.check t = 0) :
    ∃ (first : NodeId) (l : List NodeId), t.parent root = .ok none ∧
      t.Descends .left root first ∧ t.Trail (some first) l ∧ l.length = t.elementCount ∧
      ix.trailViolations t l = 0 := by
  simp only [check, hroot] at h
  cases hparent : t.parent root with
  | error e =>
    rw [hparent] at h
    cases h
  | ok parent =>
    simp only [hparent] at h
    cases hfirst : t.leftmost root with
    | error e =>
      rw [hfirst] at h
      cases (Nat.add_eq_zero_iff.mp h).2
    | ok found =>
      obtain ⟨first, depth⟩ := found
      simp only [hfirst, Nat.add_eq_zero_iff, ite_eq_right_iff, ite_eq_left_iff, Nat.one_ne_zero,
        imp_false, not_not, Option.not_isSome_iff_eq_none] at h
      obtain ⟨⟨rfl, hviolations⟩, hends, hcount⟩ := h
      exact ⟨first, _, rfl, Tree.descends_of_outermost hfirst, .of_ends (Prod.ext rfl hends), hcount,
        hviolations⟩

/-- Where the linked nodes form a shape, nothing else can be wrong than what the check looks at. -/
theorem intact_of_forms {s : Shape} (h : t.Forms s)
    (hnodes : ∀ id ∈ s.items.map (·.id), nodeViolations t id = 0)
    (horder : (s.items.map (·.id)).IsChain fun a b => ix.orderViolations t a b = 0)
    (hcount : s.items.length = t.elementCount) : ix.Intact t := by
  have hlinked {id : NodeId} (hid : t.Linked id) := node_violations_eq_zero
    (hnodes id (List.mem_map.mpr (h.linked_iff.mp hid)))
  constructor
  case live => exact fun id hid => (hlinked hid).1
  case answered => exact fun id side c hid => (hlinked hid).2 side c
  case count => rw [h.encard_linked, hcount]
  case ordered =>
    rw [Tree.versions, h.inorder, List.isChain_map]
    refine ((List.isChain_map _).mp horder).imp_of_mem_imp fun a b ha hb hab => ?_
    obtain ⟨m, hm, hma⟩ := h.slot_of_mem ha
    obtain ⟨n, hn, hnb⟩ := h.slot_of_mem hb
    simp only [orderViolations, hm, hn, hma, hnb, ite_eq_left_iff, Nat.one_ne_zero, imp_false,
      not_not] at hab
    exact hab

/-- In an intact tree a walk by successors passes every linked node, if it passes as many as there are. -/
theorem Intact.mem_trail (h : ix.Intact t) {root first : NodeId} (hroot : t.root = some root)
    (hparent : t.parent root = .ok none) (hdown : t.Descends .left root first) {l : List NodeId}
    (htrail : t.Trail (some first) l) (hcount : l.length = t.elementCount) {id : NodeId}
    (hid : t.Linked id) : id ∈ l ∧ t.Forks id := by
  have hanswered : t.Answered := by
    refine ⟨fun id hid => ?_, h.answered⟩
    cases hroot.symm.trans hid
    exact hparent
  have hfirst : ∀ id ∈ some first, t.Linked id ∧ t.Forks id := by
    rintro id ⟨⟩
    obtain ⟨hlinked, hnone⟩ := hdown.linked (.of_root hroot)
    exact ⟨hlinked, fun c hc => by cases hnone.symm.trans hc⟩
  have hforks := hanswered.trail_to_forks htrail hfirst
  -- The trail passes no node twice, so it passes all of them.
  have hall : (↑l.toFinset : Set NodeId) = {id | t.Linked id} := by
    refine l.toFinset.finite_toSet.eq_of_subset_of_encard_le (fun id hmem => ?_) ?_
    · exact (hforks id (List.mem_toFinset.mp (Finset.mem_coe.mp hmem))).1
    · rw [h.count, Set.encard_coe_eq_coe_finsetCard, List.toFinset_card_of_nodup htrail.nodup, hcount]
  have hmem : id ∈ l := by
    have hin : id ∈ (↑l.toFinset : Set NodeId) := hall ▸ hid
    exact List.mem_toFinset.mp (Finset.mem_coe.mp hin)
  exact ⟨hmem, (hforks id hmem).2⟩

/-- What the check misses. A tree in which it finds nothing is intact just if each left link below the
root is answered, and leads to another node than the right link beside it, and a tree without a root is
recorded to be empty. In any other way no corruption escapes, however the links lead. -/
theorem intact_iff_of_check {ix : Index} {t : Tree} (h : ix.check t = 0) :
    ix.Intact t ↔ t.LeftAnswered ∧ (t.root = none → t.elementCount = 0) := by
  cases hroot : t.root with
  | none =>
    have hforms : t.Forms .leaf := ⟨hroot, Multiset.zero_le _⟩
    constructor
    · intro hintact
      refine ⟨fun id c hid => ?_, fun _ => ?_⟩
      · obtain ⟨e, he, -⟩ := hforms.linked_iff.mp hid
        cases he
      · exact Nat.cast_inj.mp (hintact.count.symm.trans hforms.encard_linked)
    · rintro ⟨-, hempty⟩
      exact intact_of_forms hforms nofun .nil (hempty rfl).symm
  | some root =>
    obtain ⟨first, l, hparent, hdown, htrail, hcount, hviolations⟩ := walk_of_check hroot h
    obtain ⟨hnodes, horder⟩ := trail_violations_eq_zero hviolations
    constructor
    · intro hintact
      refine ⟨fun id c hid hc => ⟨hintact.answered id .left c hid hc, ?_⟩, nofun⟩
      exact (hintact.mem_trail hroot hparent hdown htrail hcount hid).2 c hc
    · rintro ⟨hleft, -⟩
      obtain ⟨s, hforms, rfl⟩ := hleft.forms (fun id hid => (node_violations_eq_zero (hnodes id hid)).2)
        hroot hparent hdown htrail
      exact intact_of_forms hforms hnodes horder (by rw [← hcount, List.length_map])

def leftPair : Tree := (Action.outcome (do
  let a ← TreeAction.allocate (sampleVersion 1 1)
  let b ← TreeAction.allocate (sampleVersion 2 2)
  TreeAction.setRoot (some b)
  TreeAction.setChild b .left (some a)
  TreeAction.setBalance b (-1)
  TreeAction.updateElementCount 2 : TreeAction Unit) {}).2

theorem left_pair_intact : sample.check leftPair = 0 ∧ leftPair.LeftAnswered ∧ sample.Intact leftPair := by
  have hcheck : sample.check leftPair = 0 := by decide +kernel
  have hleft : leftPair.LeftAnswered := by
    intro id c _ hc
    obtain ⟨n, hn, -⟩ := Tree.child_eq_ok.mp hc
    obtain ⟨hid, -⟩ := Array.getElem?_eq_some_iff.mp (Tree.slot_of_node hn)
    have hsize : leftPair.slots.size = 2 := by decide +kernel
    obtain rfl | rfl := Nat.le_one_iff_eq_zero_or_eq_one.mp (Nat.le_of_lt_succ (hsize ▸ hid))
    · have hnone : leftPair.child 0 .left = .ok none := by decide +kernel
      cases hnone.symm.trans hc
    · have hsome : leftPair.child 1 .left = .ok (some 0) := by decide +kernel
      cases hsome.symm.trans hc
      exact ⟨by decide +kernel, by decide +kernel⟩
  exact ⟨hcheck, hleft, (intact_iff_of_check hcheck).mpr ⟨hleft, nofun⟩⟩

def misled : Tree := (Action.outcome (do
  let a ← TreeAction.allocate (sampleVersion 1 1)
  let b ← TreeAction.allocate (sampleVersion 2 2)
  let c ← TreeAction.allocate (sampleVersion 3 3)
  TreeAction.setRoot (some b)
  TreeAction.setLink b .left (some a)
  TreeAction.setParent a (some c)
  TreeAction.setBalance b (-1)
  TreeAction.updateElementCount 2 : TreeAction Unit) {}).2

/-- The walk goes from the first row to the third one, and the second, whose child does not point back,
is not looked at. Nor is the count of a tree without a root. -/
theorem misled_check_passes :
    (sample.check misled = 0 ∧ misled.versions.map (·.id) = [1, 2] ∧
      misled.child 1 .left = .ok (some 0) ∧ misled.parent 0 = .ok (some 2) ∧
      ¬ sample.Intact misled) ∧
    (sample.check { elementCount := 1 } = 0 ∧ ¬ sample.Intact { elementCount := 1 }) := by
  have hlink : misled.child 1 .left = .ok (some 0) := by decide +kernel
  have hparent : misled.parent 0 = .ok (some 2) := by decide +kernel
  have hroot : misled.root = some 1 := by decide +kernel
  refine ⟨⟨by decide +kernel, by decide +kernel, hlink, hparent, fun h => ?_⟩, rfl, fun h => ?_⟩
  · cases hparent.symm.trans (h.answered 1 .left 0 (.of_root hroot) hlink)
  · have hforms : Tree.Forms { elementCount := 1 } .leaf := ⟨rfl, Multiset.zero_le _⟩
    have hcount := h.count
    rw [hforms.encard_linked] at hcount
    cases Nat.cast_inj.mp hcount

end Index

end VersionedIndex
