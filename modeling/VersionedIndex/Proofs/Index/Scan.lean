import VersionedIndex.Proofs.Tree.Avl
import VersionedIndex.Index.Size

namespace VersionedIndex

open Index

namespace Cursor

variable {c : Cursor} {see : Option Visibility} {t : Tree}

theorem advance_of_ended (hnext : c.next = none) : c.advance see t = .ok (none, c) := by
  simp only [advance, hnext]
  rfl

theorem advance_of_deleted {id : NodeId} {n : Node} (hnext : c.next = some id)
    (hn : t.node id = .ok n) (hdeleted : n.isDeleted = true) :
    c.advance see t = .ok (none, c.release) := by
  simp only [advance, hnext, hn, bind, Except.bind, hdeleted]
  rfl

theorem take_of_ended (hnext : c.next = none) (limit : Nat) : take see t limit c = [] := by
  cases limit with
  | zero => rfl
  | succ limit => simp only [take, step, advance_of_ended hnext]

end Cursor

namespace Tree.Holds

variable {t : Tree} {s : Shape} {side : Side} {see : Option Visibility} {xs ys : List Item}

/-- The node of an item: it holds the item's version and is not marked deleted. -/
theorem node_of_mem (h : t.Holds s) {e : Item} (he : e ∈ s.items) :
    ∃ n, t.node e.id = .ok n ∧ n.version = e.version ∧ n.isDeleted = false := by
  obtain ⟨p, near, b, far, rfl⟩ := Shape.exists_path_of_mem .left he
  obtain ⟨n, hn, hlive⟩ := h.wellFormed.live e.id (h.linked_iff.mpr ⟨e, he, rfl⟩)
  have hnode := h.forms.node
  refine ⟨n, hn, ?_, hlive⟩
  rw [Except.ok.inj (hn.symm.trans hnode), Node.sided_version]

theorem version_of_mem (h : t.Holds s) {e : Item} (he : e ∈ s.items) :
    t.version e.id = .ok e.version := by
  obtain ⟨n, hn, hversion, -⟩ := h.node_of_mem he
  rw [Tree.version, hn, ← hversion]
  rfl

theorem mem_of_split (hsplit : s.itemsToward side = xs ++ ys) {e : Item} (he : e ∈ ys) :
    e ∈ s.items := by
  rw [← Shape.mem_items_toward side, hsplit]
  exact List.mem_append_right xs he

theorem length_of_split (h : t.Holds s) (hsplit : s.itemsToward side = xs ++ ys) :
    ys.length ≤ t.slots.size := by
  have hlength := h.forms.length_le
  have hside : (s.itemsToward side).length = s.items.length := by
    cases side with
    | left => exact List.length_reverse
    | right => rfl
  rw [← hside, hsplit, List.length_append] at hlength
  omega

/-- Skipping ends at the next item that can be read. -/
theorem skip_unreadable (h : t.Holds s) {mode : ReadMode} {steps : Nat}
    (hsplit : s.itemsToward side = xs ++ ys) (hsteps : ys.length ≤ steps) :
    skipUnreadable see mode side t steps (ys.head?.map (·.id)) =
      .ok ((ys.find? fun e => Visibility.admits see mode e.version).map (·.id)) := by
  -- By induction on what is left of the walk; the step count bounds it.
  induction ys generalizing xs steps with
  | nil => cases steps <;> rfl
  | cons e ys ih =>
    obtain ⟨steps, rfl⟩ : ∃ n, steps = n + 1 :=
      Nat.exists_eq_succ_of_ne_zero (by rw [List.length_cons] at hsteps; omega)
    have hversion := h.version_of_mem (mem_of_split hsplit List.mem_cons_self)
    have hrest := ih (hsplit.trans (List.append_cons xs e ys)) (Nat.le_of_succ_le_succ hsteps)
    simp only [List.head?_cons, Option.map_some, skipUnreadable, hversion,
      h.forms.neighbour hsplit, List.find?_cons]
    change (if Visibility.admits see mode e.version = true then (Except.ok (some e.id) : Except Error _)
      else skipUnreadable see mode side t steps (ys.head?.map (·.id))) = _
    cases hadmits : Visibility.admits see mode e.version with
    | true => rfl
    | false => exact hrest

theorem readable_from (h : t.Holds s) (see : Option Visibility) (hsplit : s.itemsToward side = xs ++ ys) :
    readableFrom see t side (ys.head?.map (·.id)) =
      .ok ((ys.find? fun e => Visibility.admits see .read e.version).map (·.id)) := by
  cases see with
  | none => cases ys <;> rfl
  | some see =>
    exact h.skip_unreadable hsplit (Nat.le_succ_of_le (h.length_of_split hsplit))

theorem readable_after (h : t.Holds s) (see : Option Visibility) {e : Item}
    (hsplit : s.itemsToward side = xs ++ e :: ys) :
    readableAfter see t side e.id =
      .ok ((ys.find? fun e => Visibility.admits see .read e.version).map (·.id)) := by
  rw [readableAfter, h.forms.neighbour hsplit]
  exact h.readable_from see (hsplit.trans (List.append_cons xs e ys))

/-- A cursor on an item yields its version and goes on to the next readable item, if it goes on. -/
theorem advance_of_item (h : t.Holds s) (see : Option Visibility) {c : Cursor} {e : Item}
    (hnext : c.next = some e.id) (hsplit : s.itemsToward c.heading = xs ++ e :: ys) :
    c.advance see t = .ok (some e.version, { c with
      next := if c.single then none
        else (ys.find? fun e => Visibility.admits see .read e.version).map (·.id)
      last := some e.version }) := by
  obtain ⟨n, hn, hversion, hlive⟩ := h.node_of_mem (mem_of_split hsplit List.mem_cons_self)
  have hafter := h.readable_after see hsplit
  simp only [Cursor.advance, hnext, hn, bind, Except.bind, hlive, hafter, hversion]
  cases c.single <;> rfl

/-- A cursor at the first readable item of the rest of a walk yields the readable items of it. -/
theorem take_cursor (h : t.Holds s) {c : Cursor} {limit : Nat}
    (hsplit : s.itemsToward side = xs ++ ys) (hlimit : ys.length < limit)
    (hnext : c.next = (ys.find? fun e => Visibility.admits see .read e.version).map (·.id))
    (hside : c.heading = side) (hsingle : c.single = false) :
    Cursor.take see t limit c = (ys.map (·.version)).filter (Visibility.admits see .read) := by
  induction ys generalizing xs c limit with
  | nil => exact Cursor.take_of_ended hnext limit
  | cons e ys ih =>
    have hsplit' := hsplit.trans (List.append_cons xs e ys)
    rw [List.length_cons] at hlimit
    rw [List.find?_cons] at hnext
    rw [List.map_cons, List.filter_cons]
    cases hadmits : Visibility.admits see .read e.version with
    | false =>
      rw [hadmits] at hnext
      exact ih hsplit' (Nat.lt_of_succ_lt hlimit) hnext hside hsingle
    | true =>
      rw [hadmits] at hnext
      obtain ⟨limit, rfl⟩ := Nat.exists_eq_succ_of_ne_zero (Nat.ne_of_gt (Nat.zero_lt_of_lt hlimit))
      have hadvance := h.advance_of_item see (e := e) hnext (hside ▸ hsplit)
      rw [hsingle, if_neg Bool.false_ne_true] at hadvance
      simp only [Cursor.take, Cursor.step, hadvance, if_true]
      exact congrArg (e.version :: ·)
        (ih hsplit' (Nat.lt_of_succ_lt_succ hlimit) rfl hside rfl)

theorem start_of_walk (h : t.Holds s) (side : Side) {root : NodeId} (hroot : t.root = some root) :
    ∃ (id : NodeId) (depth : Nat), t.outermost side.flip root = .ok (id, depth) ∧
      (s.itemsToward side).head?.map (·.id) = some id := by
  obtain ⟨x, depth, hwalk, hlast⟩ := Tree.Forms.outermost (p := []) side.flip h.forms
    (h.root.symm.trans hroot)
  refine ⟨x.id, depth, hwalk, ?_⟩
  rw [Shape.items_toward_flip, List.getLast?_reverse] at hlast
  rw [hlast]
  rfl

theorem leaf_of_root (h : t.Holds s) (hroot : t.root = none) : s = .leaf :=
  Shape.root_eq_none.mp (h.root.symm.trans hroot)

/-- A forward scan opens a cursor at the first readable item. The index remembers how deep it went. -/
theorem first_opens (h : t.Holds s) (see : Option Visibility) (ix : Index) :
    ∃ depth : Nat, first see t ix = .ok
      { next := ((s.itemsToward .right).find? fun e => Visibility.admits see .read e.version).map
          (·.id) } { ix with scanDepth := depth } := by
  cases hroot : t.root with
  | none =>
    obtain rfl := h.leaf_of_root hroot
    refine ⟨ix.scanDepth, ?_⟩
    simp only [first, hroot]
    rfl
  | some root =>
    obtain ⟨id, depth, hwalk, hhead⟩ := h.start_of_walk .right hroot
    have hreadable := h.readable_from see (List.nil_append (s.itemsToward .right)).symm
    rw [hhead] at hreadable
    refine ⟨depth, ?_⟩
    have hfirst : Action.examine (fun _ : Index => t.leftmost root) ix = .ok (id, depth) ix :=
      Action.examine_of_ok hwalk
    simp only [first, hroot]
    rw [Action.bind_of_ok hfirst]
    have hmodify : (modify fun ix : Index => { ix with scanDepth := depth } : IndexAction Unit) ix =
        .ok () { ix with scanDepth := depth } := rfl
    have hnext : Action.examine (fun _ : Index => readableFrom see t .right (some id))
        { ix with scanDepth := depth } = .ok _ { ix with scanDepth := depth } :=
      Action.examine_of_ok hreadable
    apply (Action.bind_of_ok hmodify).trans
    exact (Action.bind_of_ok hnext).trans rfl

theorem last_opens (h : t.Holds s) (see : Option Visibility) :
    last see t = .ok
      { next := ((s.itemsToward .left).find? fun e => Visibility.admits see .read e.version).map
          (·.id)
        reversed := true } := by
  cases hroot : t.root with
  | none =>
    obtain rfl := h.leaf_of_root hroot
    simp only [last, hroot]
    rfl
  | some root =>
    obtain ⟨id, depth, hwalk, hhead⟩ := h.start_of_walk .left hroot
    have hreadable := h.readable_from see (List.nil_append (s.itemsToward .left)).symm
    rw [hhead] at hreadable
    have hlast : t.rightmost root = .ok id := by
      change (t.outermost .right root).map (·.1) = _
      rw [show t.outermost .right root = .ok (id, depth) from hwalk]
      rfl
    simp only [last, hroot, hlast]
    change (do
      let next ← readableFrom see t .left (some id)
      return ({ next, reversed := true } : Cursor)) = _
    rw [hreadable]
    rfl

/-- A cursor at the first readable item of the rest of a walk yields the readable items of it. No walk
has more items than the tree has slots, so the limit is not reached. -/
theorem drain_cursor (h : t.Holds s) {c : Cursor} (hsplit : s.itemsToward side = xs ++ ys)
    (hnext : c.next = (ys.find? fun e => Visibility.admits see .read e.version).map (·.id))
    (hside : c.heading = side) (hsingle : c.single = false) :
    c.drain see t = (ys.map (·.version)).filter (Visibility.admits see .read) :=
  h.take_cursor hsplit (Nat.lt_succ_of_le (h.length_of_split hsplit)) hnext hside hsingle

/-- A forward scan yields all readable versions in order. -/
theorem drain_first (h : t.Holds s) (see : Option Visibility) (ix : Index) :
    ∃ (c : Cursor) (depth : Nat), first see t ix = .ok c { ix with scanDepth := depth } ∧
      c.drain see t = (s.items.map (·.version)).filter (Visibility.admits see .read) := by
  obtain ⟨depth, hopens⟩ := h.first_opens see ix
  exact ⟨_, depth, hopens, h.drain_cursor (List.nil_append _).symm rfl rfl rfl⟩

theorem drain_last (h : t.Holds s) (see : Option Visibility) :
    ∃ c : Cursor, last see t = .ok c ∧
      c.drain see t = ((s.items.map (·.version)).filter (Visibility.admits see .read)).reverse := by
  refine ⟨_, h.last_opens see, ?_⟩
  rw [← List.filter_reverse, ← List.map_reverse]
  exact h.drain_cursor (List.nil_append _).symm rfl rfl rfl

theorem count_from (h : t.Holds s) (see : Option Visibility) {steps : Nat}
    (hsplit : s.itemsToward .right = xs ++ ys)
    (hsteps : ys.length ≤ steps) :
    countFrom see t steps ((ys.find? fun e => Visibility.admits see .read e.version).map (·.id)) =
      .ok ((ys.map (·.version)).filter (Visibility.admits see .read)).length := by
  -- By induction on what is left of the walk, of which only the readable items take a step.
  induction ys generalizing xs steps with
  | nil => cases steps <;> rfl
  | cons e ys ih =>
    have hsplit' := hsplit.trans (List.append_cons xs e ys)
    rw [List.length_cons] at hsteps
    rw [List.find?_cons, List.map_cons, List.filter_cons]
    cases hadmits : Visibility.admits see .read e.version with
    | false => exact ih hsplit' (Nat.le_of_succ_le hsteps)
    | true =>
      obtain ⟨steps, rfl⟩ : ∃ n, steps = n + 1 := Nat.exists_eq_succ_of_ne_zero (by omega)
      have hafter := h.readable_after see hsplit
      have hrest := ih hsplit' (Nat.le_of_succ_le_succ hsteps)
      simp only [Option.map_some, countFrom, hafter]
      change (do return 1 + (← countFrom see t steps _)) = _
      rw [hrest, if_true, List.length_cons, Nat.add_comm]
      rfl

theorem node_count (h : t.Holds s) (see : Option Visibility) :
    nodeCount see t =
      .ok ((s.items.map (·.version)).filter (Visibility.admits see .read)).length := by
  cases hroot : t.root with
  | none =>
    obtain rfl := h.leaf_of_root hroot
    simp only [nodeCount, hroot]
    rfl
  | some root =>
    obtain ⟨id, depth, hwalk, hhead⟩ := h.start_of_walk .right hroot
    have hreadable := h.readable_from see (List.nil_append (s.itemsToward .right)).symm
    rw [hhead] at hreadable
    have hfirst : t.leftmost root = .ok (id, depth) := hwalk
    have hall := (List.nil_append (s.itemsToward .right)).symm
    have hcount := h.count_from see hall (Nat.le_succ_of_le (h.length_of_split hall))
    simp only [nodeCount, hroot, hfirst]
    change (do countFrom see t (t.slots.size + 1) (← readableFrom see t .right (some id))) = _
    rw [hreadable]
    exact hcount

end Tree.Holds

end VersionedIndex
