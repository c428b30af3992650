import VersionedIndex.Proofs.Index.Ordered
import VersionedIndex.Proofs.Index.Runs

/-! A cursor on a tree that is written to. A linked node stays in its slot, so what has been yielded
stays behind the cursor and what has still to be yielded stays ahead of it. -/

namespace VersionedIndex

namespace KeyOrder

def Along (o : KeyOrder) : Side → Version → Version → Prop
  | .left, a, b => o.Before b a
  | .right, a, b => o.Before a b

variable {o : KeyOrder} {side : Side} {a b c : Version}

theorem Along.trans (ha : o.Accepts a.data) (hb : o.Accepts b.data) (hc : o.Accepts c.data)
    (hab : o.Along side a b) (hbc : o.Along side b c) : o.Along side a c := by
  cases side with
  | left => exact Before.trans hc hb ha hbc hab
  | right => exact Before.trans ha hb hc hab hbc

theorem Along.asymm (ha : o.Accepts a.data) (hb : o.Accepts b.data) (hab : o.Along side a b) :
    ¬o.Along side b a := by
  cases side with
  | left => exact Before.asymm hb ha hab
  | right => exact Before.asymm ha hb hab

theorem not_along_self (ha : o.Accepts a.data) : ¬o.Along side a a := by
  intro hself
  exact hself.asymm ha ha hself

end KeyOrder

namespace Index

variable {ix : Index} {t t' : Tree} {s s' : Shape} {v : Version} {side : Side}

structure Welcomes (ix : Index) (t : Tree) (v : Version) : Prop where
  room : t.HasRoom
  accepted : ix.order.Accepts v.data
  fresh : ∀ w ∈ t.versions, w.id ≠ v.id

inductive Builds (ix : Index) : Tree → Prop
  | empty : ix.Builds {}
  | insert {t : Tree} (see : Option Visibility) (v : Version) :
    ix.Builds t → ix.Welcomes t v → ix.Builds ((ix.insert see v).outcome t).2
  | delete {t : Tree} (row : RowId) :
    ix.Builds t → ix.Builds ((TreeAction.removeRow row).outcome t).2
  | reclaim {t : Tree} : ix.Builds t → ix.Builds t.reclaim.2

/-- The tree has been written to and is in order again. Its items are where they were, save that of
the row `gone`, whose slot is retired now, as are all slots that were retired before. -/
structure Rewrites (ix : Index) (t : Tree) (s : Shape) (gone : Option RowId) (t' : Tree)
    (s' : Shape) : Prop where
  orders : ix.Orders t' s'
  stays : ∀ e ∈ s.items, e ∈ s'.items ∨ gone = some e.version.id ∧ e.id ∈ t'.retired
  retired : ∀ id ∈ t.retired, id ∈ t'.retired

namespace Orders

theorem rewrites_self (h : ix.Orders t s) (gone : Option RowId) : ix.Rewrites t s gone t s where
  orders := h
  stays _ he := Or.inl he
  retired _ hid := hid

theorem insert_rewrites (h : ix.Orders t s) (see : Option Visibility) (hv : ix.Welcomes t v) :
    ∃ s', ix.Rewrites t s none ((ix.insert see v).outcome t).2 s' := by
  have hfresh : ∀ e ∈ s.items, e.version.id ≠ v.id := by
    intro e he
    exact hv.fresh e.version (h.holds.mem_versions.mpr ⟨e, he, rfl⟩)
  rcases h.insert see hv.room hv.accepted hfresh with
    ⟨err, hfail⟩ | ⟨t', s', p, hok, h', rfl, -, hitems, -, hretired, -⟩
  · rw [Action.outcome, hfail]
    exact ⟨s, h.rewrites_self none⟩
  · rw [Action.outcome, hok]
    refine ⟨s', h', ?_, fun id hid => hretired ▸ hid⟩
    intro e he
    rw [Path.items_plug, Shape.items, List.append_nil, List.mem_append] at he
    rw [hitems, List.mem_append, List.mem_cons]
    exact Or.inl (he.imp_right Or.inr)

theorem delete_rewrites (h : ix.Orders t s) (row : RowId) :
    ∃ s', ix.Rewrites t s (some row) ((TreeAction.removeRow row).outcome t).2 s' := by
  rcases h.delete row with
    ⟨before, e, after, t', s', hitems, rfl, hrun, h', hitems', hretired⟩ | ⟨-, hrun⟩
  · rw [Action.outcome, hrun]
    refine ⟨s', h', ?_, ?_⟩
    · intro e' he'
      rw [hitems, List.mem_append, List.mem_cons] at he'
      rw [hitems', List.mem_append, hretired]
      rcases he' with hbefore | rfl | hafter
      · exact Or.inl (Or.inl hbefore)
      · exact Or.inr ⟨rfl, Array.mem_push_self⟩
      · exact Or.inl (Or.inr hafter)
    · intro id hid
      rw [hretired]
      exact Array.mem_push_of_mem e.id hid
  · rw [Action.outcome, hrun]
    exact ⟨s, h.rewrites_self (some row)⟩

theorem sorted_toward (h : ix.Orders t s) (side : Side) :
    (s.itemsToward side).Pairwise fun a b => ix.order.Along side a.version b.version := by
  have hsorted := List.pairwise_map.mp h.sorted
  cases side with
  | left => exact List.pairwise_reverse.mpr hsorted
  | right => exact hsorted

theorem mem_rest (h : ix.Orders t s) {xs ys : List Item} {e e' : Item}
    (hsplit : s.itemsToward side = xs ++ e :: ys) (he' : e' ∈ s.items)
    (hahead : ix.order.Along side e.version e'.version) : e' ∈ ys := by
  have he : e ∈ s.items := Tree.Holds.mem_of_split hsplit List.mem_cons_self
  have hsorted := h.sorted_toward side
  rw [hsplit, List.pairwise_append] at hsorted
  have hplace := he'
  rw [← Shape.mem_items_toward side, hsplit, List.mem_append, List.mem_cons] at hplace
  rcases hplace with hbefore | rfl | hafter
  · have hbehind := hsorted.2.2 e' hbefore e List.mem_cons_self
    exact absurd hbehind (hahead.asymm (h.accepted e he) (h.accepted e' he'))
  · exact absurd hahead (KeyOrder.not_along_self (h.accepted e' he))
  · exact hafter

end Orders

theorem Builds.orders (h : ix.Builds t) : ∃ s, ix.Orders t s := by
  induction h with
  | empty => exact ⟨.leaf, Orders.empty ix⟩
  | insert see v _ hv ih =>
    obtain ⟨s, hs⟩ := ih
    obtain ⟨s', hs'⟩ := hs.insert_rewrites see hv
    exact ⟨s', hs'.orders⟩
  | delete row _ ih =>
    obtain ⟨s, hs⟩ := ih
    obtain ⟨s', hs'⟩ := hs.delete_rewrites row
    exact ⟨s', hs'.orders⟩
  | reclaim _ ih =>
    obtain ⟨s, hs⟩ := ih
    exact ⟨s, hs.reclaim⟩

end Index

/-- A cursor at work on a tree: what it has yielded so far, which of the versions that were in the
tree at the start have been in it ever since, and whether the row it stood on has been deleted. -/
structure Iteration where
  tree : Tree
  cursor : Cursor
  yielded : List Version := []
  stayed : List Version
  interrupted : Bool := false

namespace Iteration

inductive Move where
  | next
  | insert (see : Option Visibility) (v : Version)
  | delete (row : RowId)

def rewrite (i : Iteration) (t : Tree) (interrupted : Bool) : Iteration :=
  { i with tree := t, stayed := i.stayed.filter (· ∈ t.versions), interrupted }

def step (ix : Index) (see : Option Visibility) (i : Iteration) : Move → Iteration
  | .next =>
    match i.cursor.advance see i.tree with
    | .ok (some v, c) => { i with cursor := c, yielded := i.yielded ++ [v] }
    | .ok (none, c) => { i with cursor := c }
    | .error _ => i
  | .insert see v => i.rewrite ((ix.insert see v).outcome i.tree).2 i.interrupted
  | .delete row =>
    i.rewrite ((TreeAction.removeRow row).outcome i.tree).2
      (i.interrupted || i.cursor.nextRowId? i.tree == some row)

def Allows (ix : Index) (i : Iteration) : Move → Prop
  | .insert _ v => ix.Welcomes i.tree v
  | .next | .delete _ => True

inductive Reaches (ix : Index) (see : Option Visibility) : Side → Iteration → Prop
  | first {t : Tree} {c : Cursor} {any any' : Index} :
    ix.Builds t → Index.first see t any = .ok c any' →
    Reaches ix see .right { tree := t, cursor := c, stayed := t.versions }
  | last {t : Tree} {c : Cursor} :
    ix.Builds t → Index.last see t = .ok c →
    Reaches ix see .left { tree := t, cursor := c, stayed := t.versions }
  | step {side : Side} {i : Iteration} (m : Move) :
    Reaches ix see side i → i.Allows ix m → Reaches ix see side (i.step ix see m)

variable {ix : Index} {see : Option Visibility} {side : Side} {i : Iteration} {s s' : Shape}

/-- Where the cursor stands: before the item that it yields next, with what it has yielded behind it
and what it has still to yield ahead; on a retired slot, since its row has been deleted; or at the end,
when nothing is left to yield. -/
inductive Stands (ix : Index) (see : Option Visibility) (side : Side) (i : Iteration)
    (s : Shape) : Prop
  | before (e : Item) (hnext : i.cursor.next = some e.id) (he : e ∈ s.items)
      (hreadable : Visibility.admits see .read e.version = true)
      (hbehind : ∀ v ∈ i.yielded, ix.order.Along side v e.version)
      (hahead : ∀ v ∈ i.stayed, Visibility.admits see .read v = true →
        v ∈ i.yielded ∨ v = e.version ∨ ix.order.Along side e.version v)
  | retired (id : NodeId) (hnext : i.cursor.next = some id) (hid : id ∈ i.tree.retired)
      (hflag : i.interrupted = true)
  | ended (hnext : i.cursor.next = none)
      (hall : i.interrupted = false →
        ∀ v ∈ i.stayed, Visibility.admits see .read v = true → v ∈ i.yielded)

/-- The first readable item of the rest of a walk is where the cursor has to stand, as long as all
that has been yielded comes before the rest. -/
theorem Stands.of_find {t : Tree} (h : ix.Orders t s) {xs ys : List Item}
    (hsplit : s.itemsToward side = xs ++ ys)
    (hnext : i.cursor.next = (ys.find? fun e => Visibility.admits see .read e.version).map (·.id))
    (hyielded : ∀ v ∈ i.yielded, ∀ e ∈ ys, ix.order.Along side v e.version)
    (hstayed : ∀ v ∈ i.stayed, Visibility.admits see .read v = true →
      v ∈ i.yielded ∨ ∃ e ∈ ys, e.version = v) :
    Stands ix see side i s := by
  cases hfind : ys.find? fun e => Visibility.admits see .read e.version with
  | none =>
    rw [hfind] at hnext
    apply Stands.ended hnext
    intro _ v hv hreadable
    rcases hstayed v hv hreadable with hyielded | ⟨e, he, rfl⟩
    · exact hyielded
    · exact absurd hreadable (List.find?_eq_none.mp hfind e he)
  | some e =>
    rw [hfind] at hnext
    obtain ⟨hreadable, skipped, rest, rfl, hskipped⟩ := List.find?_eq_some_iff_append.mp hfind
    have he : e ∈ skipped ++ e :: rest := List.mem_append_right _ List.mem_cons_self
    have hsorted := h.sorted_toward side
    rw [hsplit, List.pairwise_append, List.pairwise_append, List.pairwise_cons] at hsorted
    refine Stands.before e hnext (Tree.Holds.mem_of_split hsplit he) hreadable ?_ ?_
    · intro v hv
      exact hyielded v hv e he
    · intro v hv hadmits
      rcases hstayed v hv hadmits with hyielded | ⟨e', he', rfl⟩
      · exact Or.inl hyielded
      · rcases List.mem_append.mp he' with hskip | hrest
        · have hunreadable := hskipped e' hskip
          rw [hadmits] at hunreadable
          cases hunreadable
        · rcases List.mem_cons.mp hrest with rfl | hrest
          · exact Or.inr (Or.inl rfl)
          · exact Or.inr (Or.inr (hsorted.2.1.2.1.1 e' hrest))

theorem mem_stayed_of_rewrite {t' : Tree} {flag : Bool} {v : Version}
    (hv : v ∈ (i.rewrite t' flag).stayed) :
    v ∈ i.stayed ∧ v ∈ t'.versions := by
  rw [rewrite, List.mem_filter, decide_eq_true_eq] at hv
  exact hv

/-- A write leaves the cursor where it stands, or retires the slot below it. -/
theorem Stands.of_rewrite (h : Stands ix see side i s) {gone : Option RowId} {t' : Tree}
    {flag : Bool} (hrewrites : ix.Rewrites i.tree s gone t' s')
    (hlasting : i.interrupted = true → flag = true)
    (hgone : ∀ e ∈ s.items, i.cursor.next = some e.id → gone = some e.version.id → flag = true) :
    Stands ix see side (i.rewrite t' flag) s' := by
  cases h with
  | before e hnext he hreadable hbehind hahead =>
    rcases hrewrites.stays e he with he' | ⟨hrow, hid⟩
    · refine Stands.before e hnext he' hreadable hbehind ?_
      intro v hv hadmits
      exact hahead v (mem_stayed_of_rewrite hv).1 hadmits
    · exact Stands.retired e.id hnext hid (hgone e he hnext hrow)
  | retired id hnext hid hflag =>
    exact Stands.retired id hnext (hrewrites.retired id hid) (hlasting hflag)
  | ended hnext hall =>
    refine Stands.ended hnext ?_
    intro hflag v hv hadmits
    have hquiet : i.interrupted = false := by
      rw [← Bool.not_eq_true]
      intro hbefore
      exact Bool.eq_false_iff.mp hflag (hlasting hbefore)
    exact hall hquiet v (mem_stayed_of_rewrite hv).1 hadmits

structure Tracks (ix : Index) (see : Option Visibility) (side : Side) (i : Iteration)
    (s : Shape) : Prop where
  orders : ix.Orders i.tree s
  heading : i.cursor.heading = side
  lasting : i.cursor.single = false
  accepted : ∀ v ∈ i.yielded, ix.order.Accepts v.data
  ordered : i.yielded.Pairwise (ix.order.Along side)
  stayed : ∀ v ∈ i.stayed, v ∈ i.tree.versions
  stands : Stands ix see side i s

namespace Tracks

theorem of_scan {t : Tree} {c : Cursor} (h : ix.Orders t s)
    (hnext : c.next = ((s.itemsToward side).find? fun e =>
      Visibility.admits see .read e.version).map (·.id))
    (hside : c.heading = side) (hsingle : c.single = false) :
    Tracks ix see side { tree := t, cursor := c, stayed := t.versions } s where
  orders := h
  heading := hside
  lasting := hsingle
  accepted := by simp
  ordered := List.Pairwise.nil
  stayed _ hv := hv
  stands := by
    refine Stands.of_find h (List.nil_append _).symm hnext (by simp) ?_
    intro v hv _
    obtain ⟨e, he, hversion⟩ := h.holds.mem_versions.mp hv
    exact Or.inr ⟨e, (Shape.mem_items_toward side).mpr he, hversion⟩

theorem advance_of_before (h : Tracks ix see side i s) {e : Item} {xs ys : List Item}
    (hnext : i.cursor.next = some e.id) (hsplit : s.itemsToward side = xs ++ e :: ys) :
    i.cursor.advance see i.tree = .ok (some e.version, { i.cursor with
      next := (ys.find? fun e => Visibility.admits see .read e.version).map (·.id)
      last := some e.version }) := by
  rw [← h.heading] at hsplit
  rw [h.orders.holds.advance_of_item see hnext hsplit, if_neg (by rw [h.lasting]; decide)]

theorem advance_of_retired (h : Tracks ix see side i s) {id : NodeId}
    (hnext : i.cursor.next = some id) (hid : id ∈ i.tree.retired) :
    i.cursor.advance see i.tree = .ok (none, i.cursor.release) := by
  obtain ⟨n, hn, hdeleted⟩ := h.orders.holds.node_of_retired hid
  exact Cursor.advance_of_deleted hnext hn hdeleted

/-- A step from an item: what it yields comes behind the cursor, and that goes on to the next readable
item. -/
theorem next_of_before (h : Tracks ix see side i s) {e : Item} (hnext : i.cursor.next = some e.id)
    (he : e ∈ s.items) (hbehind : ∀ v ∈ i.yielded, ix.order.Along side v e.version)
    (hahead : ∀ v ∈ i.stayed, Visibility.admits see .read v = true →
      v ∈ i.yielded ∨ v = e.version ∨ ix.order.Along side e.version v) :
    Tracks ix see side (i.step ix see .next) s := by
  obtain ⟨xs, ys, hsplit⟩ := List.append_of_mem ((Shape.mem_items_toward side).mpr he)
  have hsplit' := hsplit.trans (List.append_cons xs e ys)
  have haccepts := h.orders.accepted
  have hsorted := h.orders.sorted_toward side
  rw [hsplit, List.pairwise_append, List.pairwise_cons] at hsorted
  have hmem {v : Version} : v ∈ i.yielded ++ [e.version] ↔ v ∈ i.yielded ∨ v = e.version := by
    rw [List.mem_append, List.mem_singleton]
  simp only [step, h.advance_of_before hnext hsplit]
  refine ⟨h.orders, h.heading, h.lasting, ?_, ?_, h.stayed, ?_⟩
  · intro v hv
    rcases hmem.mp hv with hv | rfl
    · exact h.accepted v hv
    · exact haccepts e he
  · rw [List.pairwise_append]
    refine ⟨h.ordered, List.pairwise_singleton _ _, ?_⟩
    intro v hv w hw
    rw [List.mem_singleton.mp hw]
    exact hbehind v hv
  · apply Stands.of_find h.orders hsplit' rfl
    · intro v hv e' he'
      have hafter : ix.order.Along side e.version e'.version := hsorted.2.1.1 e' he'
      have hitem : e' ∈ s.items := Tree.Holds.mem_of_split hsplit' he'
      rcases hmem.mp hv with hv | rfl
      · exact (hbehind v hv).trans (h.accepted v hv) (haccepts e he) (haccepts e' hitem) hafter
      · exact hafter
    · intro v hv hadmits
      rcases hahead v hv hadmits with hyielded | rfl | hafter
      · exact Or.inl (hmem.mpr (Or.inl hyielded))
      · exact Or.inl (hmem.mpr (Or.inr rfl))
      · obtain ⟨e', he', rfl⟩ := h.orders.holds.mem_versions.mp (h.stayed v hv)
        exact Or.inr ⟨e', h.orders.mem_rest hsplit he' hafter, rfl⟩

theorem next (h : Tracks ix see side i s) : Tracks ix see side (i.step ix see .next) s := by
  cases h.stands with
  | before e hnext he _ hbehind hahead => exact h.next_of_before hnext he hbehind hahead
  | retired id hnext hid hflag =>
    simp only [step, h.advance_of_retired hnext hid]
    refine ⟨h.orders, h.heading, h.lasting, h.accepted, h.ordered, h.stayed, ?_⟩
    apply Stands.ended rfl
    intro hquiet
    exact absurd hflag (Bool.eq_false_iff.mp hquiet)
  | ended hnext _ =>
    simp only [step, Cursor.advance_of_ended hnext]
    exact h

/-- The tree under the cursor has been written to. -/
theorem of_rewrite (h : Tracks ix see side i s) {gone : Option RowId} {t' : Tree} {flag : Bool}
    (hrewrites : ix.Rewrites i.tree s gone t' s') (hlasting : i.interrupted = true → flag = true)
    (hgone : ∀ e ∈ s.items, i.cursor.next = some e.id → gone = some e.version.id → flag = true) :
    Tracks ix see side (i.rewrite t' flag) s' := by
  refine ⟨hrewrites.orders, h.heading, h.lasting, h.accepted, h.ordered, ?_, ?_⟩
  · intro v hv
    exact (mem_stayed_of_rewrite hv).2
  · exact h.stands.of_rewrite hrewrites hlasting hgone

theorem insert (h : Tracks ix see side i s) (see' : Option Visibility) {v : Version}
    (hv : ix.Welcomes i.tree v) : ∃ s', Tracks ix see side (i.step ix see (.insert see' v)) s' := by
  obtain ⟨s', hs'⟩ := h.orders.insert_rewrites see' hv
  exact ⟨s', h.of_rewrite hs' id nofun⟩

theorem next_row_id (h : Tracks ix see side i s) {e : Item} (he : e ∈ s.items)
    (hnext : i.cursor.next = some e.id) : i.cursor.nextRowId? i.tree = some e.version.id := by
  obtain ⟨n, hn, hversion, hlive⟩ := h.orders.holds.node_of_mem he
  rw [Cursor.nextRowId?, hnext]
  change (i.tree.slots[e.id]?.bind fun n => if n.isDeleted then none else some n.version.id) = _
  rw [Tree.slot_of_node hn, ← hversion]
  change (if n.isDeleted = true then none else some n.version.id) = _
  rw [hlive]
  rfl

theorem delete (h : Tracks ix see side i s) (row : RowId) :
    ∃ s', Tracks ix see side (i.step ix see (.delete row)) s' := by
  obtain ⟨s', hs'⟩ := h.orders.delete_rewrites row
  refine ⟨s', h.of_rewrite hs' ?_ ?_⟩
  · intro hflag
    rw [hflag, Bool.true_or]
  · intro e he hnext hrow
    rw [h.next_row_id he hnext, ← hrow, beq_self_eq_true, Bool.or_true]

theorem step (h : Tracks ix see side i s) {m : Move} (hm : i.Allows ix m) :
    ∃ s', Tracks ix see side (i.step ix see m) s' := by
  cases m with
  | next => exact ⟨s, h.next⟩
  | insert see' v => exact h.insert see' hm
  | delete row => exact h.delete row

end Tracks

theorem Reaches.tracks (h : Reaches ix see side i) : ∃ s, Tracks ix see side i s := by
  induction h with
  | first hbuilds hopens =>
    obtain ⟨s, hs⟩ := hbuilds.orders
    obtain ⟨depth, hfirst⟩ := hs.holds.first_opens see _
    rw [hfirst] at hopens
    cases hopens
    exact ⟨s, Tracks.of_scan hs rfl rfl rfl⟩
  | last hbuilds hopens =>
    obtain ⟨s, hs⟩ := hbuilds.orders
    rw [hs.holds.last_opens see] at hopens
    cases hopens
    exact ⟨s, Tracks.of_scan hs rfl rfl rfl⟩
  | step m _ hm ih =>
    obtain ⟨s, hs⟩ := ih
    exact hs.step hm

/-- However the tree is written to between its steps, a cursor yields versions in the order of its
walk, each while the tree holds it. When it comes to its end, and the row it stood on has never been
deleted, it has yielded each readable version that was in the tree all the while exactly once. -/
theorem Reaches.yields_in_order (h : Reaches ix see side i) :
    i.yielded.Pairwise (ix.order.Along side) ∧
    (∃ (yielded : Option Version) (c : Cursor),
      i.cursor.advance see i.tree = .ok (yielded, c) ∧
      ∀ v ∈ yielded, v ∈ i.tree.versions ∧ Visibility.admits see .read v = true) ∧
    ((∃ c, i.cursor.advance see i.tree = .ok (none, c)) → i.interrupted = false →
      ∀ v ∈ i.stayed, Visibility.admits see .read v = true → i.yielded.count v = 1) := by
  obtain ⟨s, hs⟩ := h.tracks
  refine ⟨hs.ordered, ?_, ?_⟩
  · cases hs.stands with
    | before e hnext he hreadable =>
      obtain ⟨xs, ys, hsplit⟩ := List.append_of_mem ((Shape.mem_items_toward side).mpr he)
      refine ⟨_, _, hs.advance_of_before hnext hsplit, ?_⟩
      intro v hv
      obtain rfl := Option.some.inj hv
      exact ⟨hs.orders.holds.mem_versions.mpr ⟨e, he, rfl⟩, hreadable⟩
    | retired id hnext hid => exact ⟨none, _, hs.advance_of_retired hnext hid, nofun⟩
    | ended hnext => exact ⟨none, _, Cursor.advance_of_ended hnext, nofun⟩
  · rintro ⟨c, hend⟩ hquiet v hv hreadable
    have hnodup : i.yielded.Nodup := by
      refine hs.ordered.imp_of_mem ?_
      rintro a b ha - halong rfl
      exact KeyOrder.not_along_self (hs.accepted a ha) halong
    apply List.count_eq_one_of_mem hnodup
    cases hs.stands with
    | before e hnext he =>
      obtain ⟨xs, ys, hsplit⟩ := List.append_of_mem ((Shape.mem_items_toward side).mpr he)
      rw [hs.advance_of_before hnext hsplit] at hend
      cases hend
    | retired id hnext hid hflag => exact absurd hflag (Bool.eq_false_iff.mp hquiet)
    | ended hnext hall => exact hall hquiet v hv hreadable

/-- The cursor yields one of three versions. Then one goes in behind it and one ahead of it, and what
it has yielded is deleted; it goes on to its end. -/
theorem sample_yields_in_order :
    ∃ i : Iteration, Reaches Index.sample none .right i ∧
      i.yielded = [Index.sampleVersion 1 10, Index.sampleVersion 2 20, Index.sampleVersion 5 25,
        Index.sampleVersion 3 30] ∧
      i.stayed = [Index.sampleVersion 2 20, Index.sampleVersion 3 30] ∧
      i.yielded.Pairwise (Index.sample.order.Along .right) ∧
      ∀ v ∈ i.stayed, i.yielded.count v = 1 := by
  have h₁ : Index.sample.Builds _ := Index.Builds.empty.insert none (Index.sampleVersion 1 10)
    ⟨Or.inr (by decide +kernel), by decide, by decide +kernel⟩
  have h₂ := h₁.insert none (Index.sampleVersion 2 20)
    ⟨Or.inr (by decide +kernel), by decide, by decide +kernel⟩
  have h₃ := h₂.insert none (Index.sampleVersion 3 30)
    ⟨Or.inr (by decide +kernel), by decide, by decide +kernel⟩
  have hopen : Reaches Index.sample none .right _ :=
    Reaches.first h₃ (rfl : Index.first none _ Index.sample =
      .ok { next := some 0 } { Index.sample with scanDepth := 2 })
  have hbehind := (hopen.step .next trivial).step (.insert none (Index.sampleVersion 4 5))
    ⟨Or.inr (by decide +kernel), by decide, by decide +kernel⟩
  have hahead := hbehind.step (.insert none (Index.sampleVersion 5 25))
    ⟨Or.inr (by decide +kernel), by decide, by decide +kernel⟩
  have hdeleted := hahead.step (.delete 1) trivial
  have hend := ((hdeleted.step .next trivial).step .next trivial).step .next trivial
  obtain ⟨hordered, -, hcomplete⟩ := hend.yields_in_order
  refine ⟨_, hend, by decide +kernel, by decide +kernel, hordered, ?_⟩
  intro v hv
  exact hcomplete ⟨_, Cursor.advance_of_ended (by decide +kernel)⟩ (by decide +kernel) v hv rfl

end Iteration

end VersionedIndex
