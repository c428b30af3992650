import VersionedIndex.Proofs.Index.Equal
import VersionedIndex.Proofs.Index.Runs
import VersionedIndex.Index.Check

namespace VersionedIndex

open Index

def Shape.Leads (s : Shape) (link : Option NodeId) : Prop := ∀ id ∈ link, ∃ e ∈ s.items, e.id = id

theorem Shape.leads_none (s : Shape) : s.Leads none := nofun

theorem Shape.leads_some {s : Shape} {e : Item} (he : e ∈ s.items) : s.Leads (some e.id) := by
  intro id hid
  exact ⟨e, he, Option.some.inj hid⟩

def landing (see : Option Visibility) (mode : ReadMode) (wanted : Row → Bool) (l : List Item) :
    Option NodeId :=
  (l.find? fun e => wanted e.version.data && Visibility.admits see mode e.version).map (·.id)

section Landing

variable {see : Option Visibility} {mode : ReadMode} {wanted : Row → Bool} {l : List Item}
  {e : Item}

theorem landing_append (l r : List Item) : landing see mode wanted (l ++ r) =
    (landing see mode wanted l).or (landing see mode wanted r) := by
  rw [landing, List.find?_append, Option.map_or]
  rfl

theorem landing_eq_none (h : ∀ x ∈ l, wanted x.version.data = false) :
    landing see mode wanted l = none := by
  rw [landing, List.find?_eq_none.mpr fun x hx => by simp [h x hx]]
  rfl

theorem landing_cons_of_unwanted (h : wanted e.version.data = false) :
    landing see mode wanted (e :: l) = landing see mode wanted l := by
  rw [landing, List.find?_cons_of_neg (by simp [h])]
  rfl

theorem landing_cons_of_wanted (h : wanted e.version.data = true) :
    landing see mode wanted (e :: l) =
      if Visibility.admits see mode e.version then some e.id else landing see mode wanted l := by
  rw [landing, List.find?_cons, h, Bool.true_and]
  cases Visibility.admits see mode e.version <;> rfl

/-- Without a visibility, what comes before the first wanted row is unwanted. -/
theorem landing_none_cases (mode : ReadMode) (wanted : Row → Bool) (l : List Item) :
    (landing none mode wanted l = none ∧ ∀ x ∈ l, wanted x.version.data = false) ∨
    ∃ xs e ys, l = xs ++ e :: ys ∧ (∀ x ∈ xs, wanted x.version.data = false) ∧
      wanted e.version.data = true ∧ landing none mode wanted l = some e.id := by
  induction l with
  | nil => exact Or.inl ⟨rfl, nofun⟩
  | cons e l ih =>
    cases he : wanted e.version.data with
    | true => exact Or.inr ⟨[], e, l, rfl, nofun, he, landing_cons_of_wanted he⟩
    | false =>
      rw [landing_cons_of_unwanted he]
      rcases ih with ⟨hnone, hall⟩ | ⟨xs, x, ys, rfl, hxs, hx, hland⟩
      · exact Or.inl ⟨hnone, List.forall_mem_cons.mpr ⟨he, hall⟩⟩
      · exact Or.inr ⟨e :: xs, x, ys, rfl, List.forall_mem_cons.mpr ⟨he, hxs⟩, hx, hland⟩

theorem isSome_landing : (landing see mode wanted l).isSome =
    l.any fun e => wanted e.version.data && Visibility.admits see mode e.version := by
  rw [landing, Option.isSome_map, Bool.eq_iff_iff, List.find?_isSome, List.any_eq_true]

/-- Among rows that are all wanted, it does not matter what is wanted. -/
theorem landing_eq_of_wanted (h : ∀ x ∈ l, wanted x.version.data = true) :
    landing see mode wanted l = landing see mode (fun _ => true) l := by
  induction l with
  | nil => rfl
  | cons e l ih =>
    rw [List.forall_mem_cons] at h
    rw [landing_cons_of_wanted h.1, ih h.2]
    exact (landing_cons_of_wanted rfl).symm

theorem exists_of_landing {id : NodeId} (h : landing see mode wanted l = some id) :
    ∃ e ∈ l, e.id = id ∧ wanted e.version.data = true ∧ Visibility.admits see mode e.version = true := by
  obtain ⟨e, hfind, rfl⟩ := Option.map_eq_some_iff.mp h
  have hfound := List.find?_some hfind
  rw [Bool.and_eq_true] at hfound
  exact ⟨e, List.mem_of_find?_eq_some hfind, rfl, hfound.1, hfound.2⟩

end Landing

variable {t : Tree} {s : Shape} {side : Side} {xs ys : List Item} {ix : Index}
  {see : Option Visibility} {v : Version}

namespace Tree.Holds

theorem mem_plug {p : Path} {near far : Shape} {e : Item} {b : Int8} (side : Side) :
    e ∈ (p.plug (.join side near e b far)).items := by
  rw [← Shape.mem_items_toward side, Path.items_toward_plug, Shape.items_toward_join]
  simp

section Searches

variable {m : KeyMatch} {reversed : Bool} {mode : ReadMode} {compare : Row → Ordering}
  {stillEqual : Row → Bool}

/-- The way down ends, whichever way each comparison sends it, at the best node so far or at one that
its turn prefers. -/
theorem descend_from {p : Path} {steps : Nat} {best : Option NodeId}
    {P : Option NodeId → Prop} (h : t.Forms (p.plug s)) (hsteps : s.height ≤ steps)
    (hbest : P best) (hbetter : ∀ e ∈ (p.plug s).items,
      (m.turn reversed (compare e.version.data)).1 = true → P (some e.id)) :
    ∃ found, descendFrom t m reversed compare steps s.root? best = .ok found ∧ P found := by
  -- By induction on the subtree below; each step goes into one that is lower.
  induction s generalizing p steps best with
  | leaf =>
    refine ⟨best, ?_, hbest⟩
    cases steps <;> rfl
  | node left e b right ihl ihr =>
    rw [Shape.height] at hsteps
    obtain ⟨steps, rfl⟩ : ∃ n, steps = n + 1 := Nat.exists_eq_succ_of_ne_zero (by omega)
    have hjoin : t.Forms (p.plug (.join .left left e b right)) := h
    have hnode := hjoin.node
    have he : e ∈ (p.plug (.node left e b right)).items := mem_plug .left
    cases hturn : m.turn reversed (compare e.version.data) with
    | mk better side =>
      have hbest' : P (if better then some e.id else best) := by
        cases better with
        | true => exact hbetter e he (by rw [hturn])
        | false => exact hbest
      simp only [Shape.root_node, descendFrom, hnode, bind, Except.bind, Node.sided_version, hturn]
      cases side with
      | left => exact ihl (p := ⟨e, b, .left, right⟩ :: p) h (by omega) hbest' hbetter
      | right => exact ihr (p := ⟨e, b, .right, left⟩ :: p) h (by omega) hbest' hbetter

theorem descend (h : t.Holds s) (ix : Index) (m : KeyMatch) (reversed : Bool)
    (compare : Row → Ordering) :
    ∃ found, ix.descend t m reversed compare = .ok found ∧ s.Leads found := by
  rw [Index.descend]
  split
  · cases hroot : t.root with
    | none => exact ⟨none, rfl, s.leads_none⟩
    | some root =>
      obtain ⟨id, depth, hwalk, hhead⟩ := h.start_of_walk .right hroot
      obtain ⟨e, hfirst, rfl⟩ := Option.map_eq_some_iff.mp hhead
      have he : e ∈ s.items := List.mem_of_head? hfirst
      have hleftmost : t.leftmost root = .ok (e.id, depth) := hwalk
      have hversion := h.version_of_mem he
      simp only [hleftmost, leadingNotNull, hversion, bind, Except.bind, Except.map]
      split
      · exact ⟨_, rfl, Shape.leads_some he⟩
      · exact ⟨_, rfl, s.leads_none⟩
  · rw [h.root]
    have hheight := s.height_le_length
    have hlength := h.forms.length_le
    exact descend_from (p := []) (P := s.Leads) h.forms (by omega) s.leads_none
      fun e he _ => Shape.leads_some he

/-- From an item on, the walk to a readable one goes as far as it may. -/
theorem first_readable_lands {sight : Visibility} {e : Item} {steps : Nat} (h : t.Holds s)
    (hsplit : s.itemsToward side = xs ++ e :: ys) (hsteps : ys.length < steps) :
    ix.firstReadable sight t m mode side stillEqual steps (some e.id) =
      .ok (landing (some sight) mode (fun _ => true)
        (e :: ys.takeWhile fun x => ix.mayGoOn m stillEqual x.version.data)) := by
  induction steps generalizing xs e ys with
  | zero => cases hsteps
  | succ steps ih =>
    have hsplit' := hsplit.trans (List.append_cons xs e ys)
    simp only [firstReadable, h.version_of_mem (mem_of_split hsplit List.mem_cons_self),
      h.forms.neighbour hsplit, bind, Except.bind]
    rw [landing_cons_of_wanted rfl]
    by_cases hread : sight.canRead e.version mode = true
    · rw [if_pos hread, if_pos (show Visibility.admits (some sight) mode e.version = true from hread)]
      rfl
    · rw [if_neg hread, if_neg (show ¬ Visibility.admits (some sight) mode e.version = true from hread)]
      cases ys with
      | nil => rfl
      | cons e' ys =>
        have he' : e' ∈ s.items := mem_of_split hsplit' List.mem_cons_self
        simp only [List.head?_cons, Option.map_some, h.version_of_mem he', List.takeWhile_cons]
        cases ix.mayGoOn m stillEqual e'.version.data with
        | true => exact ih hsplit' (Nat.lt_of_succ_lt_succ hsteps)
        | false => rfl

/-- A search that finds an item on the way down lands on it or on a readable one on the walk from it. -/
theorem search_from (h : t.Holds s) (see : Option Visibility) {e : Item}
    (hdescend : ix.descend t m reversed compare = .ok (some e.id))
    (hsplit : s.itemsToward (if reversed then .left else .right) = xs ++ e :: ys) :
    ix.search see t m mode reversed compare stillEqual = .ok (landing see mode (fun _ => true)
      (e :: ys.takeWhile fun x => ix.mayGoOn m stillEqual x.version.data)) := by
  simp only [Index.search, hdescend, bind, Except.bind]
  cases see with
  | none => rfl
  | some sight =>
    have hlength := h.length_of_split (hsplit.trans (List.append_cons xs e ys))
    exact h.first_readable_lands hsplit (Nat.lt_succ_of_le hlength)

/-- A search that finds nothing on the way down finds nothing at all. -/
theorem search_of_none (see : Option Visibility)
    (hdescend : ix.descend t m reversed compare = .ok none) :
    ix.search see t m mode reversed compare stillEqual = .ok none := by
  simp only [Index.search, hdescend, bind, Except.bind]
  cases see <;> rfl

theorem search (h : t.Holds s) (ix : Index) (see : Option Visibility) (m : KeyMatch)
    (mode : ReadMode) (reversed : Bool) (compare : Row → Ordering) (stillEqual : Row → Bool) :
    ∃ found, ix.search see t m mode reversed compare stillEqual = .ok found ∧ s.Leads found := by
  obtain ⟨found, hdescend, hfound⟩ := h.descend ix m reversed compare
  cases found with
  | none => exact ⟨none, search_of_none see hdescend, s.leads_none⟩
  | some id =>
    obtain ⟨e, he, rfl⟩ := hfound id rfl
    let side : Side := if reversed then .left else .right
    obtain ⟨xs, ys, hsplit⟩ := List.append_of_mem ((Shape.mem_items_toward side).mpr he)
    refine ⟨_, h.search_from see hdescend hsplit, fun id hid => ?_⟩
    obtain ⟨x, hx, hid, -⟩ := exists_of_landing hid
    refine ⟨x, mem_of_split hsplit ?_, hid⟩
    exact (List.Sublist.cons_cons e (List.takeWhile_sublist _)).subset hx

end Searches

section Places

variable {test : Version → Bool} {useRowId : Bool}

theorem any_equal (h : t.Holds s) (ix : Index) (test : Version → Bool) {e : Item} (he : e ∈ s.items) :
    ∃ found, ix.anyEqual t e.id test = .ok found := by
  have hbeside (side : Side) : ∃ (next : Option NodeId) (found : Bool),
      t.neighbour side e.id = .ok next ∧
      ix.anyEqualToward t side e.version.data test (t.slots.size + 1) next = .ok found := by
    obtain ⟨xs, ys, hsplit⟩ := List.append_of_mem ((Shape.mem_items_toward side).mpr he)
    have hsplit' := hsplit.trans (List.append_cons xs e ys)
    refine ⟨_, _, h.forms.neighbour hsplit, any_equal_toward h hsplit' ?_⟩
    exact Nat.le_succ_of_le (h.length_of_split hsplit')
  obtain ⟨before, foundL, hpredecessor, hleft⟩ := hbeside .left
  obtain ⟨after, foundR, hsuccessor, hright⟩ := hbeside .right
  simp only [anyEqual, h.version_of_mem he, Tree.predecessor, Tree.successor, hpredecessor, hsuccessor,
    hleft, hright, bind, Except.bind]
  cases test e.version with
  | true => exact ⟨true, rfl⟩
  | false => cases foundL <;> exact ⟨_, rfl⟩

/-- What is reported at a node with an equal key is a duplicate. -/
theorem conflict (h : t.Holds s) (ix : Index) (see : Option Visibility) {e : Item}
    (he : e ∈ s.items) : ∃ err, ix.conflict see t e.id = .ok err ∧ err.isDuplicate = true := by
  unfold Index.conflict
  split
  · next sight _ =>
    obtain ⟨found, hany⟩ := h.any_equal ix (sight.canRead · .read) he
    simp only [hany, bind, Except.bind]
    cases found with
    | true => exact ⟨_, rfl, rfl⟩
    | false => exact ⟨_, rfl, rfl⟩
  · exact ⟨_, rfl, rfl⟩

theorem compare_at (h : t.Holds s) (ix : Index) (see : Option Visibility) (v : Version)
    (useRowId : Bool) {e : Item} (he : e ∈ s.items) :
    ∃ result, ix.compareAt see t v e.id useRowId = .ok result := by
  simp only [compareAt, h.version_of_mem he, bind, Except.bind]
  cases see with
  | none => exact ⟨_, rfl⟩
  | some sight =>
    obtain ⟨found, hany⟩ := h.any_equal ix (sight.canRead · .duplicate) he
    simp only [hany]
    split
    · cases found <;> exact ⟨_, rfl⟩
    · exact ⟨_, rfl⟩

theorem duplicate_of_conflict (h : t.Holds s) {e : Item} (he : e ∈ s.items) {err : Error}
    (hconflict : ix.conflict see t e.id = .ok err) : err.isDuplicate = true := by
  obtain ⟨err', hconflict', hduplicate⟩ := h.conflict ix see he
  cases hconflict.symm.trans hconflict'
  exact hduplicate

theorem conflict_none (ix : Index) (t : Tree) (id : NodeId) :
    ix.conflict none t id = .ok (.duplicateKey ix.name ix.constraint) := by
  cases hreport : ix.config.reportPendingDuplicates <;> simp only [Index.conflict, hreport] <;> rfl

/-- The way down for a version ends at a place for it, or at an item that compares equal, where it fails
with the conflict. What each turn keeps is true there. -/
theorem place_from {motive : Path → Bool → Prop} {p : Path} {id : NodeId} {steps : Nat}
    (h : t.Holds (p.plug s)) (hturns : ix.KeptByTurns see t v (p.plug s) motive)
    (hs : s.root? = some id) (hsteps : s.height ≤ steps) (hp : motive p useRowId) :
    (∃ place, ix.placeFrom see t v steps id useRowId = .ok place) ∨
    ∃ err, ix.placeFrom see t v steps id useRowId = .error err ∧
      ∃ e ∈ (p.plug s).items, ix.conflict see t e.id = .ok err ∧
        ∃ (q : Path) (useRowId useRowId' : Bool), motive q useRowId ∧
          ix.compareAt see t v e.id useRowId = .ok (.eq, useRowId') := by
  induction s generalizing p id steps useRowId with
  | leaf => cases hs
  | node left e b right ihl ihr =>
    obtain rfl : e.id = id := Option.some.inj hs
    rw [Shape.height] at hsteps
    obtain ⟨steps, rfl⟩ : ∃ n, steps = n + 1 := Nat.exists_eq_succ_of_ne_zero (by omega)
    have he : e ∈ (p.plug (.node left e b right)).items := mem_plug .left
    obtain ⟨⟨order, useRowId'⟩, hcompare⟩ := h.compare_at ix see v useRowId he
    obtain ⟨hlt, hgt⟩ := hturns p left e b right useRowId useRowId' order rfl hp hcompare
    cases order with
    | lt =>
      have hjoin : t.Forms (p.plug (.join .left left e b right)) := h.forms
      rw [place_from_turn hcompare (Or.inl ⟨rfl, rfl⟩) hjoin.child_near]
      cases hleft : left.root? with
      | none => exact Or.inl ⟨_, rfl⟩
      | some child =>
        exact ihl (p := ⟨e, b, .left, right⟩ :: p) h hturns hleft (by omega) (hlt rfl)
    | gt =>
      have hjoin : t.Forms (p.plug (.join .right right e b left)) := h.forms
      rw [place_from_turn hcompare (Or.inr ⟨rfl, rfl⟩) hjoin.child_near]
      cases hright : right.root? with
      | none => exact Or.inl ⟨_, rfl⟩
      | some child =>
        exact ihr (p := ⟨e, b, .right, left⟩ :: p) h hturns hright (by omega) (hgt rfl)
    | eq =>
      obtain ⟨err, hconflict, -⟩ := h.conflict ix see he
      refine Or.inr ⟨err, ?_, e, he, hconflict, p, useRowId, useRowId', hp, hcompare⟩
      simp only [placeFrom, hcompare, hconflict, bind, Except.bind, if_true]
      rfl

/-- The way down from the root of a tree fails only at an item that compares equal. -/
theorem place_from_root {motive : Path → Bool → Prop} (h : t.Holds s)
    (hturns : ix.KeptByTurns see t v s motive) (hstart : motive [] useRowId) {root : NodeId}
    (hroot : t.root = some root) {err : Error}
    (hfail : ix.placeFrom see t v (2 * t.slots.size + 2) root useRowId = .error err) :
    ∃ e ∈ s.items, ix.conflict see t e.id = .ok err ∧
      ∃ (q : Path) (useRowId useRowId' : Bool), motive q useRowId ∧
        ix.compareAt see t v e.id useRowId = .ok (.eq, useRowId') := by
  have hsteps : s.height ≤ 2 * t.slots.size + 2 := by
    have hheight := s.height_le_length
    have hlength := h.forms.length_le
    omega
  rcases place_from (p := []) h hturns (h.root.symm.trans hroot) hsteps hstart with
    ⟨place, hfound⟩ | ⟨err', hrefused, hitem⟩
  · cases hfound.symm.trans hfail
  · cases hrefused.symm.trans hfail
    exact hitem

theorem insert_fails (h : t.Holds s) (hroom : t.HasRoom) {err : Error} {t' : Tree}
    (hfail : ix.insert see v t = .error err t') : err.isDuplicate = true := by
  have hturns := ix.kept_by_turns_trivial see t v s
  rcases insert_outcome h hroom hturns trivial with
    ⟨root, err', hroot, hplace, hfail'⟩ | ⟨t'', p, useRowId, hok, -⟩
  · cases hfail'.symm.trans hfail
    obtain ⟨e, he, hconflict, -⟩ := h.place_from_root hturns trivial hroot hplace
    exact h.duplicate_of_conflict he hconflict
  · cases hok.symm.trans hfail

end Places

end Tree.Holds

def Cursor.StandsIn (c : Cursor) (t : Tree) : Prop := ∀ id ∈ c.next, id < t.slots.size

namespace Tree.Holds

section Cursors

variable {c : Cursor}

theorem stands_in_of_leads (h : t.Holds s) (hleads : s.Leads c.next) : c.StandsIn t := by
  intro id hid
  obtain ⟨e, he, rfl⟩ := hleads id hid
  obtain ⟨n, hn, -⟩ := h.node_of_mem he
  exact (Array.getElem?_eq_some_iff.mp (slot_of_node hn)).1

theorem leads_find (hsplit : s.itemsToward side = xs ++ ys) (p : Item → Bool) :
    s.Leads ((ys.find? p).map (·.id)) := by
  intro id hid
  obtain ⟨e, hfind, rfl⟩ := Option.map_eq_some_iff.mp hid
  exact ⟨e, mem_of_split hsplit (List.mem_of_find?_eq_some hfind), rfl⟩

/-- What a cursor may stand on: nothing, a node that is marked deleted, or an item. -/
theorem stands_cases (h : t.Holds s) (hc : c.StandsIn t) :
    c.next = none ∨
    (∃ id n, c.next = some id ∧ t.node id = .ok n ∧ n.isDeleted = true) ∨
    ∃ (e : Item) (xs ys : List Item), c.next = some e.id ∧
      s.itemsToward c.heading = xs ++ e :: ys := by
  cases hnext : c.next with
  | none => exact Or.inl rfl
  | some id =>
    obtain ⟨n, hslot⟩ : ∃ n, t.slots[id]? = some n := ⟨_, Array.getElem?_eq_getElem (hc id hnext)⟩
    have hn : t.node id = .ok n := by rw [Tree.node, hslot]
    refine Or.inr ?_
    cases hdeleted : n.isDeleted with
    | true => exact Or.inl ⟨id, _, rfl, hn, hdeleted⟩
    | false =>
      obtain ⟨e, he, rfl⟩ := h.item_of_live hn hdeleted
      obtain ⟨xs, ys, hsplit⟩ := List.append_of_mem ((Shape.mem_items_toward c.heading).mpr he)
      exact Or.inr ⟨e, xs, ys, rfl, hsplit⟩

theorem advance (h : t.Holds s) (see : Option Visibility) (hc : c.StandsIn t) :
    ∃ yielded c', c.advance see t = .ok (yielded, c') ∧ c'.StandsIn t := by
  rcases h.stands_cases hc with hend | ⟨id, n, hnext, hn, hdeleted⟩ | ⟨e, xs, ys, hnext, hsplit⟩
  · exact ⟨none, c, Cursor.advance_of_ended hend, hc⟩
  · exact ⟨none, _, Cursor.advance_of_deleted hnext hn hdeleted, nofun⟩
  · refine ⟨_, _, h.advance_of_item see hnext hsplit, h.stands_in_of_leads ?_⟩
    cases c.single with
    | true => exact s.leads_none
    | false => exact leads_find (hsplit.trans (List.append_cons xs e ys)) _

/-- A cursor on any slot comes to its end: however many steps it is given, it takes no more than
there are slots. -/
theorem take_ends (h : t.Holds s) (see : Option Visibility) (hc : c.StandsIn t) {limit : Nat}
    (hlimit : t.slots.size < limit) : Cursor.take see t limit c = c.drain see t := by
  have hends : ∃ l, ∀ limit, t.slots.size < limit → Cursor.take see t limit c = l := by
    rcases h.stands_cases hc with hend | ⟨id, n, hnext, hn, hdeleted⟩ | ⟨e, xs, ys, hnext, hsplit⟩
    · exact ⟨[], fun limit _ => Cursor.take_of_ended hend limit⟩
    · refine ⟨[], ?_⟩
      intro limit hlimit
      obtain ⟨limit, rfl⟩ := Nat.exists_eq_succ_of_ne_zero (Nat.ne_zero_of_lt hlimit)
      simp only [Cursor.take, Cursor.step, Cursor.advance_of_deleted hnext hn hdeleted]
    · have hadvance := h.advance_of_item see hnext hsplit
      have hlength := h.length_of_split hsplit
      rw [List.length_cons] at hlength
      cases hsingle : c.single with
      | true =>
        refine ⟨[e.version], ?_⟩
        intro limit hlimit
        obtain ⟨limit, rfl⟩ := Nat.exists_eq_succ_of_ne_zero (Nat.ne_zero_of_lt hlimit)
        simp only [Cursor.take, Cursor.step, hadvance, hsingle, if_true]
        exact congrArg (e.version :: ·) (Cursor.take_of_ended rfl limit)
      | false =>
        refine ⟨e.version :: (ys.map (·.version)).filter (Visibility.admits see .read), ?_⟩
        intro limit hlimit
        obtain ⟨limit, rfl⟩ := Nat.exists_eq_succ_of_ne_zero (Nat.ne_zero_of_lt hlimit)
        simp only [Cursor.take, Cursor.step, hadvance, hsingle]
        have hrest := hsplit.trans (List.append_cons xs e ys)
        exact congrArg (e.version :: ·) (h.take_cursor hrest (by omega) rfl rfl rfl)
  obtain ⟨l, hl⟩ := hends
  exact (hl limit hlimit).trans (hl _ (Nat.lt_succ_self _)).symm

/-- The walk of an integrity check passes all items and comes to its end. -/
theorem trail_from {steps : Nat} (h : t.Holds s) (hsplit : s.itemsToward .right = xs ++ ys)
    (hsteps : ys.length ≤ steps) :
    t.trailFrom steps (ys.head?.map (·.id)) = (ys.map (·.id), true) := by
  induction ys generalizing xs steps with
  | nil => cases steps <;> rfl
  | cons e ys ih =>
    obtain ⟨steps, rfl⟩ : ∃ n, steps = n + 1 :=
      Nat.exists_eq_succ_of_ne_zero (by rw [List.length_cons] at hsteps; omega)
    have hrest := ih (hsplit.trans (List.append_cons xs e ys)) (Nat.le_of_succ_le_succ hsteps)
    simp only [List.head?_cons, Option.map_some, trailFrom, Tree.successor, h.forms.neighbour hsplit,
      hrest, List.map_cons]

theorem check_ends (h : t.Holds s) {root : NodeId} (hroot : t.root = some root) :
    ∃ first depth, t.leftmost root = .ok (first, depth) ∧
      (t.trailFrom (t.slots.size + 1) (some first)).2 = true := by
  obtain ⟨first, depth, hwalk, hhead⟩ := h.start_of_walk .right hroot
  have hall := (List.nil_append (s.itemsToward .right)).symm
  have htrail := h.trail_from hall (Nat.le_succ_of_le (h.length_of_split hall))
  rw [hhead] at htrail
  exact ⟨first, depth, hwalk, by rw [htrail]⟩

end Cursors

section Sizes

theorem size_unique (h : t.Holds s) (ix : Index) (see : Option Visibility) :
    ∃ n, ((sizeUnique see t).outcome ix).1 = .ok n := by
  obtain ⟨depth, hfirst⟩ := h.first_opens see ix
  rw [Action.outcome, sizeUnique, Action.bind_of_ok hfirst]
  exact ⟨_, rfl⟩

/-- There is an estimate, unless the tree is missing and no scan of it is remembered. -/
theorem size_estimate {tree : Except Error Tree} (h : ∀ t, tree = .ok t → ∃ s, t.Holds s)
    (ix : Index) :
    (∃ n, ((sizeEstimate tree).outcome ix).1 = .ok n) ∨
    ∃ err, tree = .error err ∧ ((sizeEstimate tree).outcome ix).1 = .error err := by
  have hget : (get : IndexAction Index) ix = .ok ix ix := rfl
  rw [Action.outcome, sizeEstimate, Action.bind_of_ok hget]
  split_ifs
  · cases tree with
    | error err => exact Or.inr ⟨err, rfl, rfl⟩
    | ok t =>
      obtain ⟨s, hs⟩ := h t rfl
      have htree : (Action.examine fun _ => .ok t : IndexAction Tree) ix = .ok t ix := rfl
      rw [Action.bind_of_ok htree]
      cases hroot : t.root with
      | none => exact Or.inl ⟨_, rfl⟩
      | some root =>
        obtain ⟨id, depth, hwalk, -⟩ := hs.start_of_walk .right hroot
        have hleftmost : Action.examine (fun _ : Index => t.leftmost root) ix = .ok (id, depth) ix :=
          Action.examine_of_ok hwalk
        dsimp only
        rw [Action.bind_of_ok hleftmost]
        exact Or.inl ⟨_, rfl⟩
  · exact Or.inl ⟨_, rfl⟩

end Sizes

end Tree.Holds

end VersionedIndex
