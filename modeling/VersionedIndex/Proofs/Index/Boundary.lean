import VersionedIndex.Proofs.Index.Landing

namespace VersionedIndex

open Index

namespace KeyMatch

variable {m : KeyMatch}

/-- The way down takes a row for the best so far if the match selects it. -/
theorem turn_fst (m : KeyMatch) (reversed : Bool) (order : Ordering) :
    (m.turn reversed order).1 = m.selects order := by
  cases m <;> cases order <;> rfl

theorem turn_of_endless (hm : m.isExact = false) (reversed : Bool) (order : Ordering) :
    m.turn reversed order = m.turn false order := by
  cases m with
  | equal | isNull => cases hm
  | greater | greaterEqual | notNull => rfl

end KeyMatch

/-- The way down ends at a row that the match selects, or finds none on its way. -/
theorem Tree.Holds.descend_selects {t : Tree} {s : Shape} (h : t.Holds s) {ix : Index} {m : KeyMatch}
    (reversed : Bool) (compare : Row → Ordering)
    (hplain : ¬ (m = .notNull ∧ ix.order.leading.nullsLast = true)) :
    ∃ found, ix.descend t m reversed compare = .ok found ∧
      (found = none ∨ ∃ e ∈ s.items, found = some e.id ∧ m.selects (compare e.version.data) = true) := by
  have hheight := s.height_le_length
  have hlength := h.forms.length_le
  rw [Index.descend, if_neg hplain, h.root]
  refine descend_from (p := []) h.forms (by omega) (Or.inl rfl) fun e he hturn => ?_
  rw [KeyMatch.turn_fst] at hturn
  exact Or.inr ⟨e, he, rfl, hturn⟩

namespace Index

variable {ix : Index} {t : Tree} {s : Shape} {m : KeyMatch} {key : List Value}
  {before after : List Item} {e : Item}

theorem descend_from_of_endless (hm : m.isExact = false) (t : Tree) (reversed : Bool)
    (compare : Row → Ordering) (steps : Nat) (node best : Option NodeId) :
    descendFrom t m reversed compare steps node best = descendFrom t m false compare steps node best := by
  induction steps generalizing node best with
  | zero => cases node <;> rfl
  | succ steps ih =>
    cases node with
    | none => rfl
    | some id => simp only [descendFrom, KeyMatch.turn_of_endless hm reversed, ih]

theorem descend_of_endless (hm : m.isExact = false) (ix : Index) (t : Tree) (reversed : Bool)
    (compare : Row → Ordering) :
    ix.descend t m reversed compare = ix.descend t m false compare := by
  simp only [descend, descend_from_of_endless hm t reversed]

/-- Where a search with a match without an end starts: at a row that the match selects. If the key is in
order with the rows, this is the first of them, and the others are behind it. -/
structure Boundary (ix : Index) (t : Tree) (m : KeyMatch) (key : List Value) (before : List Item)
    (e : Item) (after : List Item) : Prop where
  split : t.inorder = before ++ e :: after
  selected : ix.selects m key e.version.data = true
  unselected : ix.order.Admits key → ∀ x ∈ before, ix.selects m key x.version.data = false
  behind : ix.order.Admits key → ∀ x ∈ after, ix.selects m key x.version.data = true

/-- The way down goes to the boundary, or there is none. -/
theorem Sorts.boundary (h : ix.Sorts t s) (key : List Value) (hm : m.isExact = false)
    (hplain : ¬ (m = .notNull ∧ ix.order.leading.nullsLast = true)) :
    ((∀ reversed, ix.descend t m reversed (ix.order.compareKey key) = .ok none) ∧
      (ix.order.Admits key → ∀ x ∈ t.inorder, ix.selects m key x.version.data = false)) ∨
    ∃ before e after, ix.Boundary t m key before e after ∧
      ∀ reversed, ix.descend t m reversed (ix.order.compareKey key) = .ok (some e.id) := by
  simp only [descend_of_endless hm ix t, forall_const, h.holds.inorder]
  by_cases hkey : ix.order.Admits key
  · have hselects (row : Row) : ix.selects m key row =
        decide (m.place false (ix.order.compareKey key row) = .eq) := KeyMatch.selects_eq_place
    have hdescend : ix.descend t m false (ix.order.compareKey key) =
        .ok (landing none .read (ix.selects m key) s.items) := by
      rw [funext hselects]
      exact h.descend_lands m false hkey Bool.noConfusion hplain
    rcases landing_none_cases .read (ix.selects m key) s.items with
      ⟨hnone, hall⟩ | ⟨before, e, after, hsplit, hbefore, he, hland⟩
    · exact Or.inl ⟨hdescend.trans (congrArg Except.ok hnone), fun _ => hall⟩
    · refine Or.inr ⟨before, e, after,
        ⟨h.holds.inorder.trans hsplit, he, fun _ => hbefore, fun _ x hx => ?_⟩,
        hdescend.trans (congrArg Except.ok hland)⟩
      have hrising : Rising _ s.items := h.place_rising m false hkey Bool.noConfusion
      rw [hsplit] at hrising
      have hrises := (List.pairwise_cons.mp hrising.of_append).1 x hx
      rw [hselects, decide_eq_true_eq] at he ⊢
      refine KeyMatch.place_eq_of_endless hm fun hlt => ?_
      cases he.symm.trans (hrises.2 hlt)
  · obtain ⟨found, hdescend, rfl | ⟨e, he, rfl, hselected⟩⟩ :=
      h.holds.descend_selects false (ix.order.compareKey key) hplain
    · exact Or.inl ⟨hdescend, fun hadmits => absurd hadmits hkey⟩
    · obtain ⟨before, after, hsplit⟩ := List.append_of_mem he
      exact Or.inr ⟨before, e, after, ⟨h.holds.inorder.trans hsplit, hselected,
        fun hadmits => absurd hadmits hkey, fun hadmits => absurd hadmits hkey⟩, hdescend⟩

def StandsOnMatch (ix : Index) (t : Tree) (m : KeyMatch) (key : List Value) (c : Cursor) : Prop :=
  ∀ x ∈ t.inorder, c.next = some x.id → ix.selects m key x.version.data = true

instance (ix : Index) (t : Tree) (m : KeyMatch) (key : List Value) (c : Cursor) :
    Decidable (ix.StandsOnMatch t m key c) :=
  inferInstanceAs (Decidable (∀ x ∈ t.inorder, _ → _))

/-- What a range search stands on is in the list that it walks along. -/
theorem Sorts.mem_of_landing (h : ix.Sorts t s) {see : Option Visibility} {mode : ReadMode}
    {wanted : Row → Bool} {l : List Item} (hl : ∀ y ∈ l, y ∈ s.items) {x : Item} (hx : x ∈ s.items)
    (hland : landing see mode wanted l = some x.id) :
    x ∈ l ∧ Visibility.admits see mode x.version = true := by
  obtain ⟨y, hy, hid, -, hread⟩ := exists_of_landing hland
  obtain rfl : y = x := h.holds.forms.item_unique (hl y hy) hx hid
  exact ⟨hy, hread⟩

namespace Boundary

theorem items_eq (h : ix.Sorts t s) (hb : ix.Boundary t m key before e after) :
    s.items = before ++ e :: after := h.holds.inorder.symm.trans hb.split

theorem mem_items (h : ix.Sorts t s) (hb : ix.Boundary t m key before e after) {x : Item} :
    x ∈ s.items ↔ x ∈ before ∨ x = e ∨ x ∈ after := by
  rw [hb.items_eq h, List.mem_append, List.mem_cons]

/-- Forward from the boundary a search stays among the rows that its match selects. -/
theorem stands_on_match_forward (h : ix.Sorts t s) (hb : ix.Boundary t m key before e after)
    (see : Option Visibility) (hkey : ix.order.Admits key) :
    ix.StandsOnMatch t m key { next := landing see .read (fun _ => true) (e :: after) } := by
  have hwalk : ∀ y ∈ e :: after, y ∈ s.items := fun y hy =>
    (hb.mem_items h).mpr (Or.inr (List.mem_cons.mp hy))
  simp only [StandsOnMatch, h.holds.inorder]
  intro x hx hland
  rcases List.mem_cons.mp (h.mem_of_landing hwalk hx hland).1 with rfl | hx
  · exact hb.selected
  · exact hb.behind hkey x hx

/-- Backward it does so only if the boundary can be read, or if nothing before it can. -/
theorem stands_on_match_backward (h : ix.Sorts t s) (hb : ix.Boundary t m key before e after)
    (see : Option Visibility) (hkey : ix.order.Admits key) :
    ix.StandsOnMatch t m key
        { next := landing see .read (fun _ => true) (e :: before.reverse), reversed := true } ↔
      Visibility.admits see .read e.version = true ∨
        ∀ x ∈ before, Visibility.admits see .read x.version = false := by
  have hwalk : ∀ y ∈ e :: before.reverse, y ∈ s.items := fun y hy => by
    rw [hb.mem_items h]
    rcases List.mem_cons.mp hy with rfl | hy
    · exact Or.inr (Or.inl rfl)
    · exact Or.inl (List.mem_reverse.mp hy)
  simp only [StandsOnMatch, h.holds.inorder]
  constructor
  · intro hstands
    by_contra hoff
    push Not at hoff
    obtain ⟨hunread, x, hx, hread⟩ := hoff
    -- A row before the boundary can be read, so the walk comes to one of these.
    have hlands : (landing see .read (fun _ => true) (e :: before.reverse)).isSome = true := by
      rw [isSome_landing, List.any_eq_true]
      exact ⟨x, by simp [hx], by simpa using hread⟩
    obtain ⟨id, hland⟩ := Option.isSome_iff_exists.mp hlands
    obtain ⟨y, hy, rfl, -, hread'⟩ := exists_of_landing hland
    have hselected := hstands y (hwalk y hy) hland
    rcases List.mem_cons.mp hy with rfl | hy
    · exact hunread hread'
    · rw [hb.unselected hkey y (List.mem_reverse.mp hy)] at hselected
      cases hselected
  · intro hread x hx hland
    obtain ⟨hmem, hreadX⟩ := h.mem_of_landing hwalk hx hland
    rcases hread with hread | hnone
    · rw [landing_cons_of_wanted rfl, if_pos hread] at hland
      have he : e ∈ s.items := hwalk e List.mem_cons_self
      rw [← h.holds.forms.item_unique he hx (Option.some.inj hland)]
      exact hb.selected
    · rcases List.mem_cons.mp hmem with rfl | hmem
      · exact hb.selected
      · rw [hnone x (List.mem_reverse.mp hmem)] at hreadX
        cases hreadX

/-- A search from the boundary lands on the first readable row of its walk, as far as the walk may go. -/
theorem find_node (h : ix.Sorts t s) (hb : ix.Boundary t m key before e after)
    {reversed : Bool}
    (hdescend : ix.descend t m reversed (ix.order.compareKey key) = .ok (some e.id))
    (see : Option Visibility) (mode : ReadMode) :
    ix.findNode see t key m mode reversed = .ok (landing see mode (fun _ => true)
      (e :: (if reversed then before.reverse else after).takeWhile fun x =>
        ix.mayGoOn m (fun row => ix.order.compareNatural row key == .eq) x.version.data)) := by
  cases reversed with
  | false => exact h.holds.search_from see hdescend (hb.items_eq h)
  | true =>
    have hreverse : s.itemsToward .left = after.reverse ++ e :: before.reverse := by
      rw [Shape.itemsToward, hb.items_eq h]
      simp
    exact h.holds.search_from see hdescend hreverse

end Boundary

/-- A search for all rows behind a key, or at and behind it, starts at the boundary in both directions,
and goes on from there to the first readable row whatever its key is. With a key that is in order with the
rows, a forward search so stands on a row that it is for or on none. A backward one stands on a row that
it is not for just if the boundary cannot be read and a row before it can. -/
theorem range_searches_start (h : ix.Arises t) (row : Row) (count : Nat)
    (hm : m = .greater ∨ m = .greaterEqual) :
    let key := KeyOrder.pick row ix.defaultMap count
    ((∀ see reversed, ix.find see t row count (.byKey m) reversed = .ok { reversed }) ∧
      (ix.order.Admits key → ∀ x ∈ t.inorder, ix.selects m key x.version.data = false)) ∨
    ∃ before e after, ix.Boundary t m key before e after ∧ ∀ see,
      let forward : Cursor := { next := landing see .read (fun _ => true) (e :: after) }
      let backward : Cursor :=
        { next := landing see .read (fun _ => true) (e :: before.reverse), reversed := true }
      ix.find see t row count (.byKey m) false = .ok forward ∧
      ix.find see t row count (.byKey m) true = .ok backward ∧
      (ix.order.Admits key → ix.StandsOnMatch t m key forward ∧
        (ix.StandsOnMatch t m key backward ↔ Visibility.admits see .read e.version = true ∨
          ∀ x ∈ before, Visibility.admits see .read x.version = false)) := by
  intro key
  obtain ⟨s, hs⟩ := h.sorts
  have hendless : m.isExact = false := by rcases hm with rfl | rfl <;> rfl
  have hplain : ¬ (m = .notNull ∧ ix.order.leading.nullsLast = true) := by
    rintro ⟨rfl, -⟩
    rcases hm with hm | hm <;> cases hm
  have hfind (see : Option Visibility) (reversed : Bool) :
      ix.find see t row count (.byKey m) reversed =
        ix.findNode see t key m .read reversed >>= fun next => .ok ({ next, reversed } : Cursor) := rfl
  rcases hs.boundary key hendless hplain with
    ⟨hdescend, hnone⟩ | ⟨before, e, after, hb, hdescend⟩
  · refine Or.inl ⟨fun see reversed => ?_, hnone⟩
    rw [hfind, findNode, Tree.Holds.search_of_none see (hdescend reversed)]
    rfl
  · have hgoOn : (fun x : Item => ix.mayGoOn m (fun row => ix.order.compareNatural row key == .eq)
        x.version.data) = fun _ => true := by
      funext x
      rcases hm with rfl | rfl <;> rfl
    have hlands (see : Option Visibility) (reversed : Bool) :=
      hb.find_node hs (hdescend reversed) see .read
    simp only [hgoOn, List.takeWhile_eq_self_iff.mpr fun _ _ => rfl] at hlands
    refine Or.inr ⟨before, e, after, hb, fun see => ⟨?_, ?_, fun hkey =>
      ⟨hb.stands_on_match_forward hs see hkey, hb.stands_on_match_backward hs see hkey⟩⟩⟩
    · rw [hfind, hlands]
      rfl
    · rw [hfind, hlands]
      rfl

/-- The row behind the key and the row before it, each by itself. -/
theorem sample_range_searches_start :
    let insert (v : Version) (t : Tree) : Tree := ((sample.insert none v).outcome t).2
    let t := insert (sampleVersion 2 5) (insert (sampleVersion 1 1) {})
    let key : List Value := [.bigint 3]
    sample.Arises t ∧ sample.order.Admits key ∧
    ∃ before e after, sample.Boundary t .greater key before e after ∧ ∀ see,
      (∃ c, sample.find see t key 1 (.byKey .greater) false = .ok c ∧
        sample.StandsOnMatch t .greater key c) ∧
      ∃ c, sample.find see t key 1 (.byKey .greater) true = .ok c ∧
        (sample.StandsOnMatch t .greater key c ↔ Visibility.admits see .read e.version = true ∨
          ∀ x ∈ before, Visibility.admits see .read x.version = false) := by
  intro insert t key
  have hsuits {row : Row} (h : sample.order.Accepts row) : sample.order.Suits row := h.suits
  have h₁ := Arises.empty.insert none (sampleVersion 1 1) (Or.inr (by decide +kernel))
    (hsuits (by decide))
  have h₂ : sample.Arises t := h₁.insert none (sampleVersion 2 5) (Or.inr (by decide +kernel))
    (hsuits (by decide))
  have hkey : sample.order.Admits key := by
    intro p hp
    obtain rfl : p = (⟨0, .bigint, false, false⟩, .bigint 3) := List.mem_singleton.mp hp
    exact fun _ d => nofun
  refine ⟨h₂, hkey, ?_⟩
  rcases range_searches_start h₂ key 1 (Or.inl rfl) with
    ⟨-, hnone⟩ | ⟨before, e, after, hb, hfinds⟩
  · cases hnone hkey ⟨1, sampleVersion 2 5⟩ (by decide +kernel)
  · refine ⟨before, e, after, hb, fun see => ?_⟩
    obtain ⟨hforward, hbackward, hstands⟩ := hfinds see
    obtain ⟨hon, hiff⟩ := hstands hkey
    exact ⟨⟨_, hforward, hon⟩, ⟨_, hbackward, hiff⟩⟩

/-- Where only the row before the key can be read, a backward search for what is behind it lands there. -/
theorem backward_search_off_match :
    let insert (v : Version) (t : Tree) : Tree := ((sample.insert none v).outcome t).2
    let t := insert (sampleVersion 2 5) (insert (sampleVersion 1 1) {})
    let see := some (Visibility.ofRowIds [1] [] [])
    let key : List Value := [.bigint 3]
    (∀ v ∈ t.versions, sample.order.Accepts v.data) ∧
    (∀ m ∈ [KeyMatch.greater, KeyMatch.greaterEqual],
      sample.find see t key 1 (.byKey m) false = .ok {} ∧
      sample.find see t key 1 (.byKey m) true = .ok { next := some 0, reversed := true } ∧
      ¬ sample.StandsOnMatch t m key { next := some 0, reversed := true }) := by
  decide +kernel

end Index

end VersionedIndex
