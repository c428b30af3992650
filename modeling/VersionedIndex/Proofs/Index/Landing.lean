import VersionedIndex.Proofs.Index.Admission
import VersionedIndex.Proofs.Order.SearchKeys

/-! Where searches land. The rows that match lie side by side on a walk, each turn of the way down
says on which side of them a row lies, and the walk to a readable row stops where they end. -/

namespace VersionedIndex

open Std Index

namespace KeyMatch

def selects : KeyMatch → Ordering → Bool
  | equal, order | isNull, order => order == .eq
  | greater, order | notNull, order => order == .lt
  | greaterEqual, order => order != .gt

def place (m : KeyMatch) (reversed : Bool) (order : Ordering) : Ordering :=
  match m with
  | equal | isNull => if reversed then order else order.swap
  | greater | notNull => if order = .lt then .eq else .lt
  | greaterEqual => if order = .gt then .lt else .eq

variable {m : KeyMatch} {reversed : Bool} {order order' : Ordering}

theorem selects_eq_place : m.selects order = decide (m.place reversed order = .eq) := by
  cases m <;> cases reversed <;> cases order <;> rfl

theorem place_eq_of_endless (hm : m.isExact = false) (h : m.place reversed order ≠ .lt) :
    m.place reversed order = .eq := by
  cases m with
  | equal | isNull => cases hm
  | greater | greaterEqual | notNull => cases order <;> first | rfl | exact absurd rfl h

/-- The turn at a row tells where the row lies on the walk. -/
theorem turn_eq (h : reversed = true → m.isExact = true) (order : Ordering) :
    m.turn reversed order = (decide (m.place reversed order = .eq),
      if m.place reversed order = .lt then if reversed then .left else .right
      else if reversed then .right else .left) := by
  cases reversed with
  | false => cases m <;> cases order <;> rfl
  | true =>
    cases m with
    | equal | isNull => cases order <;> rfl
    | greater | greaterEqual | notNull => cases h rfl

/-- Places rise along a walk on which the search key falls back. -/
theorem place_rises (h : Rises order' order) : Rises (m.place false order) (m.place false order') := by
  obtain ⟨hgt, hlt⟩ := h
  cases m <;> cases order <;> cases order' <;> simp_all [place, Rises]

theorem place_rises_reversed (hm : m.isExact = true) (h : Rises order order') :
    Rises (m.place true order) (m.place true order') := by
  cases m with
  | equal | isNull => exact h
  | greater | greaterEqual | notNull => cases hm

end KeyMatch

def Rising (place : Row → Ordering) (l : List Item) : Prop :=
  l.Pairwise fun a b => Rises (place a.version.data) (place b.version.data)

namespace Rising

variable {place : Row → Ordering} {xs ys : List Item} {e : Item}

theorem before (h : Rising place (xs ++ e :: ys)) (he : place e.version.data = .lt) :
    ∀ x ∈ xs, place x.version.data = .lt :=
  fun x hx => ((List.pairwise_append.mp h).2.2 x hx e List.mem_cons_self).2 he

theorem behind (h : Rising place (e :: ys)) (he : place e.version.data = .gt) :
    ∀ y ∈ e :: ys, place y.version.data = .gt := by
  intro y hy
  rcases List.mem_cons.mp hy with rfl | hy
  · exact he
  · exact ((List.pairwise_cons.mp h).1 y hy).1 he

theorem of_append (h : Rising place (xs ++ ys)) : Rising place ys := (List.pairwise_append.mp h).2.1

theorem tail (h : Rising place (e :: ys)) : Rising place ys := (List.pairwise_cons.mp h).2

end Rising

/-- Once a list has come to a place, what is at it stands in front. -/
theorem Rising.landing_takeWhile {see : Option Visibility} {mode : ReadMode} {l : List Item}
    {place : Row → Ordering} {goOn : Row → Bool} (h : Rising place l)
    (hplace : ∀ x ∈ l, place x.version.data ≠ .lt)
    (hgoOn : ∀ x ∈ l, goOn x.version.data = decide (place x.version.data = .eq)) :
    landing see mode (fun _ => true) (l.takeWhile fun x => goOn x.version.data) =
      landing see mode (place · = .eq) l := by
  induction l with
  | nil => rfl
  | cons e l ih =>
    rw [List.forall_mem_cons] at hplace hgoOn
    rw [List.takeWhile_cons, hgoOn.1]
    cases he : place e.version.data with
    | lt => exact absurd he hplace.1
    | eq =>
      rw [landing_cons_of_wanted (decide_eq_true he), ← ih h.tail hplace.2 hgoOn.2]
      exact landing_cons_of_wanted rfl
    | gt =>
      rw [landing_eq_none (l := e :: l) fun x hx => by rw [h.behind he x hx]; rfl]
      rfl

namespace Tree.Holds

variable {t : Tree} {s : Shape} {side : Side} {xs ys : List Item} {ix : Index} {m : KeyMatch}
  {reversed : Bool} {place : Row → Ordering} {compare : Row → Ordering} {mode : ReadMode}
  {stillEqual : Row → Bool}

/-- The way down finds the first row at a place, when each turn goes on before the place, goes back at
it and behind it, and takes the rows at it. -/
theorem descend_from_rising {p : Path} {steps : Nat} (h : t.Forms (p.plug s))
    (hrising : Rising place (s.itemsToward side))
    (hturn : ∀ row, m.turn reversed (compare row) =
      (decide (place row = .eq), if place row = .lt then side else side.flip))
    (hsteps : s.height ≤ steps) (best : Option NodeId) :
    descendFrom t m reversed compare steps s.root? best =
      .ok ((landing none .read (place · = .eq) (s.itemsToward side)).or best) := by
  induction steps generalizing p s best with
  | zero =>
    rw [Nat.le_zero, Shape.height_eq_zero] at hsteps
    subst hsteps
    cases side <;> rfl
  | succ steps ih =>
    obtain rfl | ⟨near, e, b, far, rfl⟩ := s.eq_leaf_or_join side
    · cases side <;> rfl
    · rw [Shape.items_toward_join] at hrising ⊢
      rw [Shape.height_join] at hsteps
      have hnear (best : Option NodeId) := ih (p := ⟨e, b, side, far⟩ :: p) (s := near) h
        hrising.of_append.tail (by omega) best
      have hflip : t.Forms (p.plug (.join side.flip far e b near)) := by rwa [Shape.join_flip]
      have hfar (best : Option NodeId) := ih (p := ⟨e, b, side.flip, near⟩ :: p) (s := far) hflip
        (List.pairwise_append.mp hrising).1 (by omega) best
      simp only [Shape.root_join, descendFrom, h.node, bind, Except.bind, Node.sided_version, hturn]
      rw [landing_append]
      cases hplace : place e.version.data with
      | lt =>
        rw [landing_eq_none fun x hx => by rw [hrising.before hplace x hx]; rfl, Option.none_or,
          landing_cons_of_unwanted (by rw [hplace]; rfl)]
        simp only [if_true, Node.sided_near]
        exact hnear best
      | eq =>
        rw [landing_cons_of_wanted (by rw [hplace]; rfl), Option.or_assoc]
        simp only [reduceCtorEq, if_false, Node.sided_far, decide_true, if_true]
        exact hfar (some e.id)
      | gt =>
        rw [landing_eq_none (l := e :: _) fun x hx => by
          rw [hrising.of_append.behind hplace x hx]; rfl, Option.or_none]
        simp only [reduceCtorEq, if_false, Node.sided_far]
        exact hfar best

theorem descend_rising (h : t.Holds s) (side : Side) (hrising : Rising place (s.itemsToward side))
    (hturn : ∀ row, m.turn reversed (compare row) =
      (decide (place row = .eq), if place row = .lt then side else side.flip))
    (hplain : ¬ (m = .notNull ∧ ix.order.leading.nullsLast = true)) :
    ix.descend t m reversed compare =
      .ok (landing none .read (place · = .eq) (s.itemsToward side)) := by
  have hheight := s.height_le_length
  have hlength := h.forms.length_le
  rw [Index.descend, if_neg hplain, h.root]
  exact (descend_from_rising (p := []) h.forms hrising hturn (by omega) none).trans
    (by rw [Option.or_none])

/-- Where NULLs come last, the first item of all tells whether there are other keys. -/
theorem descend_nulls_last (h : t.Holds s) (hlast : ix.order.leading.nullsLast = true)
    (hrising : Rising place s.items)
    (hplace : ∀ row, place row = if (ix.order.leading.value row).isNull then .gt else .eq) :
    ix.descend t .notNull reversed compare =
      .ok (landing none .read (place · = .eq) s.items) := by
  rw [Index.descend, if_pos ⟨rfl, hlast⟩]
  cases hroot : t.root with
  | none =>
    obtain rfl := h.leaf_of_root hroot
    rfl
  | some root =>
    obtain ⟨id, depth, hwalk, hhead⟩ := h.start_of_walk .right hroot
    obtain ⟨e, hfirst, rfl⟩ := Option.map_eq_some_iff.mp hhead
    obtain ⟨ys, hitems⟩ : ∃ ys, s.items = e :: ys := List.head?_eq_some_iff.mp hfirst
    have hleftmost : t.leftmost root = .ok (e.id, depth) := hwalk
    have hversion := h.version_of_mem (hitems ▸ List.mem_cons_self)
    simp only [hleftmost, leadingNotNull, hversion, bind, Except.bind, Except.map]
    rw [hitems] at hrising ⊢
    have hfirstPlace := hplace e.version.data
    cases hnull : (ix.order.leading.value e.version.data).isNull with
    | true =>
      rw [hnull] at hfirstPlace
      rw [landing_eq_none fun x hx => by rw [hrising.behind hfirstPlace x hx]; rfl]
      rfl
    | false =>
      rw [hnull] at hfirstPlace
      rw [landing_cons_of_wanted (by rw [hfirstPlace]; rfl)]
      rfl

/-- A search lands on the first row at the place that can be read. -/
theorem search_rising (h : t.Holds s) (see : Option Visibility)
    (hrising : Rising place (s.itemsToward (if reversed then .left else .right)))
    (hdescend : ix.descend t m reversed compare = .ok (landing none .read (place · = .eq)
      (s.itemsToward (if reversed then .left else .right))))
    (hgoOn : ∀ x ∈ s.items, place x.version.data ≠ .lt →
      ix.mayGoOn m stillEqual x.version.data = decide (place x.version.data = .eq)) :
    ix.search see t m mode reversed compare stillEqual = .ok (landing see mode (place · = .eq)
      (s.itemsToward (if reversed then .left else .right))) := by
  rcases landing_none_cases .read (place · = .eq) (s.itemsToward (if reversed then .left else .right))
    with ⟨hnone, hall⟩ | ⟨xs, e, ys, hsplit, hxs, he, hland⟩
  · rw [search_of_none see (hdescend.trans (congrArg Except.ok hnone)), landing_eq_none hall]
  · rw [h.search_from see (hdescend.trans (congrArg Except.ok hland)) hsplit]
    rw [hsplit] at hrising
    have hnotBefore : ∀ y ∈ e :: ys, place y.version.data ≠ .lt := by
      rw [List.forall_mem_cons, of_decide_eq_true he]
      refine ⟨nofun, fun y hy hlt => ?_⟩
      cases (of_decide_eq_true he).symm.trans
        (((List.pairwise_cons.mp hrising.of_append).1 y hy).2 hlt)
    have hwalk (y : Item) (hy : y ∈ e :: ys) := hgoOn y (mem_of_split hsplit hy) (hnotBefore y hy)
    have hgoesOn : ix.mayGoOn m stillEqual e.version.data = true :=
      (hwalk e List.mem_cons_self).trans he
    rw [hsplit, landing_append, landing_eq_none (l := xs) hxs, Option.none_or,
      ← hrising.of_append.landing_takeWhile hnotBefore hwalk, List.takeWhile_cons, hgoesOn]
    rfl

end Tree.Holds

namespace Index

namespace Sorts

variable {ix : Index} {t : Tree} {s : Shape} {key : List Value}

theorem key_falls (h : ix.Sorts t s) (hkey : ix.order.Admits key) :
    s.items.Pairwise fun a b => Rises (ix.order.compareKey key b.version.data)
      (ix.order.compareKey key a.version.data) :=
  h.key_sorted.imp_of_mem fun ha hb hle =>
    KeyOrder.compareKey_falls hkey (h.suited _ ha) (h.suited _ hb) hle

/-- Along the walk of a search, the rows come before the match first, then belong to it, and then lie
behind it. -/
theorem place_rising (h : ix.Sorts t s) (m : KeyMatch) (reversed : Bool)
    (hkey : ix.order.Admits key) (hexact : reversed = true → m.isExact = true) :
    Rising (fun row => m.place reversed (ix.order.compareKey key row))
      (s.itemsToward (if reversed then .left else .right)) := by
  cases reversed with
  | false => exact (h.key_falls hkey).imp KeyMatch.place_rises
  | true =>
    exact List.pairwise_reverse.mpr
      ((h.key_falls hkey).imp (KeyMatch.place_rises_reversed (hexact rfl)))

/-- The way down of a search by key finds the first row of its walk that the match selects. -/
theorem descend_lands (h : ix.Sorts t s) (m : KeyMatch) (reversed : Bool)
    (hkey : ix.order.Admits key) (hexact : reversed = true → m.isExact = true)
    (hplain : ¬ (m = .notNull ∧ ix.order.leading.nullsLast = true)) :
    ix.descend t m reversed (ix.order.compareKey key) =
      .ok (landing none .read (fun row => m.place reversed (ix.order.compareKey key row) = .eq)
        (s.itemsToward (if reversed then .left else .right))) := by
  refine h.holds.descend_rising _ (h.place_rising m reversed hkey hexact) (fun row => ?_) hplain
  rw [KeyMatch.turn_eq hexact (ix.order.compareKey key row)]
  cases reversed <;> rfl

/-- A search by key lands on the first readable row of its walk that the match selects. -/
theorem find_node_lands (h : ix.Sorts t s) (see : Option Visibility) (m : KeyMatch)
    (mode : ReadMode) (reversed : Bool) (hkey : ix.order.Admits key) (hm : m ≠ .notNull)
    (hexact : reversed = true → m.isExact = true) :
    ix.findNode see t key m mode reversed =
      .ok (landing see mode (fun row => m.selects (ix.order.compareKey key row))
        (s.itemsToward (if reversed then .left else .right))) := by
  have hselects : (fun row => m.selects (ix.order.compareKey key row)) =
      fun row => decide (m.place reversed (ix.order.compareKey key row) = .eq) :=
    funext fun row => KeyMatch.selects_eq_place
  rw [hselects]
  refine h.holds.search_rising see (h.place_rising m reversed hkey hexact)
    (h.descend_lands m reversed hkey hexact fun hnot => hm hnot.1) ?_
  intro x hx hplace
  have hnatural := KeyOrder.compareNatural_eq_iff hkey (h.suited x hx)
  cases m with
  | equal | isNull =>
    change (_ == Ordering.eq) = _
    rw [← KeyMatch.selects_eq_place, Bool.eq_iff_iff, beq_iff_eq, hnatural]
    exact beq_iff_eq.symm
  | greater | greaterEqual =>
    -- These matches have no end, so what is not before them belongs to them.
    exact (decide_eq_true (KeyMatch.place_eq_of_endless rfl hplace)).symm
  | notNull => exact absurd rfl hm

theorem find_not_null_lands (h : ix.Sorts t s) (see : Option Visibility) :
    ix.findNode see t [.null] .notNull .read false =
      .ok (landing see .read (fun row => !(ix.order.leading.value row).isNull) s.items) := by
  let place (row : Row) : Ordering :=
    if (ix.order.leading.value row).isNull then if ix.order.leading.nullsLast then .gt else .lt else .eq
  have hwanted : (fun row => !(ix.order.leading.value row).isNull) =
      fun row => decide (place row = .eq) := by
    funext row
    cases hnull : (ix.order.leading.value row).isNull <;>
      cases hlast : ix.order.leading.nullsLast <;> simp [place, hnull, hlast]
  have hrising : Rising place s.items := by
    refine (h.key_falls ix.order.admits_null).imp fun {a b} hfalls => ?_
    rw [KeyOrder.compareKey_null, KeyOrder.compareKey_null] at hfalls
    obtain ⟨hgt, hlt⟩ := hfalls
    cases ha : (ix.order.leading.value a.version.data).isNull <;>
      cases hb : (ix.order.leading.value b.version.data).isNull <;>
        cases hlast : ix.order.leading.nullsLast <;> simp_all [place, Rises]
  rw [hwanted]
  refine h.holds.search_rising see hrising ?_ fun x _ _ => ?_
  · cases hlast : ix.order.leading.nullsLast with
    | true =>
      exact h.holds.descend_nulls_last hlast hrising fun row => by simp only [place, hlast, if_true]
    | false =>
      refine h.holds.descend_rising .right hrising (fun row => ?_) (by simp [hlast])
      rw [KeyOrder.compareKey_null, hlast]
      cases hnull : (ix.order.leading.value row).isNull <;> simp [place, hnull, hlast] <;> rfl
  · change (!_) = _
    exact congrFun hwanted x.version.data

end Sorts

def selects (ix : Index) (m : KeyMatch) (key : List Value) (row : Row) : Bool :=
  m.selects (ix.order.compareKey key row)

/-- Searches land on the row that they ask for. With the rows in index order, a forward search lands on
the first readable row that its match selects by how the key compares with it, and on nothing if
there is none; a backward search for an equal key lands on the last one. -/
theorem searches_land {ix : Index} {t : Tree} (h : ix.Arises t) (see : Option Visibility) :
    (∀ (row : Row) (count : Nat) (m : KeyMatch), m ≠ .notNull →
      let key := KeyOrder.pick row ix.defaultMap count
      ix.order.Admits key → ix.find see t row count (.byKey m) false =
        .ok { next := landing see .read (ix.selects m key) t.inorder }) ∧
    (∀ (row : Row) (count : Nat) (m : KeyMatch), m.isExact = true →
      let key := KeyOrder.pick row ix.defaultMap count
      ix.order.Admits key → ix.find see t row count (.byKey m) true =
        .ok { next := landing see .read (ix.selects m key) t.inorder.reverse, reversed := true }) ∧
    ix.findNotNull see t =
      .ok { next := landing see .read (fun row => !(ix.order.leading.value row).isNull) t.inorder } ∧
    (∀ (row : Row) (map : List Nat),
      let key := KeyOrder.pick row map map.length
      ix.order.Admits key → ix.existsParent see t row map = .ok (t.inorder.any fun e =>
        ix.order.compareKey key e.version.data == .eq &&
          Visibility.admits see .reference e.version)) := by
  obtain ⟨s, hs⟩ := h.sorts
  rw [hs.holds.inorder]
  refine ⟨?_, ?_, ?_, ?_⟩
  · intro row count m hm key hkey
    change (ix.findNode see t key m .read false >>= fun next => .ok ({ next } : Cursor)) = _
    rw [hs.find_node_lands see m .read false hkey hm Bool.noConfusion]
    rfl
  · intro row count m hm key hkey
    have hne : m ≠ .notNull := by
      rintro rfl
      cases hm
    change (ix.findNode see t key m .read true >>= fun next =>
      .ok ({ next, reversed := true } : Cursor)) = _
    rw [hs.find_node_lands see m .read true hkey hne fun _ => hm]
    rfl
  · change (ix.findNode see t [.null] .notNull .read false >>= fun next => .ok ({ next } : Cursor)) = _
    rw [hs.find_not_null_lands see]
    rfl
  · intro row map key hkey
    change (ix.findNode see t key .equal .reference false >>= fun next => .ok next.isSome) = _
    rw [hs.find_node_lands see .equal .reference false hkey nofun Bool.noConfusion]
    exact congrArg Except.ok isSome_landing

def ranked : Index :=
  { sample with order := ⟨⟨0, .bigint, true, true⟩, [⟨1, .varchar, false, false⟩]⟩, unique := false }

/-- Of the two rows with the key, the first one cannot be read; behind them is a NULL. -/
theorem ranked_searches_land :
    let insert (v : Version) (t : Tree) : Tree := ((ranked.insert none v).outcome t).2
    let t := insert ⟨3, 4, [.bigint 5, .varchar "a"], 0⟩ (insert ⟨2, 3, [.bigint 7], 0⟩
      (insert ⟨1, 2, [.null, .varchar "c"], 0⟩ (insert ⟨0, 1, [.bigint 5, .varchar "b"], 0⟩ {})))
    let see := some (Visibility.ofRowIds [1, 2] [] [4])
    let key : List Value := [.bigint 5]
    ranked.Arises t ∧ t.inorder.map (·.id) = [2, 3, 0, 1] ∧ ranked.order.Admits key ∧
    ranked.find see t key 1 (.byKey .equal) false = .ok { next := some 0 } ∧
    ranked.find see t key 1 (.byKey .greater) false = .ok { next := some 1 } ∧
    ranked.find see t key 1 (.byKey .equal) true = .ok { next := some 0, reversed := true } ∧
    ranked.findNotNull see t = .ok { next := some 0 } ∧
    ranked.existsParent see t [.bigint 5] [0] = .ok true := by
  intro insert t see key
  have hsuits {row : Row} (h : ranked.order.Accepts row) : ranked.order.Suits row := h.suits
  have h₁ := Arises.empty.insert none ⟨0, 1, [.bigint 5, .varchar "b"], 0⟩
    (Or.inr (by decide +kernel)) (hsuits (by decide))
  have h₂ := h₁.insert none ⟨1, 2, [.null, .varchar "c"], 0⟩ (Or.inr (by decide +kernel))
    (hsuits (by decide))
  have h₃ := h₂.insert none ⟨2, 3, [.bigint 7], 0⟩ (Or.inr (by decide +kernel)) (hsuits (by decide))
  have h₄ : ranked.Arises t := h₃.insert none ⟨3, 4, [.bigint 5, .varchar "a"], 0⟩
    (Or.inr (by decide +kernel)) (hsuits (by decide))
  have hkey : ranked.order.Admits key := by
    intro p hp
    obtain rfl : p = (⟨0, .bigint, true, true⟩, .bigint 5) := List.mem_singleton.mp hp
    exact fun _ d => nofun
  obtain ⟨hforward, hbackward, hnotNull, hparent⟩ := searches_land h₄ see
  refine ⟨h₄, by decide +kernel, hkey, ?_, ?_, ?_, ?_, ?_⟩
  · exact (hforward [.bigint 5] 1 .equal nofun hkey).trans (by decide +kernel)
  · exact (hforward [.bigint 5] 1 .greater nofun hkey).trans (by decide +kernel)
  · exact (hbackward [.bigint 5] 1 .equal rfl hkey).trans (by decide +kernel)
  · exact hnotNull.trans (by decide +kernel)
  · exact (hparent [.bigint 5] [0] hkey).trans (by decide +kernel)

end Index

end VersionedIndex
