import Mathlib.Data.List.TakeWhile
import VersionedIndex.Proofs.Index.Scan
import VersionedIndex.Proofs.Order.Keys
import VersionedIndex.Index.Insert

namespace VersionedIndex

open Std

/-- In a sorted list whatever ties with something before it lies before the first thing that does
not. -/
theorem mem_takeWhile_of_eq {α : Type} {cmp : α → α → Ordering} [TransCmp cmp] {p : α → Bool}
    {x y : α} {ys : List α} (hsorted : (x :: ys).Pairwise fun a b => (cmp a b).isLE)
    (hp : ∀ z ∈ ys, p z = true ↔ cmp x z = .eq) (hy : y ∈ ys) (heq : cmp x y = .eq) :
    y ∈ ys.takeWhile p := by
  induction ys with
  | nil => simp at hy
  | cons z ys ih =>
    rw [List.pairwise_cons, List.pairwise_cons] at hsorted
    obtain ⟨hx, hz, hys⟩ := hsorted
    have hxz : cmp x z = .eq := by
      rcases List.mem_cons.mp hy with rfl | hy
      · exact heq
      · have hle := hx z List.mem_cons_self
        cases hcmp : cmp x z with
        | eq => rfl
        | lt =>
          have hlt := TransCmp.lt_of_lt_of_isLE hcmp (hz y hy)
          rw [heq] at hlt
          cases hlt
        | gt =>
          rw [hcmp] at hle
          cases hle
    rw [List.takeWhile_cons, if_pos ((hp z List.mem_cons_self).mpr hxz), List.mem_cons]
    rcases List.mem_cons.mp hy with hy | hy
    · exact Or.inl hy
    · refine Or.inr (ih (List.pairwise_cons.mpr ⟨fun w hw => ?_, hys⟩) (fun w hw => ?_) hy)
      · exact hx w (List.mem_cons_of_mem z hw)
      · exact hp w (List.mem_cons_of_mem z hw)

theorem any_takeWhile {α : Type} (cmp : α → α → Ordering) [TransCmp cmp] {p q : α → Bool}
    {x : α} {ys : List α} (hsorted : (x :: ys).Pairwise fun a b => (cmp a b).isLE)
    (hp : ∀ z ∈ ys, p z = true ↔ cmp x z = .eq) :
    (ys.takeWhile p).any q = true ↔ ∃ y ∈ ys, cmp x y = .eq ∧ q y = true := by
  rw [List.any_eq_true]
  constructor
  · rintro ⟨y, hy, hq⟩
    have hmem := (List.takeWhile_sublist p).subset hy
    exact ⟨y, hmem, (hp y hmem).mp (List.mem_takeWhile_imp hy), hq⟩
  · rintro ⟨y, hy, heq, hq⟩
    exact ⟨y, mem_takeWhile_of_eq hsorted hp hy heq, hq⟩

namespace Index

variable {ix : Index} {t : Tree} {s : Shape} {side : Side} {test : Version → Bool}

/-- The search on one side tests the items there as long as their keys are equal. -/
theorem any_equal_toward (h : t.Holds s) {row : Row} {xs ys : List Item} {steps : Nat}
    (hsplit : s.itemsToward side = xs ++ ys) (hsteps : ys.length ≤ steps) :
    ix.anyEqualToward t side row test steps (ys.head?.map (·.id)) =
      .ok ((ys.takeWhile fun e => ix.order.compareRows row e.version.data = .eq).any
        (test ·.version)) := by
  induction ys generalizing xs steps with
  | nil => cases steps <;> rfl
  | cons e ys ih =>
    obtain ⟨steps, rfl⟩ : ∃ n, steps = n + 1 :=
      Nat.exists_eq_succ_of_ne_zero (by rw [List.length_cons] at hsteps; omega)
    have hversion := h.version_of_mem (Tree.Holds.mem_of_split hsplit List.mem_cons_self)
    have hrest := ih (hsplit.trans (List.append_cons xs e ys)) (Nat.le_of_succ_le_succ hsteps)
    simp only [List.head?_cons, Option.map_some, anyEqualToward, hversion,
      h.forms.neighbour hsplit, List.takeWhile_cons]
    change (if ix.order.compareRows row e.version.data ≠ .eq then (Except.ok false : Except Error _)
      else if test e.version = true then Except.ok true
      else ix.anyEqualToward t side row test steps (ys.head?.map (·.id))) = _
    by_cases heq : ix.order.compareRows row e.version.data = .eq
    · cases htest : test e.version with
      | true => simp [heq, htest]
      | false => simp [heq, htest, hrest]
    · simp [heq]

theorem any_equal_beside (test : Version → Bool) (h : t.Holds s) {e : Item} {xs ys : List Item}
    (hsuited : ∀ e ∈ s.items, ix.order.Suits e.version.data)
    (hsorted : s.items.Pairwise fun a b => (ix.order.keyOrder a.version b.version).isLE)
    (hsplit : s.itemsToward side = xs ++ e :: ys) :
    ∃ found, ix.anyEqualToward t side e.version.data test (t.slots.size + 1) (ys.head?.map (·.id)) =
        .ok found ∧
      (found = true ↔
        ∃ e' ∈ ys, ix.order.keyOrder e.version e'.version = .eq ∧ test e'.version = true) := by
  have hsplit' := hsplit.trans (List.append_cons xs e ys)
  refine ⟨_, any_equal_toward h hsplit' (Nat.le_succ_of_le (h.length_of_split hsplit')), ?_⟩
  -- A walk to the left sees the items in reverse order, so the comparison is turned around there.
  let cmp : Item → Item → Ordering :=
    readBy Item.version (turned (decide (side = .left)) ix.order.keyOrder)
  have hcmp (a b : Item) : cmp a b = .eq ↔ ix.order.keyOrder a.version b.version = .eq := by
    simp only [cmp, readBy, turned_eq]
    split
    · exact Ordering.swap_eq_eq
    · exact Iff.rfl
  have htoward : (s.itemsToward side).Pairwise fun a b => (cmp a b).isLE := by
    cases side with
    | left => exact List.pairwise_reverse.mpr hsorted
    | right => exact hsorted
  rw [hsplit, List.pairwise_append] at htoward
  have he : e ∈ s.items := Tree.Holds.mem_of_split hsplit List.mem_cons_self
  rw [any_takeWhile cmp htoward.2.1]
  · simp only [hcmp]
  · intro e' he'
    have hmem : e' ∈ s.items := Tree.Holds.mem_of_split hsplit (List.mem_cons_of_mem e he')
    rw [decide_eq_true_eq, KeyOrder.compareRows_eq_of_suits (hsuited e he) (hsuited e' hmem), hcmp]

/-- The search from a node finds every version with an equal key. -/
theorem any_equal (test : Version → Bool) (h : t.Holds s) {e : Item} (he : e ∈ s.items)
    (hsuited : ∀ e ∈ s.items, ix.order.Suits e.version.data)
    (hsorted : s.items.Pairwise fun a b => (ix.order.keyOrder a.version b.version).isLE) :
    ∃ found, ix.anyEqual t e.id test = .ok found ∧
      (found = true ↔
        ∃ e' ∈ s.items, ix.order.keyOrder e.version e'.version = .eq ∧ test e'.version = true) := by
  obtain ⟨xs, ys, hitems⟩ := List.append_of_mem he
  have hright : s.itemsToward .right = xs ++ e :: ys := hitems
  have hleft : s.itemsToward .left = ys.reverse ++ e :: xs.reverse := by
    simp [Shape.itemsToward, hitems]
  obtain ⟨foundL, hrunL, hfoundL⟩ := any_equal_beside test h hsuited hsorted hleft
  obtain ⟨foundR, hrunR, hfoundR⟩ := any_equal_beside test h hsuited hsorted hright
  have hself : ix.order.keyOrder e.version e.version = .eq := ReflCmp.compare_self
  refine ⟨test e.version || (foundL || foundR), ?_, ?_⟩
  · have hpredecessor : t.predecessor e.id = .ok (xs.reverse.head?.map (·.id)) :=
      h.forms.neighbour hleft
    have hsuccessor : t.successor e.id = .ok (ys.head?.map (·.id)) := h.forms.neighbour hright
    simp only [anyEqual, h.version_of_mem he, hpredecessor, hsuccessor, bind, Except.bind, hrunL,
      hrunR]
    cases test e.version <;> cases foundL <;> cases foundR <;> rfl
  · rw [Bool.or_eq_true, Bool.or_eq_true, hfoundL, hfoundR, hitems]
    simp only [List.mem_append, List.mem_cons, List.mem_reverse]
    constructor
    · rintro (htest | ⟨e', he', heq⟩ | ⟨e', he', heq⟩)
      · exact ⟨e, Or.inr (Or.inl rfl), hself, htest⟩
      · exact ⟨e', Or.inl he', heq⟩
      · exact ⟨e', Or.inr (Or.inr he'), heq⟩
    · rintro ⟨e', he' | rfl | he', heq⟩
      · exact Or.inr (Or.inl ⟨e', he', heq⟩)
      · exact Or.inl heq.2
      · exact Or.inr (Or.inr ⟨e', he', heq⟩)

end Index

end VersionedIndex
