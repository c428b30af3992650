import VersionedIndex.Proofs.Index.Boundary
import VersionedIndex.Proofs.Index.Lookups

/-! Searches for keys that are not NULL. Where NULLs come last the key is not looked at; where they
come first the way down goes by the key, and only the walk from there looks for NULLs. -/

namespace VersionedIndex

inductive Probe where
  | row (values : Row) (count : Nat)
  | value (value : Value)
deriving DecidableEq, Repr

namespace Probe

def key (ix : Index) : Probe → List Value
  | row values count => KeyOrder.pick values ix.defaultMap count
  | value v => [v]

def findNotNull (ix : Index) (see : Option Visibility) (t : Tree) : Probe → Except Error Cursor
  | row values count => ix.find see t values count (.byKey .notNull) false
  | value v => ix.findValue see t v (.byKey .notNull)

end Probe

namespace Index

def leadingFilled (ix : Index) (row : Row) : Bool := !(ix.order.leading.value row).isNull

variable {ix : Index} {t : Tree} {s : Shape} {see : Option Visibility} {mode : ReadMode}
  {reversed : Bool} {compare : Row → Ordering} {p q : Row → Bool} {key : List Value}

theorem first_readable_congr {sight : Visibility} {m : KeyMatch} {side : Side}
    (hgoOn : ∀ row, ix.mayGoOn m p row = ix.mayGoOn m q row) (steps : Nat) (node : Option NodeId) :
    ix.firstReadable sight t m mode side p steps node =
      ix.firstReadable sight t m mode side q steps node := by
  induction steps generalizing node with
  | zero => cases node <;> rfl
  | succ steps ih =>
    cases node with
    | none => rfl
    | some id => simp only [firstReadable, hgoOn, ih]

/-- A search for keys that are not NULL does not ask which rows equal the key. -/
theorem search_not_null_congr (p q : Row → Bool) :
    ix.search see t .notNull mode reversed compare p =
      ix.search see t .notNull mode reversed compare q := by
  have hgoOn (row : Row) : ix.mayGoOn .notNull p row = ix.mayGoOn .notNull q row := rfl
  simp only [search, first_readable_congr hgoOn]

/-- Where NULLs come last the key does not matter. -/
theorem find_node_nulls_last (hlast : ix.order.leading.nullsLast = true) (key key' : List Value) :
    ix.findNode see t key .notNull mode reversed = ix.findNode see t key' .notNull mode reversed := by
  have hdescend : ix.descend t .notNull reversed (ix.order.compareKey key) =
      ix.descend t .notNull reversed (ix.order.compareKey key') := by
    rw [descend, if_pos ⟨rfl, hlast⟩, descend, if_pos ⟨rfl, hlast⟩]
  rw [findNode, search_not_null_congr _ fun row => ix.order.compareNatural row key' == .eq, findNode,
    search, hdescend, search]

theorem find_not_null_eq (probe : Probe) : probe.findNotNull ix see t =
    ix.findNode see t (probe.key ix) .notNull .read false >>= fun next => .ok ({ next } : Cursor) := by
  cases probe with
  | row values count => rfl
  | value v =>
    change (ix.findValueNode see t v .notNull >>= fun next => .ok ({ next } : Cursor)) = _
    rw [find_value_node_eq]
    rfl

/-- Where NULLs come first, rows that are not NULL are followed by such rows only. -/
theorem Sorts.leading_filled_rises (h : ix.Sorts t s) (hfirst : ix.order.leading.nullsLast = false) :
    s.items.Pairwise fun a b =>
      ix.leadingFilled a.version.data = true → ix.leadingFilled b.version.data = true := by
  refine (h.key_falls ix.order.admits_null).imp fun {a b} hfalls ha => ?_
  rw [KeyOrder.compareKey_null, KeyOrder.compareKey_null, hfirst] at hfalls
  have hlt := hfalls.2
  cases hb : (ix.order.leading.value b.version.data).isNull with
  | false => rw [leadingFilled, hb]; rfl
  | true =>
    rw [leadingFilled, Bool.not_eq_true'] at ha
    rw [ha, hb] at hlt
    cases hlt rfl

/-- The search that the boundary of a key starts finds what is not NULL, for every visibility, just if the
rows behind the key are the rows that are not NULL. -/
theorem Boundary.lands_not_null_iff (h : ix.Sorts t s) {before after : List Item} {e : Item}
    (hb : ix.Boundary t .notNull key before e after) (hkey : ix.order.Admits key)
    (hfirst : ix.order.leading.nullsLast = false) :
    (∀ see, landing see .read (fun _ => true)
        (e :: after.takeWhile fun x => ix.leadingFilled x.version.data) =
      landing see .read ix.leadingFilled s.items) ↔
    ∀ x ∈ s.items, ix.selects .notNull key x.version.data = ix.leadingFilled x.version.data := by
  have hsplit := hb.items_eq h
  have he : e ∈ s.items := (hb.mem_items h).mpr (Or.inr (Or.inl rfl))
  have hbefore {x : Item} (hx : x ∈ before) : x ∈ s.items := (hb.mem_items h).mpr (Or.inl hx)
  have hafter {x : Item} (hx : x ∈ after) : x ∈ s.items := (hb.mem_items h).mpr (Or.inr (Or.inr hx))
  constructor
  · intro hsame
    -- Without a visibility both land on the boundary, which so is the first row that is not NULL.
    have hland : landing none .read ix.leadingFilled s.items = some e.id := (hsame none).symm
    have hfilled : ix.leadingFilled e.version.data = true := by
      obtain ⟨y, hy, hid, hfilled, -⟩ := exists_of_landing hland
      rwa [h.holds.forms.item_unique hy he hid] at hfilled
    have hunfilled : ∀ x ∈ before, ix.leadingFilled x.version.data = false := by
      rcases landing_none_cases .read ix.leadingFilled before with
        ⟨-, hall⟩ | ⟨xs, y, ys, hbeforeSplit, -, -, hy⟩
      · exact hall
      · have hmem : y ∈ before := by simp [hbeforeSplit]
        rw [hsplit, landing_append, hy, Option.some_or] at hland
        have hselected := hb.unselected hkey y hmem
        rw [h.holds.forms.item_unique (hbefore hmem) he (Option.some.inj hland), hb.selected]
          at hselected
        cases hselected
    have hrises := h.leading_filled_rises hfirst
    rw [hsplit] at hrises
    rw [hsplit, List.forall_mem_append, List.forall_mem_cons]
    refine ⟨fun x hx => ?_, hb.selected.trans hfilled.symm, fun x hx => ?_⟩
    · rw [hb.unselected hkey x hx, hunfilled x hx]
    · rw [hb.behind hkey x hx]
      exact ((List.pairwise_cons.mp (List.pairwise_append.mp hrises).2.1).1 x hx hfilled).symm
  · intro hsame see
    have hwalk : after.takeWhile (fun x => ix.leadingFilled x.version.data) = after :=
      List.takeWhile_eq_self_iff.mpr fun x hx => (hsame x (hafter hx)).symm.trans (hb.behind hkey x hx)
    have hnone : landing see .read ix.leadingFilled before = none := landing_eq_none fun x hx =>
      (hsame x (hbefore hx)).symm.trans (hb.unselected hkey x hx)
    have hall : ∀ x ∈ e :: after, ix.leadingFilled x.version.data = true := by
      rw [List.forall_mem_cons]
      exact ⟨(hsame e he).symm.trans hb.selected, fun x hx =>
        (hsame x (hafter hx)).symm.trans (hb.behind hkey x hx)⟩
    rw [hwalk, hsplit, landing_append, hnone, Option.none_or, landing_eq_of_wanted hall]

/-- A search for keys that are not NULL without a key lands on the first readable row that is not NULL in
its leading column. With any key it does the same where NULLs come last. Where NULLs come first it starts
at the first row behind the key, if there is one, and goes on to a readable row while there is no NULL; it
does the same under all visibilities just if the rows behind the key are the rows that are not NULL. -/
theorem not_null_searches_start (h : ix.Arises t) (probe : Probe) :
    let key := probe.key ix
    (∀ see, ix.findNotNull see t = .ok { next := landing see .read ix.leadingFilled t.inorder }) ∧
    (ix.order.leading.nullsLast = true →
      ∀ see, probe.findNotNull ix see t = ix.findNotNull see t) ∧
    (ix.order.leading.nullsLast = false →
      ((∀ see, probe.findNotNull ix see t = .ok {}) ∧
          (ix.order.Admits key → ∀ x ∈ t.inorder, ix.selects .notNull key x.version.data = false) ∨
        ∃ before e after, ix.Boundary t .notNull key before e after ∧
          let walk := e :: after.takeWhile fun x => ix.leadingFilled x.version.data
          ∀ see, probe.findNotNull ix see t = .ok { next := landing see .read (fun _ => true) walk }) ∧
      (ix.order.Admits key → ((∀ see, probe.findNotNull ix see t = ix.findNotNull see t) ↔
        ∀ x ∈ t.inorder, ix.selects .notNull key x.version.data = ix.leadingFilled x.version.data))) := by
  intro key
  obtain ⟨s, hs⟩ := h.sorts
  have hnotNull (see : Option Visibility) : ix.findNotNull see t =
      .ok { next := landing see .read ix.leadingFilled t.inorder } := by
    change (ix.findNode see t [.null] .notNull .read false >>= fun next => .ok ({ next } : Cursor)) = _
    rw [hs.find_not_null_lands see, hs.holds.inorder]
    rfl
  refine ⟨hnotNull, fun hlast see => ?_, fun hfirst => ?_⟩
  · rw [find_not_null_eq, find_node_nulls_last hlast _ [.null]]
    rfl
  simp only [hnotNull, hs.holds.inorder]
  rcases hs.boundary (m := .notNull) key rfl (by simp [hfirst]) with
    ⟨hdescend, hnone⟩ | ⟨before, e, after, hb, hdescend⟩
  · have hempty (see : Option Visibility) : probe.findNotNull ix see t = .ok {} := by
      rw [find_not_null_eq, findNode, Tree.Holds.search_of_none see (hdescend false)]
      rfl
    rw [hs.holds.inorder] at hnone
    refine ⟨Or.inl ⟨hempty, hnone⟩, fun hkey => ?_⟩
    simp only [hempty, Except.ok.injEq, Cursor.mk.injEq, and_true]
    constructor
    · intro hsame
      rcases landing_none_cases .read ix.leadingFilled s.items with
        ⟨-, hall⟩ | ⟨xs, e, ys, -, -, -, hland⟩
      · exact fun x hx => (hnone hkey x hx).trans (hall x hx).symm
      · cases (hsame none).trans hland
    · intro hsame see
      exact (landing_eq_none fun x hx => (hsame x hx).symm.trans (hnone hkey x hx)).symm
  · let walk := e :: after.takeWhile fun x => ix.leadingFilled x.version.data
    have hlands (see : Option Visibility) : probe.findNotNull ix see t =
        .ok { next := landing see .read (fun _ => true) walk } := by
      rw [find_not_null_eq, hb.find_node hs (hdescend false)]
      rfl
    refine ⟨Or.inr ⟨before, e, after, hb, hlands⟩, fun hkey => ?_⟩
    rw [← hb.lands_not_null_iff hs hkey hfirst]
    simp only [hlands, Except.ok.injEq, Cursor.mk.injEq, and_true]
    rfl

def paired (nullsLast : Bool) : Index :=
  { sample with order := ⟨⟨0, .bigint, false, nullsLast⟩, [⟨1, .bigint, false, false⟩]⟩, unique := false }

def pairs (nullsLast : Bool) : Tree :=
  let insert (v : Version) (t : Tree) : Tree := (((paired nullsLast).insert none v).outcome t).2
  insert ⟨3, 4, [.bigint 7], 0⟩ (insert ⟨2, 3, [.bigint 5], 0⟩
    (insert ⟨1, 2, [.null, .bigint 2], 0⟩ (insert ⟨0, 1, [.null, .bigint 1], 0⟩ {})))

theorem pairs_arises (nullsLast : Bool) : (paired nullsLast).Arises (pairs nullsLast) := by
  have hsuits {row : Row} (h : (paired nullsLast).order.Accepts row) :
      (paired nullsLast).order.Suits row := h.suits
  have h₁ := Arises.empty.insert none ⟨0, 1, [.null, .bigint 1], 0⟩
    (Or.inr (by decide +kernel)) (hsuits (by cases nullsLast <;> decide))
  have h₂ := h₁.insert none ⟨1, 2, [.null, .bigint 2], 0⟩
    (Or.inr (by cases nullsLast <;> decide +kernel)) (hsuits (by cases nullsLast <;> decide))
  have h₃ := h₂.insert none ⟨2, 3, [.bigint 5], 0⟩
    (Or.inr (by cases nullsLast <;> decide +kernel)) (hsuits (by cases nullsLast <;> decide))
  exact h₃.insert none ⟨3, 4, [.bigint 7], 0⟩
    (Or.inr (by cases nullsLast <;> decide +kernel)) (hsuits (by cases nullsLast <;> decide))

/-- A key of one NULL finds what no key finds. With the key 5 the two agree where NULLs come last only. -/
theorem pairs_not_null_searches_start :
    (paired false).Arises (pairs false) ∧
    (∀ see, (Probe.value .null).findNotNull (paired false) see (pairs false) =
      (paired false).findNotNull see (pairs false)) ∧
    (¬ ∀ see, (Probe.value (.bigint 5)).findNotNull (paired false) see (pairs false) =
      (paired false).findNotNull see (pairs false)) ∧
    ∀ see, (Probe.value (.bigint 5)).findNotNull (paired true) see (pairs true) =
      (paired true).findNotNull see (pairs true) := by
  have hadmits (v : Value) (hv : ColumnType.bigint.Fits v) : (paired false).order.Admits [v] := by
    intro p hp
    obtain rfl : p = (⟨0, .bigint, false, false⟩, v) := List.mem_singleton.mp hp
    exact hv
  have hfirst (v : Value) := ((not_null_searches_start (pairs_arises false) (.value v)).2.2 rfl).2
  refine ⟨pairs_arises false, ?_, ?_, ?_⟩
  · exact (hfirst .null (hadmits _ fun _ _ => nofun)).mpr (by decide +kernel)
  · exact (hfirst (.bigint 5) (hadmits _ fun _ _ => nofun)).not.mpr (by decide +kernel)
  · exact (not_null_searches_start (pairs_arises true) (.value (.bigint 5))).2.1 rfl

/-- With NULLs first, a search for keys that are not NULL skips the row with the key 5 if it is given this
key, finds nothing if it is given none, and finds a NULL if it is given a key with a NULL. -/
theorem not_null_search_misled :
    (∀ v ∈ (pairs false).versions, (paired false).order.Accepts v.data) ∧
    (paired false).findNotNull none (pairs false) = .ok { next := some 2 } ∧
    (Probe.row [.bigint 5] 1).findNotNull (paired false) none (pairs false) = .ok { next := some 3 } ∧
    (Probe.value (.bigint 5)).findNotNull (paired false) none (pairs false) = .ok { next := some 3 } ∧
    (Probe.row [] 0).findNotNull (paired false) none (pairs false) = .ok {} ∧
    (Probe.row [.null, .bigint 1] 2).findNotNull (paired false) none (pairs false) =
      .ok { next := some 1 } := by
  decide +kernel

end Index

end VersionedIndex
