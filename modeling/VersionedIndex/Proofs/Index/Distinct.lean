import Mathlib.Data.Finset.Card
import Mathlib.Data.List.Pairwise
import VersionedIndex.Proofs.Index.Independence
import VersionedIndex.Proofs.Index.Admission
import VersionedIndex.Proofs.Order.SearchKeys

/-! Distinct keys. The count knows a row with a NULL key by a NULL that is stored, so of rows that
are NULL because they are too short it overlooks all that follow an equal one. -/

namespace VersionedIndex

open Std

namespace KeyColumn

theorem compareNatural_values (cs : List KeyColumn) (a b : Row) :
    compareNatural cs a (cs.map (·.value b)) = .eq ↔ compareRows cs a b = .eq := by
  induction cs with
  | nil => exact Iff.rfl
  | cons c cs ih =>
    rw [List.map_cons, compareNatural, compareRows, Ordering.then_eq_eq, Ordering.then_eq_eq, ih,
      compare_eq_iff_natural]

end KeyColumn

namespace KeyOrder

def classIn (o : KeyOrder) (rows : Finset Row) (row : Row) : Finset Row :=
  rows.filter (o.compareRows row · = .eq)

def classes (o : KeyOrder) (rows : Finset Row) : Finset (Finset Row) := rows.image (o.classIn rows)

/-- The number of keys in a list of rows, where each row with a NULL in its key counts by itself. -/
def distinctKeys (o : KeyOrder) (rows : List Row) : Nat :=
  rows.countP o.hasNull + (o.classes (rows.filter (!o.hasNull ·)).toFinset).card

def storesNull (o : KeyOrder) (row : Row) : Bool := o.positions.any fun p => row[p]? == some .null

/-- The row equals the one before it and contains a NULL, but only where it is too short. -/
def overlooks (o : KeyOrder) (before row : Row) : Bool :=
  o.compareRows before row == .eq && o.hasNull row && !o.storesNull row

def overlooked (o : KeyOrder) (rows : List Row) : Nat :=
  (rows.zip rows.tail).countP fun p => o.overlooks p.1 p.2

def Differ (o : KeyOrder) (a b : Row) : Prop := KeyColumn.rowOrder o.columns a b ≠ .eq

instance (o : KeyOrder) : DecidableRel o.Differ := fun _ _ => inferInstanceAs (Decidable (_ ≠ _))

variable {o : KeyOrder} {a b c : Row} {rows : List Row}

theorem not_differ : ¬o.Differ a b ↔ KeyColumn.rowOrder o.columns a b = .eq := not_not

instance (o : KeyOrder) : Std.Symm o.Differ := ⟨fun _ _ h htie => h (OrientedCmp.eq_symm htie)⟩

theorem not_differ_self (o : KeyOrder) (a : Row) : ¬o.Differ a a := fun h => h ReflCmp.compare_self

theorem hasNull_eq_of_tie (h : KeyColumn.rowOrder o.columns a b = .eq) : o.hasNull a = o.hasNull b :=
  KeyColumn.any_isNull_eq_of_rowOrder h

theorem Differ.or (h : o.Differ a c) : o.Differ a b ∨ o.Differ b c := by
  by_contra hties
  rw [not_or, not_differ, not_differ] at hties
  exact h (TransCmp.eq_trans hties.1 hties.2)

/-- What differs from one row of each class differs from all rows. -/
theorem differ_from_kept : (∀ b ∈ rows.pwFilter o.Differ, o.Differ a b) ↔ ∀ b ∈ rows, o.Differ a b :=
  List.forall_mem_pwFilter (R := o.Differ) Differ.or a rows

theorem hasNull_of_storesNull (h : o.storesNull a = true) : o.hasNull a = true := by
  rw [storesNull, positions, List.any_map, List.any_eq_true] at h
  obtain ⟨c, hc, hnull⟩ := h
  rw [hasNull, List.any_eq_true]
  refine ⟨c, hc, ?_⟩
  rw [KeyColumn.value, Row.column, beq_iff_eq.mp hnull]
  rfl

theorem storesNull_of_full (h : ∀ c ∈ o.columns, c.position < a.length) (hnull : o.hasNull a = true) :
    o.storesNull a = true := by
  rw [hasNull, List.any_eq_true] at hnull
  obtain ⟨c, hc, hnull⟩ := hnull
  rw [storesNull, positions, List.any_map, List.any_eq_true]
  refine ⟨c, hc, ?_⟩
  rw [Value.isNull_iff, KeyColumn.value, Row.column, List.getElem?_eq_getElem (h c hc)] at hnull
  rw [Function.comp, List.getElem?_eq_getElem (h c hc), beq_iff_eq]
  exact congrArg some hnull

/-- Rows are in one class just if their keys are equal. -/
theorem classIn_eq_iff (hsuits : ∀ row ∈ rows, o.Suits row) (ha : a ∈ rows) (hb : b ∈ rows) :
    o.classIn rows.toFinset a = o.classIn rows.toFinset b ↔ ¬o.Differ a b := by
  have hkey {a b : Row} (ha : a ∈ rows) (hb : b ∈ rows) :
      o.compareRows a b = KeyColumn.rowOrder o.columns a b :=
    KeyColumn.compareRows_eq_order (hsuits a ha) (hsuits b hb)
  constructor
  · intro hsame hdiffer
    have hself : b ∈ o.classIn rows.toFinset b := by
      refine Finset.mem_filter.mpr ⟨List.mem_toFinset.mpr hb, ?_⟩
      rw [hkey hb hb]
      exact ReflCmp.compare_self
    rw [← hsame] at hself
    have htie := (Finset.mem_filter.mp hself).2
    rw [hkey ha hb] at htie
    exact hdiffer htie
  · intro htie
    rw [not_differ] at htie
    refine Finset.filter_congr fun c hc => ?_
    rw [List.mem_toFinset] at hc
    rw [hkey ha hc, hkey hb hc]
    exact ⟨TransCmp.eq_trans (OrientedCmp.eq_symm htie), TransCmp.eq_trans htie⟩

theorem card_classes (hsuits : ∀ row ∈ rows, o.Suits row) :
    (o.classes rows.toFinset).card = (rows.pwFilter o.Differ).length := by
  have hmem {row : Row} (hrow : row ∈ rows.pwFilter o.Differ) : row ∈ rows :=
    List.pwFilter_subset rows hrow
  have hapart := List.pairwise_pwFilter (R := o.Differ) rows
  have hnodup : (rows.pwFilter o.Differ).Nodup := hapart.imp fun {a b} hdiffer hsame => by
    rw [hsame] at hdiffer
    exact o.not_differ_self b hdiffer
  have himage : o.classes rows.toFinset =
      (rows.pwFilter o.Differ).toFinset.image (o.classIn rows.toFinset) := by
    apply Finset.Subset.antisymm
    · intro block hblock
      obtain ⟨row, hrow, rfl⟩ := Finset.mem_image.mp hblock
      rw [List.mem_toFinset] at hrow
      have hkept : ¬∀ kept ∈ rows.pwFilter o.Differ, o.Differ row kept := fun hall =>
        o.not_differ_self row (differ_from_kept.mp hall row hrow)
      push Not at hkept
      obtain ⟨kept, hmemKept, htie⟩ := hkept
      refine Finset.mem_image.mpr ⟨kept, List.mem_toFinset.mpr hmemKept, ?_⟩
      exact ((classIn_eq_iff hsuits hrow (hmem hmemKept)).mpr htie).symm
    · refine Finset.image_subset_image fun row hrow => ?_
      rw [List.mem_toFinset] at hrow ⊢
      exact hmem hrow
  have hinj : Set.InjOn (o.classIn rows.toFinset) (rows.pwFilter o.Differ).toFinset := by
    intro a ha b hb hsame
    rw [Finset.mem_coe, List.mem_toFinset] at ha hb
    by_contra hne
    exact (classIn_eq_iff hsuits (hmem ha) (hmem hb)).mp hsame (hapart.forall ha hb hne)
  rw [himage, Finset.card_image_of_injOn hinj, List.toFinset_card_of_nodup hnodup]

/-- A further row is a further key, unless it has no NULL and its key is there already. -/
theorem distinctKeys_cons (hsuits : ∀ row ∈ a :: rows, o.Suits row) : o.distinctKeys (a :: rows) =
    o.distinctKeys rows + if o.hasNull a = false ∧ ∃ b ∈ rows, ¬o.Differ a b then 0 else 1 := by
  have hclasses {l : List Row} (hl : l ⊆ a :: rows) :
      (o.classes (l.filter (!o.hasNull ·)).toFinset).card =
        ((l.filter (!o.hasNull ·)).pwFilter o.Differ).length :=
    card_classes fun row hrow => hsuits row (hl (List.mem_filter.mp hrow).1)
  rw [distinctKeys, distinctKeys, hclasses (List.Subset.refl _),
    hclasses (List.subset_cons_self a rows), List.countP_cons, List.filter_cons]
  cases hnull : o.hasNull a with
  | true =>
    simp only [if_true, Bool.not_true, Bool.false_eq_true, if_false, reduceCtorEq, false_and]
    omega
  | false =>
    simp only [Bool.false_eq_true, if_false, Bool.not_false, if_true, true_and, Nat.add_zero]
    -- Rows without a NULL tie with such rows only, so it does not matter that the others are left out.
    have hthere : (∃ b ∈ rows, ¬o.Differ a b) ↔
        ¬∀ b ∈ (rows.filter (!o.hasNull ·)).pwFilter o.Differ, o.Differ a b := by
      rw [differ_from_kept]
      push Not
      refine exists_congr fun b => ⟨fun ⟨hb, htie⟩ => ⟨List.mem_filter.mpr ⟨hb, ?_⟩, htie⟩,
        fun ⟨hb, htie⟩ => ⟨(List.mem_filter.mp hb).1, htie⟩⟩
      rw [← hasNull_eq_of_tie (not_differ.mp htie), hnull]
      rfl
    by_cases hdiffer : ∀ b ∈ (rows.filter (!o.hasNull ·)).pwFilter o.Differ, o.Differ a b
    · rw [List.pwFilter_cons_of_pos hdiffer, if_neg fun h => hthere.mp h hdiffer, List.length_cons,
        Nat.add_assoc]
    · rw [List.pwFilter_cons_of_neg hdiffer, if_pos (hthere.mpr hdiffer)]
      rfl

/-- Along sorted rows, what differs from the next one differs from all that follow. -/
theorem differ_of_sorted
    (hsorted : (a :: b :: rows).Pairwise fun x y => (KeyColumn.rowOrder o.columns x y).isLE)
    (h : o.Differ a b) : ∀ c ∈ b :: rows, o.Differ a c := by
  obtain ⟨hfirst, hrest⟩ := List.pairwise_cons.mp hsorted
  have hlt : KeyColumn.rowOrder o.columns a b = .lt :=
    (Ordering.isLE_iff_eq_lt_or_eq_eq.mp (hfirst b List.mem_cons_self)).resolve_right h
  intro c hc
  rcases List.mem_cons.mp hc with rfl | hc
  · exact h
  · have hlt' := TransCmp.lt_of_lt_of_isLE hlt ((List.pairwise_cons.mp hrest).1 c hc)
    rw [Differ, hlt']
    exact nofun

theorem keyOf_size (o : KeyOrder) (row : Row) : o.keyOf row o.size = o.columns.map (·.value row) := by
  rw [keyOf, pick, positions, List.take_of_length_le (by rw [List.length_map, size]), List.map_map]
  rfl

theorem overlooked_cons (o : KeyOrder) (a b : Row) (rows : List Row) :
    o.overlooked (a :: b :: rows) = o.overlooked (b :: rows) + if o.overlooks a b then 1 else 0 :=
  List.countP_cons

end KeyOrder

namespace Index

variable {ix : Index} {a b : Row} {rows : List Row}

theorem starts_key (ix : Index) (a b : Row) :
    ix.startsKey (some a) b = (ix.order.storesNull b || ix.order.compareRows a b != .eq) := by
  have htie : ix.order.compareNatural a (ix.order.keyOf b ix.order.size) = .eq ↔
      ix.order.compareRows a b = .eq := by
    rw [KeyOrder.keyOf_size]
    exact KeyColumn.compareNatural_values ix.order.columns a b
  rw [startsKey, KeyOrder.storesNull, Bool.eq_iff_iff]
  simp only [Bool.or_eq_true, bne_iff_ne, ne_eq, htie]

theorem count_keys_cons (ix : Index) (a b : Row) (rows : List Row) :
    ix.countKeys none (a :: b :: rows) =
      ix.countKeys none (b :: rows) + if ix.startsKey (some a) b then 1 else 0 := by
  simp only [countKeys, startsKey, if_true]
  omega

/-- A row counts as a key of its own or is overlooked, unless it repeats a key without a NULL. -/
theorem starts_key_or_overlooked (ha : ix.order.Suits a) (hb : ix.order.Suits b) :
    ((if ix.startsKey (some a) b then 1 else 0) + if ix.order.overlooks a b then 1 else 0) =
      if ix.order.hasNull a = false ∧ ¬ix.order.Differ a b then 0 else 1 := by
  have hkey : ix.order.compareRows a b = KeyColumn.rowOrder ix.order.columns a b :=
    KeyColumn.compareRows_eq_order ha hb
  simp only [starts_key, KeyOrder.overlooks, KeyOrder.not_differ, hkey]
  by_cases htie : KeyColumn.rowOrder ix.order.columns a b = .eq
  · simp only [KeyOrder.hasNull_eq_of_tie htie, htie]
    cases hnull : ix.order.hasNull b with
    | true => cases ix.order.storesNull b <;> rfl
    | false =>
      have hstores : ix.order.storesNull b = false := by
        rw [← Bool.not_eq_true]
        intro hstores
        cases hnull.symm.trans (KeyOrder.hasNull_of_storesNull hstores)
      rw [hstores]
      rfl
  · simp [htie]

/-- Along sorted rows, the keys that are counted and the rows that are overlooked are all there are. -/
theorem count_keys_add_overlooked (hsuits : ∀ row ∈ rows, ix.order.Suits row)
    (hsorted : rows.Pairwise fun a b => (KeyColumn.rowOrder ix.order.columns a b).isLE) :
    ix.countKeys none rows + ix.order.overlooked rows = ix.order.distinctKeys rows := by
  -- By induction from the back: each row is judged by the next one, which is the nearest.
  induction rows with
  | nil => rfl
  | cons a rows ih =>
    cases rows with
    | nil =>
      rw [KeyOrder.distinctKeys_cons hsuits, if_neg (by simp)]
      rfl
    | cons b rows =>
      have hrest := ih (List.forall_mem_cons.mp hsuits).2 (List.pairwise_cons.mp hsorted).2
      have hnearest : (∃ c ∈ b :: rows, ¬ix.order.Differ a c) ↔ ¬ix.order.Differ a b := by
        refine ⟨fun ⟨c, hc, htie⟩ hdiffer => htie (KeyOrder.differ_of_sorted hsorted hdiffer c hc),
          fun htie => ⟨b, List.mem_cons_self, htie⟩⟩
      have hturn := starts_key_or_overlooked (hsuits a List.mem_cons_self)
        (hsuits b (List.mem_cons_of_mem a List.mem_cons_self))
      rw [KeyOrder.distinctKeys_cons hsuits, count_keys_cons, KeyOrder.overlooked_cons]
      simp only [hnearest]
      omega

theorem overlooked_of_full
    (hfull : ∀ row ∈ rows, ∀ c ∈ ix.order.columns, c.position < row.length) :
    ix.order.overlooked rows = 0 := by
  rw [KeyOrder.overlooked, List.countP_eq_zero]
  rintro ⟨before, row⟩ hpair
  have hrow : row ∈ rows := List.mem_of_mem_tail (List.of_mem_zip hpair).2
  cases hnull : ix.order.hasNull row with
  | true => simp [KeyOrder.overlooks, hnull, KeyOrder.storesNull_of_full (hfull row hrow) hnull]
  | false => simp [KeyOrder.overlooks, hnull]

/-- The count of the distinct keys among the readable rows falls short of their number by the rows that
follow an equal one and are NULL only where they are too short. Among rows that have all columns of the
key there are none of these. -/
theorem size_unique_and_overlooked {t : Tree} (h : ix.Arises t) (see : Option Visibility) :
    let rows := (t.versions.filter (Visibility.admits see .read)).map (·.data)
    ∃ n, ((sizeUnique see t).outcome ix).1 = .ok n ∧
      n + ix.order.overlooked rows = ix.order.distinctKeys rows ∧
      ((∀ row ∈ rows, ∀ c ∈ ix.order.columns, c.position < row.length) →
        n = ix.order.distinctKeys rows) := by
  intro rows
  obtain ⟨s, hs⟩ := h.sorts
  obtain ⟨c, depth, hfirst, hdrain⟩ := hs.holds.drain_first see ix
  have hrows : (c.drain see t).map (·.data) = rows := by rw [hdrain, ← hs.holds.versions_eq]
  have hsub : rows.Sublist (s.items.map (·.version.data)) := by
    have hread := (List.filter_sublist (p := Visibility.admits see .read) (l := t.versions)).map
      (·.data)
    rwa [hs.holds.versions_eq, List.map_map, ← hs.holds.versions_eq] at hread
  have hcount : ix.countKeys none rows + ix.order.overlooked rows = ix.order.distinctKeys rows := by
    refine count_keys_add_overlooked ?_ ?_
    · intro row hrow
      obtain ⟨e, he, rfl⟩ := List.mem_map.mp (hsub.subset hrow)
      exact hs.suited e he
    · exact (List.pairwise_map.mpr hs.key_sorted).sublist hsub
  refine ⟨ix.countKeys none rows, ?_, hcount, fun hfull => ?_⟩
  · rw [size_unique_outcome, Action.outcome_of_ok hfirst, ← hrows]
    rfl
  · rw [← hcount, overlooked_of_full hfull, Nat.add_zero]

/-- Three rows without a key, of which one stores a NULL, and one key twice. The row behind the one with
a stored NULL is not counted. -/
theorem short_rows_size_unique :
    let ix := { sample with unique := false }
    let insert (v : Version) (t : Tree) : Tree := ((ix.insert none v).outcome t).2
    let t := insert ⟨4, 5, [.bigint 5], 0⟩ (insert ⟨3, 4, [.bigint 5], 0⟩ (insert ⟨2, 3, [], 0⟩
      (insert ⟨1, 2, [.null], 0⟩ (insert ⟨0, 1, [], 0⟩ {}))))
    ix.Arises t ∧ ix.order.distinctKeys (t.versions.map (·.data)) = 4 ∧
      ((sizeUnique none t).outcome ix).1 = .ok 3 ∧
      ((sizeUnique (some (.ofRowIds [2, 4, 5] [] [])) t).outcome ix).1 = .ok 2 := by
  intro ix insert t
  have hsuits {row : Row} (h : ix.order.Accepts row) : ix.order.Suits row := h.suits
  have h₁ := Arises.empty.insert none ⟨0, 1, [], 0⟩ (Or.inr (by decide +kernel)) (hsuits (by decide))
  have h₂ := h₁.insert none ⟨1, 2, [.null], 0⟩ (Or.inr (by decide +kernel)) (hsuits (by decide))
  have h₃ := h₂.insert none ⟨2, 3, [], 0⟩ (Or.inr (by decide +kernel)) (hsuits (by decide))
  have h₄ := h₃.insert none ⟨3, 4, [.bigint 5], 0⟩ (Or.inr (by decide +kernel)) (hsuits (by decide))
  have h₅ : ix.Arises t := h₄.insert none ⟨4, 5, [.bigint 5], 0⟩ (Or.inr (by decide +kernel))
    (hsuits (by decide))
  have hkeys : ix.order.distinctKeys (t.versions.map (·.data)) = 4 := by decide +kernel
  refine ⟨h₅, hkeys, ?_, ?_⟩
  · obtain ⟨n, hn, hsum, -⟩ := size_unique_and_overlooked h₅ none
    rw [show ix.order.overlooked _ = 1 by decide +kernel,
      show ix.order.distinctKeys _ = 4 by decide +kernel] at hsum
    obtain rfl : n = 3 := Nat.succ.inj hsum
    exact hn
  · obtain ⟨n, hn, -, hfull⟩ := size_unique_and_overlooked h₅ (some (.ofRowIds [2, 4, 5] [] []))
    have hn' := hfull (by decide +kernel)
    rw [show ix.order.distinctKeys _ = 2 by decide +kernel] at hn'
    exact hn' ▸ hn

/-- Two rows that are too short for the key count as one. -/
theorem short_rows_undercounted :
    let insert (v : Version) (t : Tree) : Tree := ((sample.insert none v).outcome t).2
    let t := insert ⟨1, 2, [], 0⟩ (insert ⟨0, 1, [], 0⟩ {})
    sample.Arises t ∧ (∀ v ∈ t.versions, sample.order.Accepts v.data) ∧
      sample.order.distinctKeys (t.versions.map (·.data)) = 2 ∧
      ((sizeUnique none t).outcome sample).1 = .ok 1 := by
  intro insert t
  have hsuits : sample.order.Suits [] := KeyOrder.Accepts.suits (by decide)
  have h₁ := Arises.empty.insert none ⟨0, 1, [], 0⟩ (Or.inr (by decide +kernel)) hsuits
  have h₂ : sample.Arises t := h₁.insert none ⟨1, 2, [], 0⟩ (Or.inr (by decide +kernel)) hsuits
  exact ⟨h₂, by decide +kernel, by decide +kernel, by decide +kernel⟩

end Index

end VersionedIndex
