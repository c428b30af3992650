import VersionedIndex.Proofs.Order.Values

namespace VersionedIndex

open Std

def turned {α : Type} (flag : Bool) (cmp : α → α → Ordering) : α → α → Ordering :=
  if flag then fun a b => cmp b a else cmp

instance {α : Type} (flag : Bool) (cmp : α → α → Ordering) [TransCmp cmp] :
    TransCmp (turned flag cmp) := by
  cases flag
  · exact inferInstanceAs (TransCmp cmp)
  · exact inferInstanceAs (TransCmp fun a b => cmp b a)

theorem turned_eq {α : Type} (flag : Bool) (cmp : α → α → Ordering) [OrientedCmp cmp] (a b : α) :
    turned flag cmp a b = if flag then (cmp a b).swap else cmp a b := by
  cases flag
  · rfl
  · change cmp b a = (cmp a b).swap
    exact OrientedCmp.eq_swap

def readBy {α β : Type} (f : α → β) (cmp : β → β → Ordering) (a b : α) : Ordering := cmp (f a) (f b)

instance {α β : Type} (f : α → β) (cmp : β → β → Ordering) [TransCmp cmp] :
    TransCmp (readBy f cmp) where
  eq_swap {a b} := (OrientedCmp.eq_swap : cmp (f a) (f b) = _)
  isLE_trans {a _ c} hab hbc := (TransCmp.isLE_trans hab hbc : (cmp (f a) (f c)).isLE)

namespace KeyColumn

def order (c : KeyColumn) : Value → Value → Ordering :=
  compareLex (turned c.nullsLast (compareOn fun v => !v.isNull)) (turned c.descending c.type.order)

instance (c : KeyColumn) : TransCmp c.order := inferInstanceAs (TransCmp (compareLex _ _))

theorem compare_eq_order {c : KeyColumn} {a b : Value} (ha : c.type.Fits a) (hb : c.type.Fits b) :
    c.compare a b = c.order a b := by
  rw [compare, ColumnType.compare_eq_order ha hb, order, compareLex, turned_eq, turned_eq]
  -- NULL is placed by a flag of its own, so the cases of it have to be told apart first.
  cases hna : a.isNull with
  | true =>
    rw [Value.isNull_iff] at hna
    subst hna
    cases hnb : b.isNull with
    | true =>
      rw [Value.isNull_iff] at hnb
      subst hnb
      simp [compareOn, ReflCmp.compare_self]
    | false =>
      simp only [compareOn, hnb, Value.isNull_null, ColumnType.order_null_left hnb]
      cases c.nullsLast <;> rfl
  | false =>
    cases hnb : b.isNull with
    | true =>
      rw [Value.isNull_iff] at hnb
      subst hnb
      simp only [compareOn, hna, Value.isNull_null, ColumnType.order_null_right hna]
      cases c.nullsLast <;> rfl
    | false =>
      simp only [compareOn, hna, hnb]
      cases c.nullsLast <;> rfl

def rowOrder : List KeyColumn → Row → Row → Ordering
  | [] => fun _ _ => .eq
  | c :: cs => compareLex (readBy c.value c.order) (rowOrder cs)

instance rowOrder_trans (cs : List KeyColumn) : TransCmp (rowOrder cs) := by
  induction cs with
  | nil => exact { eq_swap := rfl, isLE_trans := fun _ _ => rfl }
  | cons c cs ih => exact inferInstanceAs (TransCmp (compareLex _ _))

theorem compareRows_eq_order {cs : List KeyColumn} {a b : Row}
    (ha : ∀ c ∈ cs, c.type.Fits (c.value a)) (hb : ∀ c ∈ cs, c.type.Fits (c.value b)) :
    compareRows cs a b = rowOrder cs a b := by
  induction cs with
  | nil => rfl
  | cons c cs ih =>
    rw [List.forall_mem_cons] at ha hb
    rw [compareRows, compare_eq_order ha.1 hb.1, ih ha.2 hb.2]
    rfl

theorem isNull_eq_of_order {c : KeyColumn} {a b : Value} (h : c.order a b = .eq) :
    a.isNull = b.isNull := by
  have hnulls := (compareLex_eq_eq.mp h).1
  rw [turned_eq, compareOn] at hnulls
  have htie : Ord.compare (!a.isNull) (!b.isNull) = .eq := by
    cases hflag : c.nullsLast with
    | true => rwa [hflag, if_pos rfl, Ordering.swap_eq_eq] at hnulls
    | false => rwa [hflag, if_neg Bool.false_ne_true] at hnulls
  exact Bool.not_inj (Std.compare_eq_iff_eq.mp htie)

theorem any_isNull_eq_of_rowOrder {cs : List KeyColumn} {a b : Row} (h : rowOrder cs a b = .eq) :
    (cs.any fun c => (c.value a).isNull) = cs.any fun c => (c.value b).isNull := by
  induction cs with
  | nil => rfl
  | cons c cs ih =>
    obtain ⟨hcolumn, hrest⟩ := compareLex_eq_eq.mp h
    rw [List.any_cons, List.any_cons, isNull_eq_of_order hcolumn, ih hrest]

end KeyColumn

namespace KeyOrder

variable {o : KeyOrder} {a b : Version}

/-- The key columns of a row hold values that their types accept; a missing value counts as NULL. -/
def Accepts (o : KeyOrder) (row : Row) : Prop := ∀ c ∈ o.columns, c.type.accepts (c.value row) = true

instance (o : KeyOrder) (row : Row) : Decidable (o.Accepts row) :=
  inferInstanceAs (Decidable (∀ c ∈ o.columns, _))

/-- No key column of integers holds a double; every other value in a key column is in order with all
values that can be there. -/
def Suits (o : KeyOrder) (row : Row) : Prop := ∀ c ∈ o.columns, c.type.Fits (c.value row)

theorem Accepts.suits {row : Row} (h : o.Accepts row) : o.Suits row :=
  fun c hc => ColumnType.fits_of_accepts (h c hc)

def keyOrder (o : KeyOrder) : Version → Version → Ordering :=
  readBy (·.data) (KeyColumn.rowOrder o.columns)

def fullOrder (o : KeyOrder) : Version → Version → Ordering :=
  compareLex o.keyOrder (compareOn (·.id))

instance (o : KeyOrder) : TransCmp o.keyOrder := inferInstanceAs (TransCmp (readBy _ _))

instance (o : KeyOrder) : TransCmp o.fullOrder := inferInstanceAs (TransCmp (compareLex _ _))

theorem compareRows_eq_of_suits (ha : o.Suits a.data) (hb : o.Suits b.data) :
    o.compareRows a.data b.data = o.keyOrder a b :=
  KeyColumn.compareRows_eq_order ha hb

theorem compareRows_eq_keyOrder (ha : o.Accepts a.data) (hb : o.Accepts b.data) :
    o.compareRows a.data b.data = o.keyOrder a b :=
  compareRows_eq_of_suits ha.suits hb.suits

theorem compareVersions_false (o : KeyOrder) (a b : Version) :
    o.compareVersions a b false = o.compareRows a.data b.data := Ordering.then_eq

theorem compareVersions_eq_iff :
    o.compareVersions a b true = .eq ↔ o.compareRows a.data b.data = .eq ∧ a.id = b.id := by
  rw [← Std.compare_eq_iff_eq (a := a.id)]
  exact Ordering.then_eq_eq

theorem compareVersions_eq_keyOrder (ha : o.Suits a.data) (hb : o.Suits b.data) :
    o.compareVersions a b false = o.keyOrder a b := by
  rw [compareVersions_false, compareRows_eq_of_suits ha hb]

theorem compareVersions_eq_fullOrder (ha : o.Suits a.data) (hb : o.Suits b.data) :
    o.compareVersions a b true = o.fullOrder a b := by
  rw [fullOrder, compareLex, ← compareRows_eq_of_suits ha hb]
  rfl

theorem fullOrder_eq_iff : o.fullOrder a b = .eq ↔ o.keyOrder a b = .eq ∧ a.id = b.id := by
  rw [fullOrder, compareLex_eq_eq, compareOn, Std.compare_eq_iff_eq]

/-- A key that contains a NULL ties with such keys only. -/
theorem hasNull_eq_of_keyOrder (h : o.keyOrder a b = .eq) : o.hasNull a.data = o.hasNull b.data :=
  KeyColumn.any_isNull_eq_of_rowOrder h

/-- From behind the last key column on only the row ids are compared. -/
theorem compareVersions_from_size (o : KeyOrder) (a b : Version) :
    o.compareVersions a b true o.size = compare a.id b.id := by
  rw [compareVersions, size, List.drop_length]
  rfl

end KeyOrder

end VersionedIndex
