import VersionedIndex.Proofs.Order.Keys

namespace VersionedIndex

open Std

def Rises (a b : Ordering) : Prop := (a = .gt → b = .gt) ∧ (b = .lt → a = .lt)

namespace Rises

variable {a b a' b' : Ordering}

theorem refl (a : Ordering) : Rises a a := ⟨id, id⟩

/-- Places in one direction, and among equal ones places in another. -/
theorem «then» (h : Rises a b) (h' : a = .eq → b = .eq → Rises a' b') :
    Rises (a.then a') (b.then b') := by
  obtain ⟨hgt, hlt⟩ := h
  cases a with
  | lt => exact ⟨nofun, fun _ => rfl⟩
  | gt =>
    obtain rfl := hgt rfl
    exact ⟨id, id⟩
  | eq =>
    cases b with
    | lt => cases hlt rfl
    | gt => exact ⟨fun _ => rfl, nofun⟩
    | eq => exact h' rfl rfl

/-- A fixed value falls back behind values that grow. -/
theorem of_le {α : Type} {cmp : α → α → Ordering} [TransCmp cmp] {x y : α} (h : (cmp x y).isLE)
    (k : α) : Rises (cmp k y) (cmp k x) := by
  constructor
  · intro hy
    exact OrientedCmp.gt_of_lt (TransCmp.lt_of_isLE_of_lt h (OrientedCmp.lt_of_gt hy))
  · exact fun hx => TransCmp.lt_of_lt_of_isLE hx h

end Rises

namespace KeyColumn

def Admit (cs : List KeyColumn) (key : List Value) : Prop := ∀ p ∈ cs.zip key, p.1.type.Fits p.2

variable {c : KeyColumn} {cs : List KeyColumn} {v : Value} {key : List Value} {a b : Row}

theorem admit_cons : Admit (c :: cs) (v :: key) ↔ c.type.Fits v ∧ Admit cs key :=
  List.forall_mem_cons

/-- As rows go on, a search key falls back behind them. -/
theorem compareKey_falls (hkey : Admit cs key) (ha : ∀ c ∈ cs, c.type.Fits (c.value a))
    (hb : ∀ c ∈ cs, c.type.Fits (c.value b)) (hle : (rowOrder cs a b).isLE) :
    Rises (compareKey cs key b) (compareKey cs key a) := by
  induction cs generalizing key with
  | nil => exact Rises.refl _
  | cons c cs ih =>
    cases key with
    | nil => exact Rises.refl _
    | cons v key =>
      rw [admit_cons] at hkey
      rw [List.forall_mem_cons] at ha hb
      obtain ⟨hcolumn, hrest⟩ := Ordering.isLE_then_iff_and.mp hle
      change (c.order (c.value a) (c.value b)).isLE at hcolumn
      rw [compareKey, compareKey, compare_eq_order hkey.1 ha.1, compare_eq_order hkey.1 hb.1]
      refine (Rises.of_le hcolumn v).then fun hvb hva => ih hkey.2 ha.2 hb.2 ?_
      have htie : c.order (c.value a) (c.value b) = .eq :=
        TransCmp.eq_trans (OrientedCmp.eq_symm hva) hvb
      exact hrest.resolve_left fun hlt => by
        cases hlt.symm.trans htie

/-- The flags turn no tie into anything else. -/
theorem compare_eq_iff_natural (c : KeyColumn) (v w : Value) :
    c.compare v w = .eq ↔ c.type.compare v w = .eq := by
  rw [compare]
  cases if v.isNull || w.isNull then c.nullsLast else c.descending with
  | false => exact Iff.rfl
  | true => exact Ordering.swap_eq_eq

theorem compare_eq_iff (hv : c.type.Fits v) (ha : c.type.Fits (c.value a)) :
    c.type.compare (c.value a) v = .eq ↔ c.compare v (c.value a) = .eq := by
  rw [compare_eq_iff_natural, ColumnType.compare_eq_order ha hv, ColumnType.compare_eq_order hv ha]
  exact ⟨OrientedCmp.eq_symm, OrientedCmp.eq_symm⟩

/-- A row ties with a search key in the natural order just if it does in index order. -/
theorem compareNatural_eq_iff (hkey : Admit cs key) (ha : ∀ c ∈ cs, c.type.Fits (c.value a)) :
    compareNatural cs a key = .eq ↔ compareKey cs key a = .eq := by
  induction cs generalizing key with
  | nil => exact Iff.rfl
  | cons c cs ih =>
    cases key with
    | nil => exact Iff.rfl
    | cons v key =>
      rw [admit_cons] at hkey
      rw [List.forall_mem_cons] at ha
      rw [compareNatural, compareKey, Ordering.then_eq_eq, Ordering.then_eq_eq,
        compare_eq_iff hkey.1 ha.1, ih hkey.2 ha.2]

/-- What a search key has beyond the key columns is not compared. -/
theorem compareKey_take (cs : List KeyColumn) (key : List Value) (row : Row) :
    compareKey cs (key.take cs.length) row = compareKey cs key row := by
  induction cs generalizing key with
  | nil => rfl
  | cons c cs ih =>
    cases key with
    | nil => rfl
    | cons v key => rw [List.length_cons, List.take_succ_cons, compareKey, compareKey, ih]

theorem compareNatural_take (cs : List KeyColumn) (row : Row) (key : List Value) :
    compareNatural cs row (key.take cs.length) = compareNatural cs row key := by
  induction cs generalizing key with
  | nil => rfl
  | cons c cs ih =>
    cases key with
    | nil => rfl
    | cons v key => rw [List.length_cons, List.take_succ_cons, compareNatural, compareNatural, ih]

theorem compare_null_left (c : KeyColumn) (v : Value) :
    c.compare .null v = if v.isNull then .eq else if c.nullsLast then .gt else .lt := by
  cases hv : v.isNull with
  | true =>
    rw [Value.isNull_iff] at hv
    subst hv
    cases hflag : c.nullsLast <;> simp [compare, hflag, ColumnType.compare_null_null]
  | false =>
    have hlt : c.type.compare .null v = .lt := by simp [ColumnType.compare, hv]
    cases hflag : c.nullsLast <;> simp [compare, hflag, hlt, hv]

end KeyColumn

namespace KeyOrder

variable {o : KeyOrder} {a b : Version} {key : List Value}

/-- The values of a search key fit the columns of the key, as far as both go: no double is for a
column of integers. -/
def Admits (o : KeyOrder) (key : List Value) : Prop := KeyColumn.Admit o.columns key

/-- As versions go on in index order, a search key falls back behind them. -/
theorem compareKey_falls (hkey : o.Admits key) (ha : o.Suits a.data) (hb : o.Suits b.data)
    (hle : (o.keyOrder a b).isLE) : Rises (o.compareKey key b.data) (o.compareKey key a.data) :=
  KeyColumn.compareKey_falls hkey ha hb hle

theorem compareNatural_eq_iff (hkey : o.Admits key) (ha : o.Suits a.data) :
    o.compareNatural a.data key = .eq ↔ o.compareKey key a.data = .eq :=
  KeyColumn.compareNatural_eq_iff hkey ha

theorem admits_null (o : KeyOrder) : o.Admits [.null] := by
  intro p hp
  rw [columns, List.zip_cons_cons, List.zip_nil_right, List.mem_singleton] at hp
  subst hp
  exact nofun

theorem compareKey_take (o : KeyOrder) (key : List Value) (row : Row) :
    o.compareKey (key.take o.size) row = o.compareKey key row :=
  KeyColumn.compareKey_take o.columns key row

theorem compareNatural_take (o : KeyOrder) (row : Row) (key : List Value) :
    o.compareNatural row (key.take o.size) = o.compareNatural row key :=
  KeyColumn.compareNatural_take o.columns row key

/-- A search key of one value is compared with the leading column. -/
theorem compareKey_value (o : KeyOrder) (v : Value) (row : Row) :
    o.compareKey [v] row = o.leading.compare v (o.leading.value row) := by
  rw [compareKey, columns, KeyColumn.compareKey]
  cases o.others <;> exact Ordering.then_eq

/-- Whether a row ties with one value does not depend on the order in which the two are compared. -/
theorem compareNatural_value (o : KeyOrder) (row : Row) (v : Value) :
    o.compareNatural row [v] = .eq ↔ o.compareKey [v] row = .eq := by
  have hnatural : o.compareNatural row [v] = o.leading.type.compare (o.leading.value row) v := by
    rw [compareNatural, columns, KeyColumn.compareNatural]
    cases o.others <;> exact Ordering.then_eq
  rw [hnatural, compareKey_value, KeyColumn.compare_eq_iff_natural, ColumnType.compare_swap _ v,
    Ordering.swap_eq_eq]

/-- A search key that is laid out in key order and taken as far as it goes. -/
theorem pick_range (key : List Value) (n : Nat) :
    pick key (List.range n) key.length = key.take n := by
  apply List.ext_getElem
  · simp [pick, Nat.min_comm]
  · intro i hi hi'
    have hlt : i < key.length := (List.length_take_le' n key).trans_lt' hi'
    simp [pick, Row.column, hlt]

/-- The search key of one NULL tells the rows whose leading column is NULL from the others. -/
theorem compareKey_null (o : KeyOrder) (row : Row) : o.compareKey [.null] row =
    if (o.leading.value row).isNull then .eq else if o.leading.nullsLast then .gt else .lt := by
  rw [compareKey_value, KeyColumn.compare_null_left]

end KeyOrder

end VersionedIndex
