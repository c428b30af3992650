import VersionedIndex.Proofs.Order.Keys

/-! How far the comparison of rows is a total preorder. A double in a column of integers ties with
every integer, while integers that differ do not tie with each other. -/

namespace VersionedIndex

open Std

namespace Value

def settle (i : Int64) : Value → Value
  | double _ => bigint i
  | v => v

theorem isNull_settle (i : Int64) (v : Value) : (v.settle i).isNull = v.isNull := by
  cases v <;> rfl

theorem fits_settle (i : Int64) (v : Value) : ColumnType.bigint.Fits (v.settle i) := by
  intro _ d h
  cases v <;> cases h

/-- In a column of integers a double counts as any integer, as long as that is the only one. -/
theorem compare_settle {i : Int64} {a b : Value} (ha : ∀ j, a = bigint j → j = i)
    (hb : ∀ j, b = bigint j → j = i) :
    ColumnType.bigint.compare a b = ColumnType.bigint.compare (a.settle i) (b.settle i) := by
  have hself : ColumnType.bigint.compare (bigint i) (bigint i) = .eq :=
    ReflOrd.compare_self (a := i)
  cases a with
  | bigint j =>
    obtain rfl := ha j rfl
    cases b with
    | bigint k => rfl
    | double d => exact hself.symm
    | _ => rfl
  | double d =>
    cases b with
    | bigint k =>
      obtain rfl := hb k rfl
      exact hself.symm
    | double e => exact hself.symm
    | _ => rfl
  | _ => cases b <;> rfl

end Value

namespace KeyColumn

/-- Among the rows, a column of integers holds a double together with two different integers. -/
def Mixes (c : KeyColumn) (rows : List Row) : Prop :=
  c.type = .bigint ∧ (∃ row ∈ rows, (c.value row).type? = some .double) ∧
    ∃ row ∈ rows, ∃ other ∈ rows, (c.value row).type? = some .bigint ∧
      (c.value other).type? = some .bigint ∧ c.value row ≠ c.value other

instance (c : KeyColumn) (rows : List Row) : Decidable (c.Mixes rows) :=
  inferInstanceAs (Decidable (_ ∧ _ ∧ _))

theorem not_mixes_pair (c : KeyColumn) (a b : Row) : ¬ c.Mixes [a, b] := by
  simp only [Mixes, List.mem_cons, List.not_mem_nil, or_false]
  rintro ⟨-, ⟨row, hrow, hdouble⟩, first, hfirst, second, hsecond, hleft, hright, hne⟩
  rcases hrow with rfl | rfl <;> rcases hfirst with rfl | rfl <;> rcases hsecond with rfl | rfl <;>
    simp_all

/-- Without a mixture, the comparison in a column is that of values which fit the column. -/
theorem exists_fitting {c : KeyColumn} {rows : List Row} (h : ¬ c.Mixes rows) :
    ∃ f : Value → Value, ∀ a ∈ rows, ∀ b ∈ rows,
      c.compare (c.value a) (c.value b) = c.order (f (c.value a)) (f (c.value b)) := by
  by_cases hdouble : c.type = .bigint ∧ ∃ row ∈ rows, (c.value row).type? = some .double
  · obtain ⟨htype, hheld⟩ := hdouble
    -- No integer of the column differs from a certain one, and the doubles can count as that.
    obtain ⟨i, hi⟩ : ∃ i, ∀ row ∈ rows, ∀ j, c.value row = .bigint j → j = i := by
      by_cases hinteger : ∃ row ∈ rows, ∃ i, c.value row = .bigint i
      · obtain ⟨row, hrow, i, hvalue⟩ := hinteger
        refine ⟨i, fun other hother j hj => ?_⟩
        by_contra hne
        refine h ⟨htype, hheld, other, hother, row, hrow, ?_, ?_, ?_⟩
        · rw [hj, Value.type?]
        · rw [hvalue, Value.type?]
        · rw [hj, hvalue]
          exact fun heq => hne (Value.bigint.inj heq)
      · exact ⟨0, fun row hrow j hj => (hinteger ⟨row, hrow, j, hj⟩).elim⟩
    refine ⟨Value.settle i, fun a ha b hb => ?_⟩
    rw [← compare_eq_order (htype ▸ Value.fits_settle i _) (htype ▸ Value.fits_settle i _), compare,
      compare, htype, Value.isNull_settle, Value.isNull_settle,
      Value.compare_settle (hi a ha) (hi b hb)]
  · have hfits (row : Row) (hrow : row ∈ rows) : c.type.Fits (c.value row) :=
      fun htype d hd => hdouble ⟨htype, row, hrow, by rw [hd, Value.type?]⟩
    exact ⟨id, fun a ha b hb => compare_eq_order (hfits a ha) (hfits b hb)⟩

/-- Without a mixture, rows are compared by a total preorder. -/
theorem exists_preorder {cs : List KeyColumn} {rows : List Row} (h : ∀ c ∈ cs, ¬ c.Mixes rows) :
    ∃ cmp : Row → Row → Ordering, TransCmp cmp ∧
      ∀ a ∈ rows, ∀ b ∈ rows, compareRows cs a b = cmp a b := by
  induction cs with
  | nil => exact ⟨rowOrder [], inferInstance, fun _ _ _ _ => rfl⟩
  | cons c cs ih =>
    rw [List.forall_mem_cons] at h
    obtain ⟨f, hcolumn⟩ := exists_fitting h.1
    obtain ⟨cmp, htrans, hrest⟩ := ih h.2
    refine ⟨compareLex (readBy (fun row => f (c.value row)) c.order) cmp, inferInstance,
      fun a ha b hb => ?_⟩
    rw [compareRows, hcolumn a ha b hb, hrest a ha b hb]
    rfl

theorem compareRows_swap (cs : List KeyColumn) (a b : Row) :
    compareRows cs a b = (compareRows cs b a).swap := by
  obtain ⟨cmp, _, hcmp⟩ := exists_preorder fun k (_ : k ∈ cs) => k.not_mixes_pair a b
  rw [hcmp a (by simp) b (by simp), hcmp b (by simp) a (by simp)]
  exact OrientedCmp.eq_swap

/-- Along three rows without a mixture, `≤` and ties pass on. -/
theorem compareRows_trans {cs : List KeyColumn} {a b c : Row} (h : ∀ k ∈ cs, ¬ k.Mixes [a, b, c]) :
    (compareRows cs a b ≠ .gt → compareRows cs b c ≠ .gt → compareRows cs a c ≠ .gt) ∧
    (compareRows cs a b = .eq → compareRows cs b c = .eq → compareRows cs a c = .eq) := by
  obtain ⟨cmp, _, hcmp⟩ := exists_preorder h
  rw [hcmp a (by simp) b (by simp), hcmp b (by simp) c (by simp), hcmp a (by simp) c (by simp)]
  refine ⟨fun hab hbc => Ordering.ne_gt_iff_isLE.mpr ?_, TransCmp.eq_trans⟩
  exact TransCmp.isLE_trans (Ordering.ne_gt_iff_isLE.mp hab) (Ordering.ne_gt_iff_isLE.mp hbc)

/-- A tie is `≤` in both directions, so ties pass on where `≤` does. -/
theorem compareRows_eq_trans {cs : List KeyColumn} {a b c : Row}
    (h : ∀ a b c, compareRows cs a b ≠ .gt → compareRows cs b c ≠ .gt → compareRows cs a c ≠ .gt)
    (hab : compareRows cs a b = .eq) (hbc : compareRows cs b c = .eq) :
    compareRows cs a c = .eq := by
  have hforward : compareRows cs a c ≠ .gt := h a b c (by simp [hab]) (by simp [hbc])
  have hbackward : compareRows cs c a ≠ .gt :=
    h c b a (by simp [compareRows_swap cs c b, hbc]) (by simp [compareRows_swap cs b a, hab])
  rw [compareRows_swap cs c a] at hbackward
  cases hac : compareRows cs a c with
  | lt => exact absurd (by rw [hac]; rfl) hbackward
  | eq => rfl
  | gt => exact absurd hac hforward

def lone (position : Nat) (v : Value) : Row := List.replicate position .null ++ [v]

theorem column_lone (position : Nat) (v : Value) : (lone position v).column position = v := by
  simp [lone, Row.column]

theorem column_lone_of_ne {position other : Nat} (h : other ≠ position) (v : Value) :
    (lone position v).column other = .null := by
  rw [lone, Row.column, List.getElem?_append]
  split
  case isTrue hlt => rw [List.getElem?_replicate_of_lt (by simpa using hlt), Option.getD_some]
  case isFalse hge =>
    rw [List.length_replicate] at hge ⊢
    rw [List.getElem?_eq_none (by simp; omega), Option.getD_none]

theorem compare_null (c : KeyColumn) : c.compare .null .null = .eq := by
  simp only [compare, ColumnType.compare_null_null, Ordering.swap_eq, ite_self]

theorem compareRows_lone_of_notMem {cs : List KeyColumn} {position : Nat} (u v : Value)
    (h : position ∉ cs.map (·.position)) :
    compareRows cs (lone position u) (lone position v) = .eq := by
  induction cs with
  | nil => rfl
  | cons c cs ih =>
    rw [List.map_cons, List.mem_cons, not_or] at h
    rw [compareRows, value, value, column_lone_of_ne (Ne.symm h.1), column_lone_of_ne (Ne.symm h.1),
      compare_null, Ordering.eq_then, ih h.2]

/-- Rows that differ in one column are compared by it. -/
theorem compareRows_lone {cs : List KeyColumn} {c : KeyColumn} (u v : Value) (hmem : c ∈ cs)
    (hpositions : (cs.map (·.position)).Nodup) :
    compareRows cs (lone c.position u) (lone c.position v) = c.compare u v := by
  induction cs with
  | nil => cases hmem
  | cons k cs ih =>
    rw [List.map_cons, List.nodup_cons] at hpositions
    rw [compareRows]
    rcases List.mem_cons.mp hmem with rfl | hmem
    · rw [value, value, column_lone, column_lone, compareRows_lone_of_notMem u v hpositions.1,
        Ordering.then_eq]
    · have hne : k.position ≠ c.position :=
        fun h => hpositions.1 (h ▸ List.mem_map_of_mem hmem)
      rw [value, value, column_lone_of_ne hne, column_lone_of_ne hne, compare_null,
        Ordering.eq_then, ih hmem hpositions.2]

/-- A double ties with two integers that do not tie. -/
theorem exists_mixture (c : KeyColumn) (h : c.type = .bigint) :
    ∃ u v w, c.compare u v = .eq ∧ c.compare v w = .eq ∧ c.compare u w ≠ .eq := by
  refine ⟨.bigint 1, .double ⟨0⟩, .bigint 2, ?_⟩
  rw [compare, compare, compare, h]
  cases c.descending with
  | false => exact ⟨rfl, rfl, (by decide : Ordering.lt ≠ .eq)⟩
  | true => exact ⟨rfl, rfl, (by decide : Ordering.gt ≠ .eq)⟩

end KeyColumn

namespace KeyOrder

variable {o : KeyOrder} {a b c : Row}

/-- Ties pass on among all rows only if no column of the key is one of integers. -/
theorem not_bigint_of_ties (hpositions : o.positions.Nodup)
    (h : ∀ a b c, o.compareRows a b = .eq → o.compareRows b c = .eq → o.compareRows a c = .eq) :
    ∀ k ∈ o.columns, k.type ≠ .bigint := by
  intro k hk htype
  obtain ⟨u, v, w, huv, hvw, huw⟩ := k.exists_mixture htype
  have hcompare (x y : Value) := KeyColumn.compareRows_lone x y hk hpositions
  apply huw
  rw [← hcompare]
  exact h _ (KeyColumn.lone k.position v) _ ((hcompare u v).trans huv) ((hcompare v w).trans hvw)

/-- The comparison of rows turns around with the rows. On three rows it passes `≤` and ties on,
unless a key column of integers holds a double together with two different integers of them. Over
all rows it does so just for a key without columns of integers, when no column occurs in it twice. -/
theorem rows_preordered (o : KeyOrder) :
    (∀ a b, o.compareRows a b = (o.compareRows b a).swap) ∧
    (∀ a b c, (∀ k ∈ o.columns, ¬ k.Mixes [a, b, c]) →
      (o.compareRows a b ≠ .gt → o.compareRows b c ≠ .gt → o.compareRows a c ≠ .gt) ∧
      (o.compareRows a b = .eq → o.compareRows b c = .eq → o.compareRows a c = .eq)) ∧
    (o.positions.Nodup →
      ((∀ a b c, o.compareRows a b ≠ .gt → o.compareRows b c ≠ .gt → o.compareRows a c ≠ .gt) ↔
        ∀ k ∈ o.columns, k.type ≠ .bigint) ∧
      ((∀ a b c, o.compareRows a b = .eq → o.compareRows b c = .eq → o.compareRows a c = .eq) ↔
        ∀ k ∈ o.columns, k.type ≠ .bigint)) := by
  refine ⟨KeyColumn.compareRows_swap _, fun a b c => KeyColumn.compareRows_trans,
    fun hpositions => ?_⟩
  have hpure (h : ∀ k ∈ o.columns, k.type ≠ .bigint) (a b c : Row) :=
    KeyColumn.compareRows_trans (a := a) (b := b) (c := c) fun k hk hmix => h k hk hmix.1
  refine ⟨⟨fun h => ?_, fun h a b c => (hpure h a b c).1⟩,
    not_bigint_of_ties hpositions, fun h a b c => (hpure h a b c).2⟩
  exact not_bigint_of_ties hpositions fun a b c => KeyColumn.compareRows_eq_trans h

def numbers : KeyOrder := ⟨⟨0, .double, true, false⟩, [⟨1, .bigint, false, true⟩]⟩

/-- Rows of integers and doubles with one integer in the second column are in order, and others
with the same key are not. -/
theorem numbers_preordered :
    let a : Row := [.bigint 1, .bigint 7]
    let b : Row := [.double ⟨0x3ff0000000000000⟩, .double ⟨0x401e000000000000⟩]
    let c : Row := [.double ⟨0x3ff0000000000000⟩, .bigint 7, .null]
    (numbers.compareRows b a = (numbers.compareRows a b).swap) ∧
    (∀ k ∈ numbers.columns, ¬ k.Mixes [a, b, c]) ∧ numbers.compareRows a b = .eq ∧
    numbers.compareRows b c = .eq ∧ numbers.compareRows a c = .eq ∧ numbers.positions.Nodup ∧
    ¬ ∀ a b c, numbers.compareRows a b ≠ .gt → numbers.compareRows b c ≠ .gt →
      numbers.compareRows a c ≠ .gt := by
  intro a b c
  have hpositions : numbers.positions.Nodup := by decide
  have hmix : ∀ k ∈ numbers.columns, ¬ k.Mixes [a, b, c] := by decide
  have hab : numbers.compareRows a b = .eq := by decide +kernel
  have hbc : numbers.compareRows b c = .eq := by decide +kernel
  obtain ⟨hswap, hpass, hall⟩ := rows_preordered numbers
  refine ⟨hswap b a, hmix, hab, hbc, (hpass a b c hmix).2 hab hbc, hpositions, fun h => ?_⟩
  exact ((hall hpositions).1.mp h) ⟨1, .bigint, false, true⟩ (by decide) rfl

/-- In a column of integers, `1.5` ties with `1` and with `2`. -/
theorem integer_ties_break :
    ∃ o, ofLists [0] [.bigint] [false] [false] = .ok o ∧
      o.compareRows [.bigint 1] [.double ⟨0x3ff8000000000000⟩] = .eq ∧
      o.compareRows [.double ⟨0x3ff8000000000000⟩] [.bigint 2] = .eq ∧
      o.compareRows [.bigint 1] [.bigint 2] = .lt ∧
      o.compareRows [.bigint 2] [.bigint 1] = .gt :=
  ⟨⟨⟨0, .bigint, false, false⟩, []⟩, by decide, by decide, by decide, by decide, by decide⟩

end KeyOrder

end VersionedIndex
