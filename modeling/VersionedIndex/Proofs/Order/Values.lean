import VersionedIndex.KeyOrder
import VersionedIndex.Proofs.Order.Doubles

namespace VersionedIndex

open Std

namespace Value

def number : Value → Int
  | bigint i => Double.placeOfInt i.toInt
  | double d => d.place
  | _ => 0

def truth : Value → Bool
  | boolean b => b
  | _ => false

def text : Value → String
  | varchar s => s
  | _ => ""

def octets : Value → List UInt8
  | binary bytes => bytes
  | _ => []

def dayCount : Value → Int32
  | date days => days
  | _ => 0

def microCount : Value → Int64
  | timestamp micros => micros
  | _ => 0

end Value

namespace ColumnType

def contentOrder : ColumnType → Value → Value → Ordering
  | boolean => compareOn Value.truth
  | bigint | double => compareOn Value.number
  | varchar => compareOn Value.text
  | binary => compareOn Value.octets
  | date => compareOn Value.dayCount
  | timestamp => compareOn Value.microCount

instance (t : ColumnType) : TransCmp t.contentOrder := by
  cases t <;> exact inferInstanceAs (TransCmp (compareOn _))

def order (t : ColumnType) : Value → Value → Ordering :=
  compareLex (compareOn Value.kindRank) t.contentOrder

instance (t : ColumnType) : TransCmp t.order :=
  inferInstanceAs (TransCmp (compareLex _ _))

theorem order_null_left {t : ColumnType} {v : Value} (h : v.isNull = false) :
    t.order .null v = .lt := by
  cases v <;> first | rfl | cases h

theorem order_null_right {t : ColumnType} {v : Value} (h : v.isNull = false) :
    t.order v .null = .gt :=
  OrientedCmp.gt_of_lt (order_null_left h)

def Fits (t : ColumnType) (v : Value) : Prop := t = bigint → ∀ d, v ≠ .double d

theorem fits_of_accepts {t : ColumnType} {v : Value} (h : t.accepts v = true) : t.Fits v := by
  rintro rfl d rfl
  cases h

theorem compare_int64 (a b : Int64) :
    Ord.compare a b = Ord.compare (Double.placeOfInt a.toInt) (Double.placeOfInt b.toInt) := by
  have hpos : (0 : Int) < Double.unitsPerOne := Int.natCast_pos.mpr Double.unitsPerOne_pos
  have hlt : Double.placeOfInt a.toInt < Double.placeOfInt b.toInt ↔ a < b := by
    have hscale : a.toInt * Double.unitsPerOne < b.toInt * Double.unitsPerOne ↔
        a.toInt < b.toInt := Int.mul_lt_mul_right hpos
    rw [Int64.lt_iff_toInt_lt, ← hscale, Double.placeOfInt, Double.placeOfInt]
    omega
  have heq : Double.placeOfInt a.toInt = Double.placeOfInt b.toInt ↔ a = b := by
    have hscale : a.toInt * Double.unitsPerOne = b.toInt * Double.unitsPerOne ↔
        a.toInt = b.toInt := Int.mul_eq_mul_right_iff (ne_of_gt hpos)
    rw [← Int64.toInt_inj, ← hscale, Double.placeOfInt, Double.placeOfInt]
    omega
  simp only [Ord.compare, compareOfLessAndEq, hlt, heq]

theorem double_compare_eq_order (a b : Value) : double.compare a b = double.order a b := by
  cases a with
  | bigint i =>
    cases b with
    | bigint j => exact compare_int64 i j
    | double e => exact Double.compareInt_eq i e
    | _ => rfl
  | double d =>
    cases b with
    | bigint j =>
      change (Double.compareInt j d).swap = Ord.compare d.place (Double.placeOfInt j.toInt)
      rw [Double.compareInt_eq]
      exact OrientedOrd.eq_swap.symm
    | double e => exact Double.totalCompare_eq d e
    | _ => rfl
  | _ => cases b <;> rfl

theorem bigint_compare_eq_order {a b : Value} (ha : bigint.Fits a) (hb : bigint.Fits b) :
    bigint.compare a b = bigint.order a b := by
  cases a with
  | bigint i =>
    cases b with
    | bigint j => exact compare_int64 i j
    | double e => exact absurd rfl (hb rfl e)
    | _ => rfl
  | double d => exact absurd rfl (ha rfl d)
  | _ => cases b <;> rfl

/-- For values that fit, the comparison of a type is its lexicographic order. -/
theorem compare_eq_order {t : ColumnType} {a b : Value} (ha : t.Fits a) (hb : t.Fits b) :
    t.compare a b = t.order a b := by
  cases t with
  | bigint => exact bigint_compare_eq_order ha hb
  | double => exact double_compare_eq_order a b
  | _ => cases a <;> cases b <;> rfl

/-- Turning two values around turns the result around, also where they do not fit. -/
theorem compare_swap (t : ColumnType) (a b : Value) : t.compare b a = (t.compare a b).swap := by
  by_cases hfits : t.Fits a ∧ t.Fits b
  · rw [compare_eq_order hfits.1 hfits.2, compare_eq_order hfits.2 hfits.1]
    exact OrientedCmp.eq_swap
  · obtain ⟨rfl, hdouble⟩ : t = bigint ∧ ((∃ d, a = .double d) ∨ ∃ d, b = .double d) := by
      simp only [Fits, not_and_or, not_forall, not_not, exists_prop] at hfits
      tauto
    rcases hdouble with ⟨d, rfl⟩ | ⟨d, rfl⟩
    · cases b <;> rfl
    · cases a <;> rfl

end ColumnType

end VersionedIndex
