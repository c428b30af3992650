import Mathlib.Algebra.Order.Field.Basic
import Mathlib.Algebra.Order.Ring.Rat
import Mathlib.Order.Compare
import Mathlib.Order.WithBot
import VersionedIndex.Proofs.Order.Values

namespace VersionedIndex

namespace Double

/-- The value of a finite double by the fields of its pattern: a fraction, with a leading one unless the
exponent is the smallest, scaled by the exponent, which is biased by 1023. -/
def rational (d : Double) : ℚ :=
  let exponent : ℕ := d.magnitudeBits / 2 ^ 52
  let fraction : ℚ := (d.magnitudeBits % 2 ^ 52 : ℕ) / 2 ^ 52
  let magnitude : ℚ :=
    if exponent = 0 then fraction * 2 ^ (-1022 : ℤ) else (1 + fraction) * 2 ^ ((exponent : ℤ) - 1023)
  if d.isNegative then -magnitude else magnitude

/-- The number that a pattern stands for, where the infinities lie beyond all others. A NaN stands
for none. -/
def number? (d : Double) : Option (WithBot (WithTop ℚ)) :=
  if d.isNaN then none
  else if d.isFinite then some ((d.rational : WithTop ℚ) : WithBot (WithTop ℚ))
  else some (if d.isNegative then ⊥ else ⊤)

def isQuiet (d : Double) : Bool := 2 ^ 51 ≤ d.magnitudeBits % 2 ^ 52

def payload (d : Double) : ℕ := d.magnitudeBits % 2 ^ 51

/-- Two NaNs in order, if both are positive: signaling before quiet, and then by payload. -/
def PayloadLE (a b : Double) : Prop :=
  (a.isQuiet = false ∧ b.isQuiet = true) ∨ (a.isQuiet = b.isQuiet ∧ a.payload ≤ b.payload)

/-- The standard total order of patterns. Numbers are in order by their values, and equal ones, which
may be the two zeros, by their signs. A negative NaN comes before all numbers and a positive one behind
them. Negative NaNs run backward. -/
def TotalLE (a b : Double) : Prop :=
  match a.number?, b.number? with
  | some x, some y => x < y ∨ (x = y ∧ (a.isNegative = true ∨ b.isNegative = false))
  | none, some _ => a.isNegative = true
  | some _, none => b.isNegative = false
  | none, none =>
    (a.isNegative = true ∧ b.isNegative = false) ∨
    (a.isNegative = true ∧ b.isNegative = true ∧ b.PayloadLE a) ∨
    (a.isNegative = false ∧ b.isNegative = false ∧ a.PayloadLE b)

theorem isZero_iff (d : Double) : d.isZero = true ↔ d.units = 0 := by
  rw [isZero, beq_iff_eq, units_eq, ← unitsAt_zero]
  exact unitsAt_strictMono.injective.eq_iff.symm

theorem isFinite_iff (d : Double) : d.isFinite = true ↔ d.magnitudeBits < 2047 * 2 ^ 52 := by
  rw [isFinite, decide_eq_true_eq, infinityBits_eq]

theorem isNaN_iff (d : Double) : d.isNaN = true ↔ 2047 * 2 ^ 52 < d.magnitudeBits := by
  rw [isNaN, decide_eq_true_eq, infinityBits_eq]

theorem magnitudeBits_lt (d : Double) : d.magnitudeBits < 2 ^ 63 := by
  rw [magnitudeBits_eq]
  exact Nat.mod_lt _ (Nat.two_pow_pos 63)

theorem two_zpow_eq {e : ℤ} {m k : ℕ} (h : e = m - k) : (2 : ℚ) ^ e = 2 ^ m / 2 ^ k := by
  rw [h, zpow_sub₀ two_ne_zero, zpow_natCast, zpow_natCast]

theorem rational_eq (d : Double) : d.rational = d.signedUnits / unitsPerOne := by
  obtain ⟨k, hk, hunits⟩ := unitsPerOne_eq
  have hlow : (2 : ℚ) ^ (-1022 : ℤ) = 2 ^ 52 / 2 ^ k := two_zpow_eq (by rw [hk]; rfl)
  have hhigh (exponent : ℕ) :
      (2 : ℚ) ^ (((exponent + 1 : ℕ) : ℤ) - 1023) = 2 ^ (52 + exponent) / 2 ^ k := by
    apply two_zpow_eq
    clear hlow hunits
    omega
  have hpow : (2 : ℚ) ^ 52 ≠ 0 := pow_ne_zero 52 two_ne_zero
  have hmagnitude : (if d.magnitudeBits / 2 ^ 52 = 0
      then ((d.magnitudeBits % 2 ^ 52 : ℕ) / 2 ^ 52 : ℚ) * 2 ^ (-1022 : ℤ)
      else (1 + (d.magnitudeBits % 2 ^ 52 : ℕ) / 2 ^ 52) *
        2 ^ (((d.magnitudeBits / 2 ^ 52 : ℕ) : ℤ) - 1023)) = (d.units : ℚ) / unitsPerOne := by
    rw [units_eq, hunits, Nat.cast_pow, Nat.cast_two]
    cases hexponent : d.magnitudeBits / 2 ^ 52 with
    | zero =>
      have hsmall : d.magnitudeBits < 2 ^ 52 := Nat.lt_of_div_eq_zero (Nat.two_pow_pos 52) hexponent
      rw [if_pos rfl, unitsAt_low hsmall, Nat.mod_eq_of_lt hsmall, hlow]
      exact div_mul_div_cancel₀ hpow
    | succ exponent =>
      rw [if_neg (Nat.succ_ne_zero exponent), unitsAt_high hexponent rfl, hhigh, pow_add]
      rw [← mul_div_assoc, ← mul_assoc, add_mul, one_mul, div_mul_cancel₀ _ hpow, Nat.cast_mul,
        Nat.cast_add, Nat.cast_pow, Nat.cast_pow, Nat.cast_two]
  simp only [rational, signedUnits, hmagnitude]
  cases d.isNegative with
  | true => rw [if_pos rfl, if_pos rfl, Int.cast_neg, Int.cast_natCast, neg_div]
  | false => rw [if_neg Bool.false_ne_true, if_neg Bool.false_ne_true, Int.cast_natCast]

def extent (d : Double) : ℤ := if d.isNegative then -(d.magnitudeBits : ℤ) else d.magnitudeBits

theorem signed_units_lt_iff (a b : Double) : a.signedUnits < b.signedUnits ↔ a.extent < b.extent := by
  have hlt (a b : Double) : a.units < b.units ↔ a.magnitudeBits < b.magnitudeBits := by
    rw [units_eq, units_eq]
    exact unitsAt_strictMono.lt_iff_lt
  have hzero (d : Double) : d.units = 0 ↔ d.magnitudeBits = 0 := by
    rw [← isZero_iff, isZero, beq_iff_eq]
  have hab := hlt a b
  have hba := hlt b a
  have ha := hzero a
  have hb := hzero b
  simp only [signedUnits, extent]
  split_ifs <;> omega

theorem rational_lt_iff (a b : Double) : a.rational < b.rational ↔ a.extent < b.extent := by
  have hpos : (0 : ℚ) < unitsPerOne := Nat.cast_pos.mpr unitsPerOne_pos
  rw [rational_eq, rational_eq, div_lt_div_iff_of_pos_right hpos, Int.cast_lt, signed_units_lt_iff]

/-- A pattern that stands for a number is finite or one of the infinities. -/
theorem number_cases {d : Double} {x : WithBot (WithTop ℚ)} (h : d.number? = some x) :
    (d.magnitudeBits < 2047 * 2 ^ 52 ∧ x = ((d.rational : WithTop ℚ) : WithBot (WithTop ℚ))) ∨
    (d.extent = -(2047 * 2 ^ 52) ∧ x = ⊥) ∨ (d.extent = 2047 * 2 ^ 52 ∧ x = ⊤) := by
  have hfinite := d.isFinite_iff
  have hnan := d.isNaN_iff
  rw [number?] at h
  split_ifs at h with hn hf hneg
  · exact Or.inl ⟨hfinite.mp hf, (Option.some.inj h).symm⟩
  · rw [hfinite] at hf
    rw [hnan] at hn
    refine Or.inr (Or.inl ⟨?_, (Option.some.inj h).symm⟩)
    rw [extent, if_pos hneg]
    omega
  · rw [hfinite] at hf
    rw [hnan] at hn
    refine Or.inr (Or.inr ⟨?_, (Option.some.inj h).symm⟩)
    rw [extent, if_neg hneg]
    omega

theorem extent_bounds {d : Double} (h : d.magnitudeBits < 2047 * 2 ^ 52) :
    -(2047 * 2 ^ 52) < d.extent ∧ d.extent < 2047 * 2 ^ 52 := by
  rw [extent]
  split_ifs <;> omega

/-- Numbers are in order as their patterns are. -/
theorem number_lt_iff {a b : Double} {x y : WithBot (WithTop ℚ)} (ha : a.number? = some x)
    (hb : b.number? = some y) : x < y ↔ a.extent < b.extent := by
  rcases number_cases ha with ⟨hla, rfl⟩ | ⟨hea, rfl⟩ | ⟨hea, rfl⟩
  · have hbounds := extent_bounds hla
    rcases number_cases hb with ⟨hlb, rfl⟩ | ⟨heb, rfl⟩ | ⟨heb, rfl⟩
    · rw [WithBot.coe_lt_coe, WithTop.coe_lt_coe, rational_lt_iff]
    · exact iff_of_false not_lt_bot (by omega)
    · exact iff_of_true (WithBot.coe_lt_coe.mpr (WithTop.coe_lt_top _)) (by omega)
  · rcases number_cases hb with ⟨hlb, rfl⟩ | ⟨heb, rfl⟩ | ⟨heb, rfl⟩
    · exact iff_of_true (WithBot.bot_lt_coe _) (by have := extent_bounds hlb; omega)
    · exact iff_of_false (lt_irrefl _) (by omega)
    · exact iff_of_true bot_lt_top (by omega)
  · rcases number_cases hb with ⟨hlb, rfl⟩ | ⟨heb, rfl⟩ | ⟨heb, rfl⟩
    · exact iff_of_false not_top_lt (by have := extent_bounds hlb; omega)
    · exact iff_of_false not_top_lt (by omega)
    · exact iff_of_false (lt_irrefl _) (by omega)

theorem number_eq_iff {a b : Double} {x y : WithBot (WithTop ℚ)} (ha : a.number? = some x)
    (hb : b.number? = some y) : x = y ↔ a.extent = b.extent := by
  have hlt := number_lt_iff ha hb
  have hgt := number_lt_iff hb ha
  rw [le_antisymm_iff, ← not_lt, ← not_lt, hlt, hgt]
  omega

theorem number_eq_none {d : Double} : d.number? = none ↔ 2047 * 2 ^ 52 < d.magnitudeBits := by
  rw [← isNaN_iff, number?]
  split_ifs with hn hf <;> simp [hn]

theorem magnitude_le_of_number {d : Double} {x : WithBot (WithTop ℚ)} (h : d.number? = some x) :
    d.magnitudeBits ≤ 2047 * 2 ^ 52 := by
  refine le_of_not_gt fun hlt => ?_
  rw [number_eq_none.mpr hlt] at h
  cases h

/-- Kind and payload of a NaN are its fraction bits. -/
theorem payload_le_iff {a b : Double} (ha : 2047 * 2 ^ 52 < a.magnitudeBits)
    (hb : 2047 * 2 ^ 52 < b.magnitudeBits) : a.PayloadLE b ↔ a.magnitudeBits ≤ b.magnitudeBits := by
  have hla := a.magnitudeBits_lt
  have hlb := b.magnitudeBits_lt
  simp only [PayloadLE, isQuiet, payload, decide_eq_true_eq, decide_eq_false_iff_not,
    decide_eq_decide]
  omega

/-- The patterns are compared in the standard total order. -/
theorem totalCompare_isLE_iff (a b : Double) : (a.totalCompare b).isLE ↔ a.TotalLE b := by
  rw [totalCompare, Std.isLE_compare, totalRank, totalRank, TotalLE]
  cases ha : a.number? with
  | none =>
    rw [number_eq_none] at ha
    cases hb : b.number? with
    | none =>
      rw [number_eq_none] at hb
      simp only [payload_le_iff hb ha, payload_le_iff ha hb]
      cases a.isNegative <;> cases b.isNegative <;> simp <;> omega
    | some y =>
      have hlb := magnitude_le_of_number hb
      cases a.isNegative <;> cases b.isNegative <;> simp <;> omega
  | some x =>
    have hla := magnitude_le_of_number ha
    cases hb : b.number? with
    | none =>
      rw [number_eq_none] at hb
      cases a.isNegative <;> cases b.isNegative <;> simp <;> omega
    | some y =>
      simp only [number_lt_iff ha hb, number_eq_iff ha hb, extent]
      cases a.isNegative <;> cases b.isNegative <;> simp <;> omega

/-- Integers and finite doubles compare as rational numbers do. -/
theorem compare_rational (i : ℤ) (d : Double) :
    compare (i : ℚ) d.rational = compare (i * unitsPerOne) d.signedUnits := by
  have hpos : (0 : ℚ) < unitsPerOne := Nat.cast_pos.mpr unitsPerOne_pos
  have hmono : StrictMono fun n : ℤ => (n : ℚ) / unitsPerOne := fun m n hlt =>
    (div_lt_div_iff_of_pos_right hpos).mpr (Int.cast_lt.mpr hlt)
  have hvalue : ((i * unitsPerOne : ℤ) : ℚ) / unitsPerOne = i := by
    rw [Int.cast_mul, Int.cast_natCast]
    exact mul_div_cancel_right₀ _ hpos.ne'
  calc compare (i : ℚ) d.rational
      = cmp (((i * unitsPerOne : ℤ) : ℚ) / unitsPerOne) ((d.signedUnits : ℚ) / unitsPerOne) := by
        rw [hvalue, rational_eq, cmp_eq_compare]
    _ = cmp (i * unitsPerOne) d.signedUnits := hmono.cmp_map_eq _ _
    _ = compare (i * unitsPerOne) d.signedUnits := cmp_eq_compare _ _

/-- Only the negative zero has a place of its own beside that of its value. -/
theorem place_eq (d : Double) : d.place =
    if d.isNegative = true ∧ d.isZero = true then -1 else 2 * d.signedUnits := by
  by_cases hnegative : d.isNegative = true
  · by_cases hzero : d.isZero = true
    · rw [place, if_pos hnegative, if_pos (d.isZero_iff.mp hzero), if_pos ⟨hnegative, hzero⟩]
    · rw [place, if_pos hnegative, if_neg (mt d.isZero_iff.mpr hzero), if_neg fun h => hzero h.2,
        signedUnits, if_pos hnegative]
      omega
  · rw [place, if_neg hnegative, if_neg fun h => hnegative h.1, signedUnits, if_neg hnegative]

/-- An integer lies beside a finite double where its value does, and right above the negative zero. -/
theorem compareInt_rational (i : Int64) (d : Double) :
    compareInt i d = (compare (i.toInt : ℚ) d.rational).then
      (if d.isNegative = true ∧ d.isZero = true then .gt else .eq) := by
  rw [compareInt_eq, compare_rational, place_eq, placeOfInt]
  split_ifs with hzero
  · have hunits : d.signedUnits = 0 := by
      rw [signedUnits, if_pos hzero.1, d.isZero_iff.mp hzero.2]
      rfl
    rw [hunits]
    -- Nothing is left between the place right below zero and zero itself.
    rcases lt_trichotomy (i.toInt * (unitsPerOne : ℤ)) 0 with hlt | heq | hgt
    · rw [Int.compare_eq_lt.mpr hlt]
      exact Int.compare_eq_lt.mpr (by omega)
    · rw [heq]
      rfl
    · rw [Int.compare_eq_gt.mpr hgt]
      exact Int.compare_eq_gt.mpr (by omega)
  · rw [compare_two_mul, Ordering.then_eq]

/-- Every integer lies closer to zero than the infinities and the NaNs. -/
theorem lt_units_of_infinite {d : Double} (h : d.isFinite = false) (i : Int64) :
    i.toInt.natAbs * unitsPerOne < d.units := by
  have hlow := Int64.le_toInt i
  have hhigh := Int64.toInt_lt i
  have hrounded := roundedBits_lt (n := i.toInt.natAbs) (by omega)
  have hbits : infinityBits ≤ d.magnitudeBits := by
    rw [isFinite, decide_eq_false_iff_not] at h
    exact not_lt.mp h
  rw [units_eq]
  exact (roundedBits_near _ _).1 (unitsAt_strictMono (lt_of_lt_of_le hrounded hbits))

theorem compareInt_infinite {d : Double} (h : d.isFinite = false) (i : Int64) :
    compareInt i d = if d.isNegative then .gt else .lt := by
  have hlt := lt_units_of_infinite h i
  have hsize : (i.toInt * unitsPerOne).natAbs = i.toInt.natAbs * unitsPerOne := by
    rw [Int.natAbs_mul, Int.natAbs_natCast]
  rw [compareInt_eq, placeOfInt, place]
  generalize i.toInt * (unitsPerOne : ℤ) = size at *
  cases d.isNegative with
  | true =>
    rw [if_pos rfl, if_pos rfl, if_neg (by omega)]
    exact Int.compare_eq_gt.mpr (by omega)
  | false =>
    rw [if_neg Bool.false_ne_true, if_neg Bool.false_ne_true]
    exact Int.compare_eq_lt.mpr (by omega)

end Double

namespace ColumnType

/-- A DOUBLE column orders its numbers in one total preorder. It keeps the order of the integers and the
standard total order of the doubles, and it is exact between them: an integer and a finite double are
in order by their rational values, and the integer zero equals the positive zero and lies above the
negative one. The infinities and the NaNs lie outside all integers, on the side of their sign. -/
theorem double_orders_numbers :
    (∀ a b, double.compare a b = (double.compare b a).swap) ∧
    (∀ a b c, double.compare a b ≠ .gt → double.compare b c ≠ .gt → double.compare a c ≠ .gt) ∧
    (∀ i j : Int64, double.compare (.bigint i) (.bigint j) = Ord.compare i.toInt j.toInt) ∧
    (∀ d e : Double, double.compare (.double d) (.double e) ≠ .gt ↔ d.TotalLE e) ∧
    (∀ (i : Int64) (d : Double), d.isFinite = true →
      double.compare (.bigint i) (.double d) = (Ord.compare (i.toInt : ℚ) d.rational).then
        (if d.isNegative = true ∧ d.isZero = true then .gt else .eq)) ∧
    (∀ (i : Int64) (d : Double), d.isFinite = false →
      double.compare (.bigint i) (.double d) = if d.isNegative then .gt else .lt) := by
  refine ⟨fun a b => ?_, fun a b c hab hbc => ?_, fun i j => ?_, fun d e => ?_, fun i d _ => ?_,
    fun i d hinfinite => ?_⟩
  · rw [double_compare_eq_order, double_compare_eq_order]
    exact Std.OrientedCmp.eq_swap
  · rw [double_compare_eq_order] at hab hbc ⊢
    apply Ordering.ne_gt_iff_isLE.mpr
    exact Std.TransCmp.isLE_trans (Ordering.ne_gt_iff_isLE.mp hab) (Ordering.ne_gt_iff_isLE.mp hbc)
  · change Ord.compare i j = _
    simp only [Ord.compare, compareOfLessAndEq, Int64.lt_iff_toInt_lt, Int64.toInt_inj]
  · exact Ordering.ne_gt_iff_isLE.trans (d.totalCompare_isLE_iff e)
  · exact Double.compareInt_rational i d
  · exact Double.compareInt_infinite hinfinite i

/-- The integer `2 ^ 53 + 1` would be rounded to the double below it, and lies strictly above that. -/
theorem rounded_integer_ordered :
    let d : Double := ⟨0x4340000000000000⟩
    let infinity : Double := ⟨0x7ff0000000000000⟩
    let i : Int64 := 9007199254740993
    Double.ofInt i.toInt = d ∧ d.isFinite = true ∧ infinity.isFinite = false ∧
    double.compare (.double d) (.bigint 9007199254740992) ≠ .gt ∧
    double.compare (.bigint 9007199254740992) (.bigint i) ≠ .gt ∧
    double.compare (.double d) (.bigint i) ≠ .gt ∧
    double.compare (.bigint i) (.double d) = .gt ∧
    double.compare (.bigint i) (.double infinity) = .lt := by
  intro d infinity i
  obtain ⟨-, htrans, -, -, hfinite, hinfinite⟩ := double_orders_numbers
  have hd : d.isFinite = true := by decide +kernel
  have hinfinity : infinity.isFinite = false := by decide +kernel
  have hbelow : double.compare (.double d) (.bigint 9007199254740992) ≠ .gt := by decide +kernel
  have habove : double.compare (.bigint 9007199254740992) (.bigint i) ≠ .gt := by decide +kernel
  refine ⟨by decide +kernel, hd, hinfinity, hbelow, habove, htrans _ _ _ hbelow habove, ?_, ?_⟩
  · exact (hfinite i d hd).trans (by decide +kernel)
  · exact (hinfinite i infinity hinfinity).trans (by decide +kernel)

end ColumnType

end VersionedIndex
