import Mathlib.Order.Monotone.Basic
import Mathlib.Tactic.Ring
import VersionedIndex.Value.Order

/-! Integers and doubles on one scale, in half units of the smallest positive double so that `-0.0`
can lie right below zero. Rounding never moves an integer across another double. -/

namespace VersionedIndex

namespace Double

def unitsAt (bits : Nat) : Nat :=
  match bits / 2 ^ 52 with
  | 0 => bits % 2 ^ 52
  | exponent + 1 => (2 ^ 52 + bits % 2 ^ 52) * 2 ^ exponent

theorem units_eq (d : Double) : d.units = unitsAt d.magnitudeBits := by
  cases hexponent : d.magnitudeBits / 2 ^ 52 with
  | zero => simp only [units, unitsAt, Nat.one_shiftLeft, hexponent]
  | succ exponent => simp only [units, unitsAt, Nat.shiftLeft_eq, Nat.one_mul, hexponent]

theorem magnitudeBits_eq (d : Double) : d.magnitudeBits = d.bits.toNat % 2 ^ 63 := by
  rw [magnitudeBits, Nat.one_shiftLeft]

theorem isNegative_eq (d : Double) : d.isNegative = decide (2 ^ 63 ≤ d.bits.toNat) := by
  rw [isNegative, Nat.one_shiftLeft]

theorem infinityBits_eq : infinityBits = 2047 * 2 ^ 52 := by
  rw [infinityBits, Nat.shiftLeft_eq]

theorem unitsPerOne_eq : ∃ k, k = 1074 ∧ unitsPerOne = 2 ^ k := by
  obtain ⟨k, hk⟩ : ∃ k, k = 1074 := ⟨1074, rfl⟩
  refine ⟨k, hk, ?_⟩
  rw [unitsPerOne, ← hk, Nat.one_shiftLeft]

theorem unitsAt_low {bits : Nat} (h : bits < 2 ^ 52) : unitsAt bits = bits := by
  rw [unitsAt, Nat.div_eq_of_lt h]
  exact Nat.mod_eq_of_lt h

theorem unitsAt_high {bits exponent fraction : Nat} (hdiv : bits / 2 ^ 52 = exponent + 1)
    (hmod : bits % 2 ^ 52 = fraction) : unitsAt bits = (2 ^ 52 + fraction) * 2 ^ exponent := by
  rw [unitsAt, hdiv, hmod]

/-- The units of a significand with its leading bit set, or one that carries into the exponent. -/
theorem unitsAt_scaled (shift significand : Nat) (hlow : 2 ^ 52 ≤ significand)
    (hhigh : significand ≤ 2 ^ 53) :
    unitsAt (shift * 2 ^ 52 + significand) = significand * 2 ^ shift := by
  rcases Nat.lt_or_ge significand (2 ^ 53) with hlt | hge
  · have hdiv : (shift * 2 ^ 52 + significand) / 2 ^ 52 = shift + 1 := by omega
    have hmod : (shift * 2 ^ 52 + significand) % 2 ^ 52 = significand - 2 ^ 52 := by omega
    rw [unitsAt_high hdiv hmod, Nat.add_sub_cancel' hlow]
  · obtain rfl := Nat.le_antisymm hhigh hge
    have hdiv : (shift * 2 ^ 52 + 2 ^ 53) / 2 ^ 52 = shift + 1 + 1 := by omega
    have hmod : (shift * 2 ^ 52 + 2 ^ 53) % 2 ^ 52 = 0 := by omega
    have hexp : 52 + (shift + 1) = 53 + shift := by omega
    rw [unitsAt_high hdiv hmod, Nat.add_zero, ← pow_add, ← pow_add, hexp]

theorem unitsAt_lt_succ (bits : Nat) : unitsAt bits < unitsAt (bits + 1) := by
  rcases Nat.lt_or_ge bits (2 ^ 52) with hlt | hge
  · rw [unitsAt_low hlt]
    rcases Nat.lt_or_ge (bits + 1) (2 ^ 52) with hlt' | hge'
    · rw [unitsAt_low hlt']
      exact Nat.lt_succ_self bits
    · have hdiv : (bits + 1) / 2 ^ 52 = 0 + 1 := by omega
      have hmod : (bits + 1) % 2 ^ 52 = 0 := by omega
      rw [unitsAt_high hdiv hmod, Nat.add_zero, pow_zero, Nat.mul_one]
      exact hlt
  · obtain ⟨shift, significand, rfl, hlow, hhigh⟩ : ∃ shift significand : Nat,
        bits = shift * 2 ^ 52 + significand ∧ 2 ^ 52 ≤ significand ∧ significand + 1 ≤ 2 ^ 53 :=
      ⟨bits / 2 ^ 52 - 1, bits % 2 ^ 52 + 2 ^ 52, by omega, by omega, by omega⟩
    rw [unitsAt_scaled shift significand hlow (by omega), add_assoc,
      unitsAt_scaled shift (significand + 1) (by omega) hhigh]
    exact Nat.mul_lt_mul_of_pos_right (Nat.lt_succ_self _) (Nat.two_pow_pos _)

theorem unitsAt_strictMono : StrictMono unitsAt := strictMono_nat_of_lt_succ unitsAt_lt_succ

theorem unitsAt_zero : unitsAt 0 = 0 := rfl

theorem unitsPerOne_pos : 0 < unitsPerOne := by
  obtain ⟨k, -, hk⟩ := unitsPerOne_eq
  rw [hk]
  exact Nat.two_pow_pos k

def place (d : Double) : Int :=
  if d.isNegative then (if d.units = 0 then -1 else -2 * d.units) else 2 * d.units

def placeOfInt (i : Int) : Int := 2 * (i * unitsPerOne)

/-- The total order on patterns is that of their places. -/
theorem place_lt_iff (a b : Double) : a.place < b.place ↔ a.totalRank < b.totalRank := by
  have hlt : a.units < b.units ↔ a.magnitudeBits < b.magnitudeBits := by
    rw [units_eq, units_eq]
    exact unitsAt_strictMono.lt_iff_lt
  have hgt : b.units < a.units ↔ b.magnitudeBits < a.magnitudeBits := by
    rw [units_eq, units_eq]
    exact unitsAt_strictMono.lt_iff_lt
  have hzero (d : Double) : d.units = 0 ↔ d.magnitudeBits = 0 := by
    rw [units_eq, ← unitsAt_zero]
    exact unitsAt_strictMono.injective.eq_iff
  have ha := hzero a
  have hb := hzero b
  simp only [place, totalRank]
  split_ifs <;> omega

theorem totalCompare_eq (a b : Double) : a.totalCompare b = compare a.place b.place := by
  have hlt := place_lt_iff a b
  have hgt := place_lt_iff b a
  simp only [totalCompare, compare, compareOfLessAndEq]
  by_cases h : a.totalRank < b.totalRank
  · rw [if_pos h, if_pos (hlt.mpr h)]
  · rw [if_neg h, if_neg (fun h' => h (hlt.mp h'))]
    by_cases h' : a.totalRank = b.totalRank
    · rw [if_pos h', if_pos (by omega)]
    · rw [if_neg h', if_neg (by omega)]

/-- A quotient is rounded to itself or to the next number, and only up when something remains. -/
theorem roundHalfEven_eq (n d : Nat) :
    roundHalfEven n d = n / d ∨ roundHalfEven n d = n / d + 1 ∧ 0 < n % d := by
  simp only [roundHalfEven]
  cases hcompare : compare (2 * (n % d)) d with
  | lt => exact Or.inl rfl
  | gt =>
    rw [Nat.compare_eq_gt] at hcompare
    exact Or.inr ⟨rfl, by omega⟩
  | eq =>
    rw [Nat.compare_eq_eq] at hcompare
    rcases Nat.mod_two_eq_zero_or_one (n / d) with heven | hodd
    · exact Or.inl (by simp only [heven, Nat.add_zero])
    · refine Or.inr ⟨by simp only [hodd], ?_⟩
      apply Nat.pos_of_ne_zero
      intro hzero
      rw [hzero, Nat.mul_zero] at hcompare
      rw [← hcompare, Nat.div_zero] at hodd
      exact absurd hodd (by decide)

def roundedBits (n : Nat) : Nat :=
  let scaled := n * unitsPerOne
  let shift := scaled.log2 + 1 - 53
  shift * 2 ^ 52 + roundHalfEven scaled (2 ^ shift)

/-- Rounding moves a whole number to one of the two doubles beside it. -/
theorem roundedBits_faithful {n : Nat} (hn : 0 < n) :
    0 < roundedBits n ∧ unitsAt (roundedBits n - 1) < n * unitsPerOne ∧
      n * unitsPerOne < unitsAt (roundedBits n + 1) := by
  obtain ⟨k, hk, hunits⟩ := unitsPerOne_eq
  -- The scaled number has at least as many bits as a significand, so it is rounded by a shift.
  have hscaled : unitsPerOne ≤ n * unitsPerOne := Nat.le_mul_of_pos_left _ hn
  generalize hs : n * unitsPerOne = scaled at hscaled
  have hne : scaled ≠ 0 := Nat.ne_of_gt (Nat.lt_of_lt_of_le unitsPerOne_pos hscaled)
  rw [hunits] at hscaled
  have hlog : k ≤ scaled.log2 := (Nat.le_log2 hne).mpr hscaled
  obtain ⟨shift, hshift⟩ : ∃ shift, scaled.log2 = shift + 52 := ⟨scaled.log2 - 52, by omega⟩
  have hlow : 2 ^ 52 * 2 ^ shift ≤ scaled := by
    rw [← pow_add, add_comm, ← hshift]
    exact Nat.log2_self_le hne
  have hhigh : scaled < 2 ^ 53 * 2 ^ shift := by
    have hexp : 53 + shift = scaled.log2 + 1 := by omega
    rw [← pow_add, hexp]
    exact Nat.lt_log2_self
  have hbits : roundedBits n = shift * 2 ^ 52 + roundHalfEven scaled (2 ^ shift) := by
    have hexp : scaled.log2 + 1 - 53 = shift := by omega
    simp only [roundedBits, hs, hexp]
  have hqlow : 2 ^ 52 ≤ scaled / 2 ^ shift := (Nat.le_div_iff_mul_le (Nat.two_pow_pos _)).mpr hlow
  have hqhigh : scaled / 2 ^ shift < 2 ^ 53 := (Nat.div_lt_iff_lt_mul (Nat.two_pow_pos _)).mpr hhigh
  have hmod := Nat.mod_lt scaled (Nat.two_pow_pos shift)
  have hsplit := Nat.div_add_mod scaled (2 ^ shift)
  have hround := roundHalfEven_eq scaled (2 ^ shift)
  generalize scaled / 2 ^ shift = q at *
  rw [mul_comm] at hsplit
  have hunits := unitsAt_scaled shift q hqlow hqhigh.le
  have hnext := unitsAt_scaled shift (q + 1) (by omega) hqhigh
  have hstep := unitsAt_lt_succ (shift * 2 ^ 52 + q)
  have hstep' := unitsAt_lt_succ (shift * 2 ^ 52 + (q + 1))
  rw [Nat.succ_mul] at hnext
  rw [hbits]
  rcases hround with hround | ⟨hround, hrest⟩
  · -- Rounded down: the number lies from here up to the next pattern.
    rw [hround]
    have hpred := unitsAt_lt_succ (shift * 2 ^ 52 + q - 1)
    have hback : shift * 2 ^ 52 + q - 1 + 1 = shift * 2 ^ 52 + q := by omega
    rw [hback] at hpred
    rw [add_assoc]
    exact ⟨by omega, by omega, by omega⟩
  · -- Rounded up, and something remained: the number lies above the pattern before.
    rw [hround]
    have hback : shift * 2 ^ 52 + (q + 1) - 1 = shift * 2 ^ 52 + q := by omega
    rw [hback]
    exact ⟨by omega, by omega, by omega⟩

/-- A whole number lies on the same side of every other double as the double it is rounded to. -/
theorem roundedBits_near (n bits : Nat) :
    (unitsAt (roundedBits n) < unitsAt bits → n * unitsPerOne < unitsAt bits) ∧
      (unitsAt bits < unitsAt (roundedBits n) → unitsAt bits < n * unitsPerOne) := by
  rcases Nat.eq_zero_or_pos n with rfl | hn
  · have hzero : roundedBits 0 = 0 := by
      simp only [roundedBits, Nat.zero_mul]
      rfl
    rw [hzero, unitsAt_zero, Nat.zero_mul]
    exact ⟨id, id⟩
  · obtain ⟨-, hbelow, habove⟩ := roundedBits_faithful hn
    constructor
    · intro h
      have hbits := unitsAt_strictMono.lt_iff_lt.mp h
      exact lt_of_lt_of_le habove (unitsAt_strictMono.monotone hbits)
    · intro h
      have hbits := unitsAt_strictMono.lt_iff_lt.mp h
      exact lt_of_le_of_lt (unitsAt_strictMono.monotone (by omega)) hbelow

theorem roundedBits_lt {n : Nat} (hn : n ≤ 2 ^ 63) : roundedBits n < infinityBits := by
  obtain ⟨k, hk, hunits⟩ := unitsPerOne_eq
  -- In units the number has at most `64 + k` bits, so the exponent stays below that of infinity.
  have hscaled : n * unitsPerOne < 2 ^ (64 + k) := by
    calc n * unitsPerOne ≤ 2 ^ 63 * unitsPerOne := Nat.mul_le_mul_right _ hn
      _ < 2 ^ 64 * unitsPerOne := Nat.mul_lt_mul_of_pos_right (by decide) unitsPerOne_pos
      _ = 2 ^ (64 + k) := by rw [hunits, pow_add]
  simp only [roundedBits]
  generalize n * unitsPerOne = scaled at hscaled
  have hlog : scaled.log2 < 64 + k := by
    rcases Nat.eq_zero_or_pos scaled with rfl | hpos
    · rw [Nat.log2_zero]
      omega
    · exact (Nat.log2_lt hpos.ne').mpr hscaled
  have hquotient : scaled / 2 ^ (scaled.log2 + 1 - 53) < 2 ^ 53 := by
    rw [Nat.div_lt_iff_lt_mul (Nat.two_pow_pos _), ← pow_add]
    exact lt_of_lt_of_le Nat.lt_log2_self (Nat.pow_le_pow_right Nat.two_pos (by omega))
  have hround := roundHalfEven_eq scaled (2 ^ (scaled.log2 + 1 - 53))
  have hshift : scaled.log2 + 1 - 53 ≤ 1085 := by omega
  generalize scaled.log2 + 1 - 53 = shift at *
  have hsum : shift * 2 ^ 52 ≤ 1085 * 2 ^ 52 := Nat.mul_le_mul_right _ hshift
  rw [infinityBits_eq]
  rcases hround with hround | ⟨hround, -⟩ <;> omega

theorem bits_ofParts (negative : Bool) {bits : Nat} (h : bits < 2 ^ 63) :
    (ofParts negative bits).bits.toNat = if negative then 2 ^ 63 + bits else bits := by
  apply UInt64.toNat_ofNat_of_lt'
  simp only [UInt64.size]
  split <;> omega

theorem ofInt_eq (i : Int64) :
    ofInt i.toInt = ofParts (i.toInt < 0) (roundedBits i.toInt.natAbs) := by
  have hlow := Int64.le_toInt i
  have hhigh := Int64.toInt_lt i
  have hlt := roundedBits_lt (n := i.toInt.natAbs) (by omega)
  simp only [roundedBits] at hlt
  simp only [ofInt, ofRatio, Nat.div_one, Nat.shiftLeft_eq, Nat.one_mul, roundedBits,
    min_eq_left hlt.le]

/-- The place of an integer against that of a double, from that of the rounded integer. -/
theorem place_of_rounded (i : Int64) (d : Double) :
    ((ofInt i.toInt).place < d.place → placeOfInt i.toInt < d.place) ∧
    (d.place < (ofInt i.toInt).place → d.place < placeOfInt i.toInt) ∧
    ((ofInt i.toInt).place = d.place → d.place = 2 * d.signedUnits) := by
  have hlow := Int64.le_toInt i
  have hhigh := Int64.toInt_lt i
  have hlt := roundedBits_lt (n := i.toInt.natAbs) (by omega)
  have hnear := roundedBits_near i.toInt.natAbs d.magnitudeBits
  have hbound : roundedBits i.toInt.natAbs < 2 ^ 63 := lt_of_lt_of_le hlt (by decide)
  have hbits := bits_ofParts (decide (i.toInt < 0)) hbound
  rw [← ofInt_eq] at hbits
  have hmagnitude : (ofInt i.toInt).magnitudeBits = roundedBits i.toInt.natAbs := by
    rw [magnitudeBits_eq, hbits]
    rw [infinityBits_eq] at hlt
    split <;> omega
  have hnegative : (ofInt i.toInt).isNegative = decide (i.toInt < 0) := by
    rw [isNegative_eq, hbits]
    rw [infinityBits_eq] at hlt
    by_cases hi : i.toInt < 0
    · simp [hi]
    · simp only [hi, decide_false]
      simp
      omega
  have hunits : (ofInt i.toInt).units = unitsAt (roundedBits i.toInt.natAbs) := by
    rw [units_eq, hmagnitude]
  rw [← hunits, ← units_eq] at hnear
  -- A negative integer is not rounded to a zero, whose place would be that of the other zero.
  have hsize : i.toInt < 0 → 0 < (ofInt i.toInt).units ∧ 0 < i.toInt.natAbs * unitsPerOne := by
    intro hi
    have hpos : 0 < i.toInt.natAbs := by omega
    have hbits := (roundedBits_faithful hpos).1
    rw [hunits]
    exact ⟨unitsAt_zero ▸ unitsAt_strictMono hbits, Nat.mul_pos hpos unitsPerOne_pos⟩
  have hproduct : i.toInt * (unitsPerOne : Int) =
      if i.toInt < 0 then -((i.toInt.natAbs * unitsPerOne : Nat) : Int)
      else ((i.toInt.natAbs * unitsPerOne : Nat) : Int) := by
    split_ifs with hi
    · rw [Nat.cast_mul, Int.ofNat_natAbs_of_nonpos (le_of_lt hi), neg_mul, neg_neg]
    · rw [Nat.cast_mul, Int.natAbs_of_nonneg (by omega)]
  -- What is left are sizes and signs: rounding never crosses another double.
  simp only [place, placeOfInt, signedUnits, hnegative, hproduct, decide_eq_true_eq]
  generalize i.toInt.natAbs * unitsPerOne = size at *
  by_cases hi : i.toInt < 0
  · have hpos := hsize hi
    simp only [hi, if_true]
    split_ifs <;> omega
  · simp only [hi, if_false]
    split_ifs <;> omega

theorem compare_two_mul (a b : Int) : compare (2 * a) (2 * b) = compare a b := by
  have hlt : 2 * a < 2 * b ↔ a < b := by omega
  have heq : 2 * a = 2 * b ↔ a = b := by omega
  simp only [compare, compareOfLessAndEq, hlt, heq]

theorem compareInt_eq (i : Int64) (d : Double) :
    compareInt i d = compare (placeOfInt i.toInt) d.place := by
  obtain ⟨hlt, hgt, heq⟩ := place_of_rounded i d
  rw [compareInt, totalCompare_eq]
  cases hcompare : compare (ofInt i.toInt).place d.place with
  | lt =>
    rw [Int.compare_eq_lt] at hcompare
    exact (Int.compare_eq_lt.mpr (hlt hcompare)).symm
  | gt =>
    rw [Int.compare_eq_gt] at hcompare
    exact (Int.compare_eq_gt.mpr (hgt hcompare)).symm
  | eq =>
    rw [Int.compare_eq_eq] at hcompare
    rw [heq hcompare, placeOfInt, Ordering.eq_then]
    exact (compare_two_mul _ _).symm

end Double

end VersionedIndex
