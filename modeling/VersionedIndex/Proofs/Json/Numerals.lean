import Mathlib.Data.Option.Basic
import VersionedIndex.Json.Numeral

namespace VersionedIndex.Json.Numeral

/-- The parts of a numeral are in order: there is a digit before the point, and a zero there stands
alone; an exponent has a digit. -/
structure Proper (n : Numeral) : Prop where
  whole_ne_nil : n.whole ≠ []
  whole : ∀ c ∈ n.whole, c.isDigit = true
  leading : n.whole.length = 1 ∨ n.whole.head? ≠ some '0'
  fraction : ∀ c ∈ n.fraction, c.isDigit = true
  exponent_ne_nil : ∀ e ∈ n.exponent, e.2 ≠ []
  exponent : ∀ e ∈ n.exponent, ∀ c ∈ e.2, c.isDigit = true

def NoDigit (cs : List Char) : Prop := ∀ c ∈ cs.head?, c.isDigit = false

def Ends (cs : List Char) : Prop := ∀ c ∈ cs.head?, c.isDigit = false ∧ c ≠ '.' ∧ c ≠ 'e' ∧ c ≠ 'E'

variable {n : Numeral} {digits rest : List Char}

theorem Ends.noDigit (h : Ends rest) : NoDigit rest := fun c hc => (h c hc).1

theorem noDigit_cons {c : Char} (h : c.isDigit = false) : NoDigit (c :: rest) := by
  rintro c' ⟨⟩
  exact h

/-- Digits are read up to the first character that is none. -/
theorem scanDigits_append (hne : digits ≠ []) (hdigits : ∀ c ∈ digits, c.isDigit = true)
    (hrest : NoDigit rest) : scanDigits (digits ++ rest) = some (digits, rest) := by
  have hstop : rest.takeWhile Char.isDigit = [] ∧ rest.dropWhile Char.isDigit = rest := by
    cases rest with
    | nil => exact ⟨rfl, rfl⟩
    | cons c rest =>
      have hc : ¬ c.isDigit = true := Bool.eq_false_iff.mp (hrest c rfl)
      exact ⟨List.takeWhile_cons_of_neg hc, List.dropWhile_cons_of_neg hc⟩
  rw [scanDigits, List.takeWhile_append_of_pos hdigits, List.dropWhile_append_of_pos hdigits,
    hstop.1, hstop.2, List.append_nil]
  cases digits with
  | nil => exact absurd rfl hne
  | cons c digits => rfl

def fractionText (n : Numeral) : List Char := if n.fraction.isEmpty then [] else '.' :: n.fraction

def exponentText (n : Numeral) : List Char :=
  match n.exponent with
  | none => []
  | some (negative, digits) => 'e' :: (if negative then '-' else '+') :: digits

theorem render_append (n : Numeral) (rest : List Char) :
    n.render ++ rest = (if n.negative then ['-'] else []) ++
      (n.whole ++ (n.fractionText ++ (n.exponentText ++ rest))) := by
  rw [← List.append_assoc n.fractionText, ← List.append_assoc n.whole, ← List.append_assoc,
    ← List.append_assoc, ← List.append_assoc]
  rfl

theorem scanExponent_append (h : n.Proper) (hrest : Ends rest) :
    scanExponent (n.exponentText ++ rest) = some (n.exponent, rest) := by
  cases hexponent : n.exponent with
  | none =>
    rw [exponentText, hexponent, List.nil_append]
    cases rest with
    | nil => rfl
    | cons c rest =>
      obtain ⟨-, -, he, hE⟩ := hrest c rfl
      rw [scanExponent, if_neg (not_or.mpr ⟨he, hE⟩)]
  | some e =>
    obtain ⟨negative, digits⟩ := e
    have hdigits := scanDigits_append (h.exponent_ne_nil _ hexponent) (h.exponent _ hexponent)
      hrest.noDigit
    rw [exponentText, hexponent, List.cons_append, List.cons_append, scanExponent,
      if_pos (Or.inl rfl)]
    cases negative <;> simp [scanSign, hdigits]

/-- Neither a fraction nor a digit comes next where the exponent is due. -/
theorem exponentText_head (hrest : Ends rest) :
    ∀ c ∈ (n.exponentText ++ rest).head?, c.isDigit = false ∧ c ≠ '.' := by
  rw [exponentText]
  split
  · exact fun c hc => ⟨(hrest c hc).1, (hrest c hc).2.1⟩
  · rintro c ⟨⟩
    decide

theorem scanFraction_append (h : n.Proper) (hrest : Ends rest) :
    scanFraction (n.fractionText ++ (n.exponentText ++ rest)) =
      some (n.fraction, n.exponentText ++ rest) := by
  have hhead := exponentText_head (n := n) hrest
  generalize n.exponentText ++ rest = cs at hhead ⊢
  rw [fractionText]
  split
  · next hempty =>
    rw [List.isEmpty_iff.mp hempty, List.nil_append]
    cases cs with
    | nil => rfl
    | cons c cs =>
      rw [scanFraction]
      rintro cs' ⟨⟩
      exact (hhead '.' rfl).2 rfl
  · next hempty =>
    rw [List.cons_append, scanFraction]
    exact scanDigits_append (mt List.isEmpty_iff.mpr hempty) h.fraction fun c hc => (hhead c hc).1

/-- The digits before the point end at a point, at an exponent or with the numeral. -/
theorem fractionText_head (hrest : Ends rest) :
    NoDigit (n.fractionText ++ (n.exponentText ++ rest)) := by
  rw [fractionText]
  split
  · exact fun c hc => (exponentText_head hrest c hc).1
  · exact noDigit_cons (by decide)

/-- A numeral that nothing continues is read as it was written. -/
theorem scan_render (h : n.Proper) (hrest : Ends rest) : scan (n.render ++ rest) = some (n, rest) := by
  have hwhole := scanDigits_append h.whole_ne_nil h.whole (fractionText_head (n := n) hrest)
  have hfraction := scanFraction_append h hrest
  have hexponent := scanExponent_append h hrest
  have hleading : (guard (n.whole.length = 1 ∨ n.whole.head? ≠ some '0') : Option Unit) = some () :=
    if_pos h.leading
  rw [render_append]
  cases hnegative : n.negative with
  | true =>
    simp only [scan, if_true, List.singleton_append, hwhole, hfraction, hexponent, hleading,
      Option.bind_eq_bind, Option.bind_some, ← hnegative]
    rfl
  | false =>
    simp only [scan, Bool.false_eq_true, if_false, List.nil_append]
    split
    · next cs hcs =>
      obtain ⟨c, whole, hc⟩ := List.exists_cons_of_ne_nil h.whole_ne_nil
      rw [hc, List.cons_append] at hcs
      obtain rfl := (List.cons.inj hcs).1
      exact absurd (h.whole '-' (hc ▸ List.mem_cons_self)) (by decide)
    · simp only [hwhole, hfraction, hexponent, hleading, Option.bind_eq_bind, Option.bind_some,
        ← hnegative]
      rfl

/-- The numeral of a positive number has no zero in front. -/
theorem head_toDigits_ne_zero {n : Nat} (hn : 0 < n) : (Nat.toDigits 10 n).head? ≠ some '0' := by
  induction n using Nat.strongRecOn with
  | _ n ih =>
    rw [Nat.toDigits_eq_if (by decide)]
    split
    · intro hzero
      exact Nat.ne_of_gt hn (Nat.digitChar_eq_zero.mp (Option.some.inj hzero))
    · next hlarge =>
      rw [List.head?_append, List.head?_eq_some_head Nat.toDigits_ne_nil, Option.some_or,
        ← List.head?_eq_some_head]
      exact ih (n / 10) (by omega) (by omega)

theorem ofInt_proper (i : Int) : (ofInt i).Proper where
  whole_ne_nil := Nat.toDigits_ne_nil
  whole _ hc := Nat.isDigit_of_mem_toDigits (by decide) (Nat.le_refl 10) hc
  leading := by
    rcases Nat.eq_zero_or_pos i.natAbs with hzero | hpos
    · exact Or.inl (by rw [ofInt, hzero]; rfl)
    · exact Or.inr (head_toDigits_ne_zero hpos)
  fraction := nofun
  exponent_ne_nil := nofun
  exponent := nofun

/-- The numeral of an integer stands for that integer, as far as integers go. -/
theorem toInt_ofInt {i : Int} (hlow : -((1 <<< 63 : Nat) : Int) ≤ i) (hhigh : i < UInt64.size) :
    (ofInt i).toInt? = some i := by
  have hvalue : Nat.ofDigitChars 10 (ofInt i).whole 0 = i.natAbs := Nat.ofDigitChars_ten_toDigits
  have hplain : (!(ofInt i).fraction.isEmpty || (ofInt i).exponent.isSome) = false := rfl
  simp only [toInt?, hplain, hvalue, Bool.false_eq_true, if_false]
  change (if decide (i < 0) = true then _ else _) = _
  by_cases hneg : i < 0
  · have hbounds : 1 ≤ i.natAbs ∧ i.natAbs ≤ 1 <<< 63 := by omega
    rw [if_pos (decide_eq_true hneg), if_pos hbounds]
    exact congrArg some (by omega)
  · have hbound : i.natAbs < UInt64.size := by omega
    rw [if_neg (mt of_decide_eq_true hneg), if_pos hbound]
    exact congrArg some (by omega)

end VersionedIndex.Json.Numeral
