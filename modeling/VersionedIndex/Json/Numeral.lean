import VersionedIndex.Double.Shortest

namespace VersionedIndex.Json

structure Numeral where
  negative : Bool := false
  whole : List Char
  fraction : List Char := []
  exponent : Option (Bool × List Char) := none
deriving DecidableEq, Repr

namespace Numeral

def render (n : Numeral) : List Char :=
  (if n.negative then ['-'] else []) ++ n.whole ++
    (if n.fraction.isEmpty then [] else '.' :: n.fraction) ++
    match n.exponent with
    | none => []
    | some (negative, digits) => 'e' :: (if negative then '-' else '+') :: digits

def scanDigits (cs : List Char) : Option (List Char × List Char) :=
  match cs.takeWhile Char.isDigit with
  | [] => none
  | digits => some (digits, cs.dropWhile Char.isDigit)

def scanFraction : List Char → Option (List Char × List Char)
  | '.' :: cs => scanDigits cs
  | cs => some ([], cs)

def scanSign : List Char → Bool × List Char
  | '+' :: cs => (false, cs)
  | '-' :: cs => (true, cs)
  | cs => (false, cs)

def scanExponent : List Char → Option (Option (Bool × List Char) × List Char)
  | c :: cs =>
    if c = 'e' ∨ c = 'E' then do
      let (negative, cs) := scanSign cs
      let (digits, cs) ← scanDigits cs
      return (some (negative, digits), cs)
    else some (none, c :: cs)
  | [] => some (none, [])

def scan (cs : List Char) : Option (Numeral × List Char) := do
  let (negative, cs) := match cs with
    | '-' :: cs => (true, cs)
    | cs => (false, cs)
  let (whole, cs) ← scanDigits cs
  guard (whole.length = 1 ∨ whole.head? ≠ some '0')
  let (fraction, cs) ← scanFraction cs
  let (exponent, cs) ← scanExponent cs
  return ({ negative, whole, fraction, exponent }, cs)

def ofInt (i : Int) : Numeral := { negative := i < 0, whole := Nat.toDigits 10 i.natAbs }

def toInt? (n : Numeral) : Option Int :=
  if !n.fraction.isEmpty || n.exponent.isSome then none
  else
    let magnitude := Nat.ofDigitChars 10 n.whole 0
    if n.negative then
      if 1 ≤ magnitude ∧ magnitude ≤ 1 <<< 63 then some (-magnitude) else none
    else
      if magnitude < UInt64.size then some magnitude else none

def accumulate (significand : Nat) : List Char → Nat × Nat
  | [] => (significand, 0)
  | c :: cs =>
    let next := significand * 10 + (c.toNat - 48)
    if next < UInt64.size then accumulate next cs else (significand, cs.length + 1)

def exponentValue (n : Numeral) : Int :=
  match n.exponent with
  | none => 0
  | some (negative, digits) =>
    let magnitude : Int := Nat.ofDigitChars 10 digits 0
    if negative then -magnitude else magnitude

def maxTenPow : Nat := 308

/-- A double times a power of ten, or none beyond the largest double. An exponent below the range of
doubles takes several divisions, which end at zero. -/
def scale (f : Double) (exponent : Int) : Option Double :=
  if exponent.natAbs ≤ maxTenPow then
    if 0 ≤ exponent then
      let r := f.mul (.tenPow exponent.natAbs)
      if r.isFinite then some r else none
    else some (f.div (.tenPow exponent.natAbs))
  else if f.isZero then some f
  else if 0 ≤ exponent then none
  else scale (f.div (.tenPow maxTenPow)) (exponent + maxTenPow)
termination_by (-exponent).toNat
decreasing_by
  simp only [maxTenPow] at *
  omega

/-- The double that a numeral stands for, or none beyond the largest double. Digits before the
point that no longer fit scale the significand; digits after it that no longer fit are dropped. -/
def toDouble? (n : Numeral) : Option Double :=
  match n.toInt? with
  | some i => some (.ofInt i)
  | none => do
    let (significand, dropped) := accumulate 0 n.whole
    let (significand, unread) := accumulate significand n.fraction
    let exponent : Int := dropped - (n.fraction.length - unread : Nat) + n.exponentValue
    let f ← scale (.ofInt significand) exponent
    return if n.negative then f.negate else f

def maxWholeDigits : Int := 16

def maxLeadingZeros : Int := 4

def ofDecimal (negative : Bool) (d : Decimal) : Numeral :=
  let digits := Nat.toDigits 10 d.digits
  let place := d.exponent + digits.length
  if 0 < place ∧ place ≤ maxWholeDigits then
    let whole := digits.take place.toNat ++ List.replicate d.exponent.toNat '0'
    let fraction := digits.drop place.toNat
    { negative, whole, fraction := if fraction.isEmpty then ['0'] else fraction }
  else if -maxLeadingZeros ≤ place ∧ place ≤ 0 then
    { negative, whole := ['0'], fraction := List.replicate (-place).toNat '0' ++ digits }
  else
    { negative
      whole := digits.take 1
      fraction := digits.drop 1
      exponent := some (place - 1 < 0, Nat.toDigits 10 (place - 1).natAbs) }

def ofDouble (d : Double) : Numeral :=
  if d.isZero then { negative := d.isNegative, whole := ['0'], fraction := ['0'] }
  else ofDecimal d.isNegative d.shortest

end Numeral

end VersionedIndex.Json
