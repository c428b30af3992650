import VersionedIndex.Double.Round

namespace VersionedIndex

structure Decimal where
  digits : Nat
  exponent : Int
deriving DecidableEq, Repr

namespace Decimal

def numerator (d : Decimal) : Nat := d.digits * Nat.pow 10 d.exponent.toNat

def denominator (d : Decimal) : Nat := Nat.pow 10 (-d.exponent).toNat

def toDouble (d : Decimal) : Double := Double.ofRatio false d.numerator d.denominator

def trim : Nat → Decimal → Decimal
  | 0, d => d
  | limit + 1, d =>
    if d.digits % 10 = 0 then trim limit ⟨d.digits / 10, d.exponent + 1⟩ else d

end Decimal

namespace Double

def smallestExponent : Nat := 324

def maxDigits : Nat := 17

def leadingExponent (d : Double) : Int :=
  (Nat.toDigits 10 (d.units * Nat.pow 10 smallestExponent / unitsPerOne)).length - 1 - smallestExponent

def nearby (d : Double) (exponent : Int) : List Decimal :=
  let numerator := d.units * Nat.pow 10 (-exponent).toNat
  let denominator := unitsPerOne * Nat.pow 10 exponent.toNat
  let below := numerator / denominator
  [roundHalfEven numerator denominator, below, below + 1].map (⟨·, exponent⟩)

/-- The shortest decimal that reads back as the magnitude of a finite double, not zero. -/
def shortest (d : Double) : Decimal :=
  let readsBack := fun c : Decimal => c.toDouble.magnitudeBits == d.magnitudeBits
  let found := (List.range maxDigits).findSome? fun n : Nat =>
    (d.nearby (d.leadingExponent - n)).find? readsBack
  (found.getD ⟨d.units, 0⟩).trim maxDigits

end Double

end VersionedIndex
