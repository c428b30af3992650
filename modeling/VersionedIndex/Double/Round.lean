import VersionedIndex.Double

namespace VersionedIndex

def roundHalfEven (n d : Nat) : Nat :=
  let q := n / d
  match compare (2 * (n % d)) d with
  | .lt => q
  | .eq => q + q % 2
  | .gt => q + 1

namespace Double

/-- The double nearest to `numerator / denominator`, with the given sign. The significand holds 53
bits, fewer below `2 ^ 53` units; what exceeds the largest finite double becomes an infinity.
A significand that rounds up to `2 ^ 53` carries into the exponent bits. -/
def ofRatio (negative : Bool) (numerator denominator : Nat) : Double :=
  let scaled := numerator * unitsPerOne
  let shift := (scaled / denominator).log2 + 1 - 53
  let significand := roundHalfEven scaled (denominator <<< shift)
  ofParts negative (min ((shift <<< 52) + significand) infinityBits)

def ofInt (i : Int) : Double := ofRatio (i < 0) i.natAbs 1

def mul (a b : Double) : Double :=
  ofRatio (a.isNegative != b.isNegative) (a.units * b.units) (unitsPerOne * unitsPerOne)

def div (a b : Double) : Double :=
  ofRatio (a.isNegative != b.isNegative) a.units b.units

def tenPow (k : Nat) : Double := ofRatio false (Nat.pow 10 k) 1

end Double

end VersionedIndex
