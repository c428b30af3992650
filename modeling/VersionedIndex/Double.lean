/-! Double-precision numbers as 64-bit patterns, so that every NaN and both zeros stay apart.
Magnitudes are whole numbers of units of `2 ^ (-1074)`, the smallest positive double. -/

namespace VersionedIndex

structure Double where
  bits : UInt64
deriving DecidableEq, Repr

namespace Double

def unitsPerOne : Nat := 1 <<< 1074

def magnitudeBits (d : Double) : Nat := d.bits.toNat % (1 <<< 63)

def isNegative (d : Double) : Bool := 1 <<< 63 ≤ d.bits.toNat

def infinityBits : Nat := 2047 <<< 52

def ofParts (negative : Bool) (magnitude : Nat) : Double :=
  ⟨UInt64.ofNat (if negative then (1 <<< 63) + magnitude else magnitude)⟩

def isNaN (d : Double) : Bool := infinityBits < d.magnitudeBits

def isFinite (d : Double) : Bool := d.magnitudeBits < infinityBits

def isZero (d : Double) : Bool := d.magnitudeBits == 0

def negate (d : Double) : Double := ofParts (!d.isNegative) d.magnitudeBits

/-- The magnitude of a finite double, in units of the smallest positive one. Below `2 ^ 52` the
fraction counts units itself; above, the exponent scales a significand with its leading bit set. -/
def units (d : Double) : Nat :=
  let fraction := d.magnitudeBits % (1 <<< 52)
  match d.magnitudeBits / (1 <<< 52) with
  | 0 => fraction
  | exponent + 1 => ((1 <<< 52) + fraction) <<< exponent

def signedUnits (d : Double) : Int := if d.isNegative then -(d.units : Int) else d.units

def sameNumber (a b : Double) : Bool :=
  !a.isNaN && !b.isNaN && (a.bits == b.bits || (a.isZero && b.isZero))

/-- The place of a pattern in the total order: negative patterns run backward below the positive
ones, so negative NaNs come first, `-0.0` comes right before `0.0`, and positive NaNs come last. -/
def totalRank (d : Double) : Int :=
  if d.isNegative then -1 - (d.magnitudeBits : Int) else d.magnitudeBits

def totalCompare (a b : Double) : Ordering := compare a.totalRank b.totalRank

end Double

end VersionedIndex
