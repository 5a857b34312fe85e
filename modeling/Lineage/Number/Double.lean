/-
Binary floating-point numbers of 64 bits, held exactly.

Every finite double is a whole number of units of `2^-1074`, the least positive
one, so a finite value is an `Int` and order, equality and integrality are
integer arithmetic.  Rounding happens in one place, `Double.ofUnits`, which every
operation that can leave the grid goes through.
-/

namespace Lineage

/-- The count of units of `2^-1074` in the number one. -/
def unitsPerOne : Nat := Nat.pow 2 1074

/-- A double: not a number, an infinity, minus zero, or a count of units of
`2^-1074`.  The two zeros differ only in print. -/
inductive Double where
  | nan
  | infinite (negative : Bool)
  | negZero
  | units (count : Int)
  deriving DecidableEq

namespace Double

/-- The quotient nearest to `n / d`; a tie goes to the even neighbour. -/
def roundDiv (n d : Nat) : Nat :=
  let q := n / d
  let r := n % d
  if 2 * r < d then q
  else if 2 * r > d then q + 1
  else if q % 2 = 0 then q else q + 1

/-- How many bits `n` takes: none for zero. -/
def bitLength (n : Nat) : Nat := if n = 0 then 0 else n.log2 + 1

/-- A magnitude in units with its sign.  The largest finite double has 2098 bits
of units; what rounds above it is infinite. -/
def ofMagnitude (negative : Bool) (count : Nat) : Double :=
  if count = 0 then (if negative then negZero else units 0)
  else if bitLength count > 2098 then infinite negative
  else units (if negative then -(count : Int) else count)

/-- The double nearest to `±(num / den)` units.  Doubles have 53 significant bits
and no finer step than one unit, so the step is `2^(bits - 53)`. -/
def ofUnits (negative : Bool) (num den : Nat) : Double :=
  let shift := bitLength (num / den) - 53
  ofMagnitude negative (roundDiv num (den * Nat.pow 2 shift) * Nat.pow 2 shift)

/-- The double nearest to `±(num / den)`. -/
def ofRatio (negative : Bool) (num den : Nat) : Double :=
  ofUnits negative (num * unitsPerOne) den

/-- A double, or nothing for an infinity. -/
def bounded? : Double → Option Double
  | infinite _ => none
  | d => some d

/-- The double nearest to an integer, or nothing when that would be infinite. -/
def ofInt? (n : Int) : Option Double := (ofUnits (n < 0) (n.natAbs * unitsPerOne) 1).bounded?

/-- The double nearest to `±(digits · 10^exponent)`.  Exponents far outside the
range are decided by the count of digits, so no huge power is computed. -/
def ofDecimal (negative : Bool) (digits : Nat) (exponent : Int) : Double :=
  let size : Int := (Nat.toDigits 10 digits).length
  if digits = 0 then ofMagnitude negative 0
  else if size + exponent > 400 then infinite negative
  else if size + exponent < -400 then ofMagnitude negative 0
  else if exponent ≥ 0 then ofRatio negative (digits * Nat.pow 10 exponent.toNat) 1
  else ofRatio negative digits (Nat.pow 10 (-exponent).toNat)

/-- Where a double stands in the order: the side (`-1` and `1` for the
infinities) and the units.  NaN stands nowhere. -/
def position : Double → Option (Int × Int)
  | nan => none
  | infinite negative => some (if negative then -1 else 1, 0)
  | negZero => some (0, 0)
  | units k => some (0, k)

def isFinite : Double → Bool
  | nan | infinite _ => false
  | negZero | units _ => true

/-- Whether a double is a whole number; no infinity is. -/
def isIntegral : Double → Bool
  | nan | infinite _ => false
  | negZero => true
  | units k => k % unitsPerOne = 0

/-- Rounded sum.  Exact cancellation gives plus zero; minus zero survives only
beside itself. -/
def add : Double → Double → Double
  | nan, _ => nan
  | _, nan => nan
  | infinite a, infinite b => if a = b then infinite a else nan
  | infinite a, _ => infinite a
  | _, infinite b => infinite b
  | negZero, b => b
  | a, negZero => a
  | units a, units b => ofUnits (a + b < 0) (a + b).natAbs 1

/-- Opposite sign. -/
def neg : Double → Double
  | nan => nan
  | infinite negative => infinite (!negative)
  | negZero => units 0
  | units k => if k = 0 then negZero else units (-k)

/-- Rounded product with a fraction, which is a count of steps of `2^-53`.  An infinity
times nothing is no number. -/
def scaled (fraction : Nat) : Double → Double
  | nan => nan
  | infinite negative => if fraction = 0 then nan else infinite negative
  | negZero => negZero
  | units k => ofUnits (k < 0) (k.natAbs * fraction) (Nat.pow 2 53)

/-- The greatest integer not above a finite double. -/
def floor? : Double → Option Int
  | nan | infinite _ => none
  | negZero => some 0
  | units k => some (k.fdiv unitsPerOne)

/-- The least integer not below a finite double. -/
def ceil? (d : Double) : Option Int := d.neg.floor?.map fun n => -n

/-- The double nearest to the value rounded to `places` decimals, ties to even. -/
def roundPlaces (places : Nat) : Double → Double
  | nan => nan
  | infinite negative => infinite negative
  | negZero => negZero
  | units k =>
    ofRatio (k < 0) (roundDiv (k.natAbs * Nat.pow 10 places) unitsPerOne) (Nat.pow 10 places)

end Double
end Lineage
