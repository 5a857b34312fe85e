import Lineage.Number.Double

/-
The text of a double: the fewest digits that read back as the same double, and
of those the nearest to it.

A double stands for every real that rounds to it.  On the grid of numbers with
`n` significant digits, if any point lies in that interval then one of the two
neighbours of the value does, so trying `n = 1, 2, …` and looking at those two
finds the fewest digits.  All comparisons are between natural numbers.
-/

namespace Lineage
namespace Double

/-- A positive double as an interval of reals: `value` with the ends `low` and
`high` of what rounds to it, all as multiples of `scaleNum / scaleDen`. -/
structure Span where
  value : Nat
  low : Nat
  high : Nat
  closed : Bool
  scaleNum : Nat
  scaleDen : Nat

namespace Span

/-- The interval of `count` units, in quarters of the last bit.  Below a power of
two the gap is half as wide; the ends belong to the interval when the last bit is
even. -/
def ofUnits (count : Nat) : Span :=
  let shift := bitLength count - 53
  let m := count / Nat.pow 2 shift
  let narrow := decide (m = Nat.pow 2 52) && decide (shift > 0)
  { value := 4 * m, low := if narrow then 4 * m - 1 else 4 * m - 2, high := 4 * m + 2,
    closed := m % 2 = 0, scaleNum := Nat.pow 2 shift, scaleDen := 4 * unitsPerOne }

/-- Whether the decimal `c · 10^e` lies in the interval. -/
def holds (s : Span) (c : Nat) (e : Int) : Bool :=
  let mid := c * Nat.pow 10 e.toNat * s.scaleDen
  let unit := s.scaleNum * Nat.pow 10 (-e).toNat
  if s.closed then decide (s.low * unit ≤ mid) && decide (mid ≤ s.high * unit)
  else decide (s.low * unit < mid) && decide (mid < s.high * unit)

/-- Whether the value is at least `10^e`. -/
def atLeast (s : Span) (e : Int) : Bool :=
  decide (Nat.pow 10 e.toNat * s.scaleDen ≤ s.value * s.scaleNum * Nat.pow 10 (-e).toNat)

/-- The exponent `e` with `10^e ≤ value < 10^(e+1)`: an estimate from the count
of bits, put right by comparison. -/
def exponent (s : Span) : Int :=
  let bits : Int := (s.value * s.scaleNum).log2 - s.scaleDen.log2
  let e := (bits * 30103).fdiv 100000
  if !s.atLeast e then e - 1
  else if s.atLeast (e + 1) then e + 1
  else e

/-- The value divided by `10^e`, rounded down, and whether the upper neighbour is
nearer; a tie goes to the even one. -/
def below (s : Span) (e : Int) : Nat × Bool :=
  let num := s.value * s.scaleNum * Nat.pow 10 (-e).toNat
  let den := s.scaleDen * Nat.pow 10 e.toNat
  (num / den, decide (2 * (num % den) > den) ||
    (decide (2 * (num % den) = den) && decide (num / den % 2 = 1)))

/-- The first grid with a neighbour in the interval, among those with up to
`fuel` further digits. -/
def search (s : Span) (e : Int) : Nat → Nat × Int
  | 0 => ((s.below e).1, e)
  | fuel + 1 =>
    let (c, upper) := s.below e
    match s.holds c e, s.holds (c + 1) e with
    | true, true => if upper then (c + 1, e) else (c, e)
    | true, false => (c, e)
    | false, true => (c + 1, e)
    | false, false => s.search (e - 1) fuel

/-- Digits and the exponent of the last one.  Seventeen digits always read
back. -/
def shortest (s : Span) : Nat × Int := s.search s.exponent 17

end Span

/-- How the words and the notation of a double are chosen. -/
structure Style where
  nan : String
  infinity : String
  /-- Exponents written in positional notation. -/
  positionalFrom : Int := -4
  positionalBelow : Int := 16

/-- Drop the zeros at the end of a list of digits. -/
def dropTrailingZeros (digits : List Char) : List Char :=
  (digits.reverse.dropWhile (· == '0')).reverse

/-- An exponent with its sign and at least two digits. -/
def exponentText (e : Int) : String :=
  let digits := toString e.natAbs
  (if e < 0 then "-" else "+") ++ (if digits.length < 2 then "0" ++ digits else digits)

/-- Significant digits laid out with the first one at `10^e`. -/
def layOut (style : Style) (digits : List Char) (e : Int) : String :=
  if style.positionalFrom ≤ e ∧ e < style.positionalBelow then
    if e < 0 then
      "0." ++ String.ofList (List.replicate ((-e).toNat - 1) '0' ++ digits)
    else
      let whole := e.toNat + 1
      let padded := digits ++ List.replicate (whole - digits.length) '0'
      let rest := padded.drop whole
      String.ofList (padded.take whole) ++ "." ++
        (if rest.isEmpty then "0" else String.ofList rest)
  else
    let rest := digits.drop 1
    String.ofList (digits.take 1) ++
      (if rest.isEmpty then "" else "." ++ String.ofList rest) ++ "e" ++ exponentText e

/-- The text of a positive count of units. -/
def positiveText (style : Style) (count : Nat) : String :=
  let (c, e) := (Span.ofUnits count).shortest
  let all := Nat.toDigits 10 c
  layOut style (dropTrailingZeros all) (e + all.length - 1)

def text (style : Style) : Double → String
  | nan => style.nan
  | infinite negative => if negative then "-" ++ style.infinity else style.infinity
  | negZero => "-0.0"
  | units k =>
    if k = 0 then "0.0"
    else if k < 0 then "-" ++ positiveText style k.natAbs
    else positiveText style k.natAbs

end Double
end Lineage
