import Lineage.Number.Shortest

/-
Numbers of a document: integers of any size and doubles.

An integer and a double compare by value, exactly: both are counts of units of
`2^-1074`, so `9007199254740993` and `9007199254740992.0` differ.  NaN is unequal
to every number, itself included, and no comparison with it holds.
-/

namespace Lineage

inductive Number where
  | int (n : Int)
  | float (d : Double)
  deriving DecidableEq

namespace Number

/-- Where a number stands in the order, nowhere for NaN. -/
def position : Number → Option (Int × Int)
  | int n => some (0, n * unitsPerOne)
  | float d => d.position

/-- Equality by value: `1` is `1.0`. -/
def same (a b : Number) : Bool :=
  match a.position, b.position with
  | some p, some q => p == q
  | _, _ => false

def lt (a b : Number) : Bool :=
  match a.position, b.position with
  | some (s, k), some (t, l) => decide (s < t) || (s == t && decide (k < l))
  | _, _ => false

/-- Equality that also takes NaN for itself: what holds of two copies of one
number. -/
def copyOf (a b : Number) : Bool :=
  a.same b || (a.position.isNone && b.position.isNone)

def isZero (n : Number) : Bool := n.same (int 0)

def isFinite : Number → Bool
  | int _ => true
  | float d => d.isFinite

def isIntegral : Number → Bool
  | int _ => true
  | float d => d.isIntegral

/-- The least integer not below a number. -/
def ceil? : Number → Option Int
  | int n => some n
  | float d => d.ceil?

/-- The greatest integer not above a number. -/
def floor? : Number → Option Int
  | int n => some n
  | float d => d.floor?

/-- The larger of two; the first when they do not compare or are equal. -/
def maxOf (a b : Number) : Number := if a.lt b then b else a

/-- The smaller of two; the first when they do not compare or are equal. -/
def minOf (a b : Number) : Number := if b.lt a then b else a

/-- A number as a double, or nothing for an integer beyond every double. -/
def toDouble? : Number → Option Double
  | int n => Double.ofInt? n
  | float d => some d

/-- Sum: exact for two integers, in doubles as soon as one is a double. -/
def add? : Number → Number → Option Number
  | int a, int b => some (int (a + b))
  | a, b => do
    let x ← a.toDouble?
    let y ← b.toDouble?
    return float (x.add y)

/-- Difference: exact for two integers, in doubles as soon as one is a double. -/
def sub? : Number → Number → Option Number
  | int a, int b => some (int (a - b))
  | a, b => do
    let x ← a.toDouble?
    let y ← b.toDouble?
    return float (x.add y.neg)

/-- The spelling of numbers in messages. -/
def proseStyle : Double.Style := { nan := "nan", infinity := "inf" }

/-- The spelling of numbers in JSON text. -/
def jsonStyle : Double.Style := { nan := "NaN", infinity := "Infinity" }

/-- The text of a number.  A whole number is written however long it is: the limit that an
interpreter may set on the digits it converts is not modelled. -/
def text (style : Double.Style) : Number → String
  | int n => toString n
  | float d => d.text style

/-- A bound in messages, and the word where there is none. -/
def boundText (bound : Option Number) : String :=
  match bound with
  | some n => n.text proseStyle
  | none => "None"

end Number
end Lineage
