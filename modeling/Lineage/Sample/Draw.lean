import Lineage.Error

/-
Draws from a source of choices.

What a generator of samples picks by chance comes from a source: whole numbers up to
a bound, fractions, and made-up texts.  A source has a state, and each draw gives
something of its kind and the state for the next one.  Nothing else is asked of it,
so a source may be a stream of random numbers as well as a list of fixed answers.
-/

namespace Lineage
namespace Sample

/-- What a made-up text is about.  Changes to a text before it is used, such as a
capital letter at its front, are the source's. -/
inductive Topic where
  | email
  | firstName
  | lastName
  | username
  | fullName
  | title
  | paragraph
  | sentence
  | url
  | phone
  | streetAddress
  | city
  | country
  | postcode
  | company
  | job
  | date
  | uuid
  | word
  | capitalizedWord
  deriving DecidableEq, Repr

structure Source (σ : Type) where
  /-- A whole number from zero to a bound. -/
  upTo (bound : Nat) : σ → Fin (bound + 1) × σ
  /-- A fraction from zero up to one, as a count of steps of `2^-53`. -/
  fraction : σ → Fin (Nat.pow 2 53) × σ
  text : Topic → σ → String × σ

/-- A computation that draws and may fail. -/
abbrev Draw (σ α : Type) := StateT σ Outcome α

namespace Source

variable {σ : Type} (src : Source σ)

def drawUpTo (bound : Nat) : Draw σ Nat := fun s =>
  let (k, s) := src.upTo bound s
  .ok (k.val, s)

def drawFraction : Draw σ Nat := fun s =>
  let (k, s) := src.fraction s
  .ok (k.val, s)

def drawText (topic : Topic) : Draw σ String := fun s => .ok (src.text topic s)

/-- An integer between two others, themselves included. -/
def drawBetween (low high : Int) : Draw σ Int :=
  if high < low then throw (.fault (.badValue ""))
  else do
    let k ← src.drawUpTo (high - low).toNat
    return low + k

/-- Whether a fraction lies below so many tenths. -/
def drawChance (tenths : Nat) : Draw σ Bool := do
  let k ← src.drawFraction
  let drawn := Double.ofRatio false k (Nat.pow 2 53)
  return (Number.float drawn).lt (.float (Double.ofDecimal false tenths (-1)))

/-- Small letters. -/
def drawLetters : Nat → Draw σ (List Char)
  | 0 => return []
  | n + 1 => do
    let k ← src.drawUpTo 25
    let rest ← drawLetters n
    return Char.ofNat ('a'.toNat + k) :: rest

/-- A double between two numbers: a fraction of the way from one to the other, rounded
at each step.  Integers too large for a double have no such way. -/
def drawUniform (low high : Number) : Draw σ Double := do
  let width ← doubleOf (high.sub? low)
  let k ← src.drawFraction
  let start ← doubleOf low
  return start.add (width.scaled k)
where
  doubleOf (n : Option Number) : Outcome Double :=
    match n.bind Number.toDouble? with
    | some d => .ok d
    | none => .error (.fault .overflow)

end Source

end Sample
end Lineage
