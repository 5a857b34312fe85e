import Lineage.Text.Digit
import Lineage.Timestamp

/-
Reading of points in time: a date, any one character, and a time of day.

A date is a year with month and day, or with a week and perhaps a weekday; a time
has up to three parts and a fraction of a second.  The parts stand side by side or
are divided by the same mark throughout.  Digits beyond the sixth of a fraction
are dropped.
-/

namespace Lineage
namespace Timestamp

/-- A number of exactly so many digits, and what follows. -/
def digits? (count : Nat) (cs : List Char) : Option (Nat × List Char) :=
  let taken := cs.take count
  if taken.length = count && taken.all Text.isAsciiDigit then
    some (Text.asciiNumber taken, cs.drop count)
  else none

/-- Drop a mark if parts are divided by it; without it the reading fails. -/
def mark? (divided : Bool) (c : Char) (cs : List Char) : Option (List Char) :=
  if divided then
    match cs with
    | d :: rest => if d == c then some rest else none
    | [] => none
  else some cs

/-! ## Dates -/

/-- How many characters the date takes, seen from the characters themselves. -/
def dateLength? (cs : List Char) : Option Nat :=
  let isDigitAt := fun i => (cs[i]?).any Text.isAsciiDigit
  if cs.length = 7 then some 7
  else if cs[4]? == some '-' then
    if cs[5]? == some 'W' then
      if cs[8]? == some '-' then
        if cs.length = 9 then none
        else if isDigitAt 10 then some 8 else some 10
      else some 8
    else some 10
  else if cs[4]? == some 'W' then
    let run := ((cs.drop 7).takeWhile Text.isAsciiDigit).length + 7
    if run < 9 then some run else if run % 2 = 0 then some 7 else some 8
  else some 8

/-- The weekday after a week; a date that ends there means Monday. -/
def weekday? (divided : Bool) (cs : List Char) : Option Nat :=
  match cs with
  | [] => some 1
  | cs => do
    let cs ← mark? divided '-' cs
    let (weekday, _) ← digits? 1 cs
    return weekday

def date? (cs : List Char) : Option (Nat × Nat × Nat) := do
  let (year, rest) ← digits? 4 cs
  let divided := rest.head? == some '-'
  let rest ← mark? divided '-' rest
  match rest with
  | 'W' :: rest =>
    let (week, rest) ← digits? 2 rest
    let weekday ← weekday? divided rest
    Calendar.ofWeek? year week weekday
  | rest =>
    let (month, rest) ← digits? 2 rest
    let rest ← mark? divided '-' rest
    let (day, rest) ← digits? 2 rest
    if rest.isEmpty then return (year, month, day) else none

/-! ## Times -/

/-- Hours, minutes, seconds and microseconds. -/
structure Clock where
  parts : List Nat
  microsecond : Nat
  /-- What the reading left over. -/
  rest : List Char

namespace Clock

def part (c : Clock) (i : Nat) : Nat := (c.parts[i]?).getD 0

def seconds (c : Clock) : Nat := c.part 0 * 3600 + c.part 1 * 60 + c.part 2

end Clock

/-- The first six digits of a fraction, in microseconds. -/
def fraction? (cs : List Char) : Option (Nat × List Char) := do
  let width := min 6 cs.length
  let (n, rest) ← digits? width cs
  return (n * Nat.pow 10 (6 - width), rest.dropWhile Text.isAsciiDigit)

/-- Up to `left` parts of a time.  The first mark decides whether all parts are
divided.  One character may be left over after a part if it is ASCII. -/
def clock? (divided : Option Bool) (parts : List Nat) : (left : Nat) → List Char → Option Clock
  | 0, cs => do
    let (micros, rest) ← fraction? cs
    return ⟨parts, micros, rest⟩
  | left + 1, cs => do
    let (n, rest) ← digits? 2 cs
    let divided := divided.getD (rest.head? == some ':')
    let parts := parts ++ [n]
    match rest with
    | [] => return ⟨parts, 0, []⟩
    | [c] => if c.toNat < 128 then return ⟨parts, 0, [c]⟩ else none
    | c :: more =>
      if divided && c == ':' then clock? (some divided) parts left more
      else if c == '.' || c == ',' then do
        let (micros, rest) ← fraction? more
        return ⟨parts, micros, rest⟩
      else if divided then none
      else clock? (some divided) parts left rest

def isZoneMark (c : Char) : Bool := c == '+' || c == '-' || c == 'Z'

/-- An offset in microseconds.  One of less than a second counts as none. -/
def offset? (mark : Char) (cs : List Char) : Option Int :=
  if mark == 'Z' then
    if cs.isEmpty then some 0 else none
  else do
    let c ← clock? none [] 3 cs
    if !c.rest.isEmpty then none
    else if c.seconds = 0 then some 0
    else
      let micros : Int := c.seconds * 1000000 + c.microsecond
      some (if mark == '-' then -micros else micros)

/-- A time of day and its offset.  Before an offset something may be left over. -/
def time? (cs : List Char) : Option (Clock × Option Int) := do
  let c ← clock? none [] 3 (cs.takeWhile fun c => !isZoneMark c)
  match cs.dropWhile fun c => !isZoneMark c with
  | [] => if c.rest.isEmpty then return (c, none) else none
  | mark :: zone =>
    let offset ← offset? mark zone
    return (c, some offset)

/-- The point in time that a text writes.  A date may stand alone and means
midnight. -/
def ofText? (source : String) : Option Timestamp := do
  let cs := source.toList
  if cs.length < 7 then none
  else
    let length ← dateLength? cs
    let (year, month, day) ← date? (cs.take length)
    let (c, offset) ←
      match cs.drop length with
      | [] => pure (⟨[], 0, []⟩, none)
      | _ :: time => time? time
    let t : Timestamp :=
      ⟨year, month, day, c.part 0, c.part 1, c.part 2, c.microsecond, offset⟩
    if t.isValid then return t else none

end Timestamp
end Lineage
