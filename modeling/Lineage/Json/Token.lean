import Lineage.Text.Digit
import Lineage.Value

/-
Tokens of JSON text.

`tokens` reads a text from left to right.  Each token is found from the text that
begins at its first character, together with its width, so the walk itself is
structural: it passes over the characters that a token has taken.  What is no
token ends the stream.
-/

namespace Lineage
namespace Json

/-- What can be wrong inside a quoted string. -/
inductive StringFault where
  | unterminated
  | controlCharacter
  | badEscape
  | badUnicodeEscape
  deriving DecidableEq

inductive Token where
  | leftBracket
  | rightBracket
  | leftBrace
  | rightBrace
  | comma
  | colon
  | string (s : String)
  | scalar (s : Scalar)
  /-- A string that goes wrong at this offset from its opening quote. -/
  | badString (fault : StringFault) (offset : Nat)
  /-- A character that begins no token. -/
  | unknown
  | finish

def isSpace (c : Char) : Bool := c == ' ' || c == '\t' || c == '\n' || c == '\r'

/-- The value of a digit of base sixteen. -/
def hexValue? (c : Char) : Option Nat :=
  if '0' ≤ c ∧ c ≤ '9' then some (c.toNat - '0'.toNat)
  else if 'a' ≤ c ∧ c ≤ 'f' then some (c.toNat - 'a'.toNat + 10)
  else if 'A' ≤ c ∧ c ≤ 'F' then some (c.toNat - 'A'.toNat + 10)
  else none

def hexFour? (a b c d : Char) : Option Nat := do
  let a ← hexValue? a
  let b ← hexValue? b
  let c ← hexValue? c
  let d ← hexValue? d
  return ((a * 16 + b) * 16 + c) * 16 + d

/-- The character that a letter stands for after a backslash. -/
def unescape? : Char → Option Char
  | '"' => some '"'
  | '\\' => some '\\'
  | '/' => some '/'
  | 'b' => some (Char.ofNat 8)
  | 'f' => some (Char.ofNat 12)
  | 'n' => some '\n'
  | 'r' => some '\r'
  | 't' => some '\t'
  | _ => none

/-- The character of a code unit; a lone surrogate has none of its own. -/
def unitChar (n : Nat) : Char := if 0xD800 ≤ n ∧ n ≤ 0xDFFF then Char.ofNat 0xFFFD else Char.ofNat n

def isHighSurrogate (n : Nat) : Bool := decide (0xD800 ≤ n) && decide (n ≤ 0xDBFF)

def isLowSurrogate (n : Nat) : Bool := decide (0xDC00 ≤ n) && decide (n ≤ 0xDFFF)

/-- A character in front of what the rest of a string holds. -/
def prepend (c : Char) (width : Nat) (tail : Except (StringFault × Nat) (List Char × Nat)) :
    Except (StringFault × Nat) (List Char × Nat) :=
  tail.map fun (cs, n) => (c :: cs, n + width)

/-- The rest of a string after its opening quote: its characters and how many of
the text it takes, the closing quote included.  `offset` counts from the opening
quote.  A surrogate pair written as two escapes is one character. -/
def stringBody (offset : Nat) : List Char → Except (StringFault × Nat) (List Char × Nat)
  | [] => .error (.unterminated, 0)
  | '"' :: _ => .ok ([], 1)
  | '\\' :: 'u' :: a :: b :: c :: d :: '\\' :: 'u' :: e :: f :: g :: h :: next :: rest =>
    match hexFour? a b c d with
    | none => .error (.badUnicodeEscape, offset + 1)
    | some high =>
      if isHighSurrogate high then
        match hexFour? e f g h with
        | none => .error (.badUnicodeEscape, offset + 7)
        | some low =>
          if isLowSurrogate low then
            prepend (Char.ofNat (0x10000 + (high - 0xD800) * 0x400 + (low - 0xDC00))) 12
              (stringBody (offset + 12) (next :: rest))
          else
            prepend (unitChar high) 6
              (stringBody (offset + 6) ('\\' :: 'u' :: e :: f :: g :: h :: next :: rest))
      else
        prepend (unitChar high) 6
          (stringBody (offset + 6) ('\\' :: 'u' :: e :: f :: g :: h :: next :: rest))
  | '\\' :: 'u' :: a :: b :: c :: d :: next :: rest =>
    match hexFour? a b c d with
    | none => .error (.badUnicodeEscape, offset + 1)
    | some n => prepend (unitChar n) 6 (stringBody (offset + 6) (next :: rest))
  | '\\' :: 'u' :: _ => .error (.badUnicodeEscape, offset + 1)
  | ['\\'] => .error (.unterminated, 0)
  | '\\' :: c :: rest =>
    match unescape? c with
    | none => .error (.badEscape, offset)
    | some c => prepend c 2 (stringBody (offset + 2) rest)
  | c :: rest =>
    if c.toNat < 32 then .error (.controlCharacter, offset)
    else prepend c 1 (stringBody (offset + 1) rest)

/-- The fraction that digits after a point make, if the text has one. -/
def fraction (cs : List Char) : List Char :=
  match cs with
  | '.' :: rest => rest.takeWhile Text.isAsciiDigit
  | _ => []

/-- The exponent that a text begins with: its sign, its digits, and its width. -/
def exponent? (cs : List Char) : Option (Bool × List Char × Nat) :=
  match cs with
  | e :: rest =>
    if e == 'e' || e == 'E' then
      let (negative, signWidth, tail) :=
        match rest with
        | '-' :: t => (true, 1, t)
        | '+' :: t => (false, 1, t)
        | t => (false, 0, t)
      let digits := tail.takeWhile Text.isAsciiDigit
      if digits.isEmpty then none else some (negative, digits, 1 + signWidth + digits.length)
    else none
  | [] => none

/-- The digits of the whole part that a text begins with: a zero, or digits that
do not begin with one. -/
def wholePart (cs : List Char) : List Char :=
  match cs with
  | '0' :: _ => ['0']
  | cs => cs.takeWhile Text.isAsciiDigit

/-- The number that a text begins with, its sign aside, and its width.  A point or
an exponent makes it a double. -/
def unsigned? (negative : Bool) (cs : List Char) : Option (Number × Nat) :=
  let whole := wholePart cs
  if whole.isEmpty then none
  else
    let after := cs.drop whole.length
    let digits := fraction after
    let pointWidth := if digits.isEmpty then 0 else digits.length + 1
    let exp := exponent? (after.drop pointWidth)
    let magnitude := Text.asciiNumber (whole ++ digits)
    match digits.isEmpty, exp with
    | true, none =>
      let n : Int := magnitude
      some (.int (if negative then -n else n), whole.length)
    | _, exp =>
      let (power, width) : Int × Nat :=
        match exp with
        | none => (0, 0)
        | some (minus, ds, w) =>
          let n : Int := Text.asciiNumber ds
          (if minus then -n else n, w)
      some (.float (Double.ofDecimal negative magnitude (power - digits.length)),
        whole.length + pointWidth + width)

/-- Names of scalars. -/
def words : List (List Char × Scalar) :=
  [("null".toList, .null), ("true".toList, .bool true), ("false".toList, .bool false),
    ("NaN".toList, .number (.float .nan)),
    ("Infinity".toList, .number (.float (.infinite false))),
    ("-Infinity".toList, .number (.float (.infinite true)))]

/-- The token that a text begins with, and its width. -/
def firstToken (c : Char) (rest : List Char) : Token × Nat :=
  match c with
  | '[' => (.leftBracket, 1)
  | ']' => (.rightBracket, 1)
  | '{' => (.leftBrace, 1)
  | '}' => (.rightBrace, 1)
  | ',' => (.comma, 1)
  | ':' => (.colon, 1)
  | '"' =>
    match stringBody 1 rest with
    | .ok (cs, width) => (.string (String.ofList cs), width + 1)
    | .error (fault, offset) => (.badString fault offset, 1)
  | c =>
    match words.find? fun w => w.1.isPrefixOf (c :: rest) with
    | some (word, s) => (.scalar s, word.length)
    | none =>
      match (if c == '-' then unsigned? true rest else unsigned? false (c :: rest)) with
      | some (n, width) => (.scalar (.number n), if c == '-' then width + 1 else width)
      | none => (.unknown, 1)

/-- Tokens with the positions of their first characters; `skip` characters belong
to the token before. -/
def tokens (skip pos : Nat) : List Char → List (Nat × Token)
  | [] => [(pos, .finish)]
  | c :: rest =>
    match skip with
    | skip + 1 => tokens skip (pos + 1) rest
    | 0 =>
      if isSpace c then tokens 0 (pos + 1) rest
      else
        match firstToken c rest with
        | (.badString fault offset, _) => [(pos, .badString fault offset)]
        | (.unknown, _) => [(pos, .unknown)]
        | (token, width) => (pos, token) :: tokens (width - 1) (pos + 1) rest

end Json
end Lineage
