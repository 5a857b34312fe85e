import Lineage.Json.Token
import Lineage.Text.Blank
import Lineage.Text.Digit

/-
Texts of universally unique identifiers.

The words `urn:` and `uuid:`, braces around the text and hyphens anywhere in it
are dropped; what is left must be 32 characters that write a number in base
sixteen.  A number may have whitespace around it, a plus sign, a prefix `0x`,
single underscores between digits, and decimal digits of any script.
-/

namespace Lineage
namespace Uuid

/-- Drop every occurrence of `word`, from left to right; `skip` characters belong
to the occurrence before. -/
def dropWord (word : List Char) (skip : Nat) : List Char → List Char
  | [] => []
  | c :: rest =>
    match skip with
    | skip + 1 => dropWord word skip rest
    | 0 =>
      if word.isPrefixOf (c :: rest) then dropWord word (word.length - 1) rest
      else c :: dropWord word 0 rest

def isBrace (c : Char) : Bool := c == '{' || c == '}'

/-- The characters left when decoration is dropped. -/
def bare (cs : List Char) : List Char :=
  let plain := dropWord "uuid:".toList 0 (dropWord "urn:".toList 0 cs)
  let inner := ((plain.dropWhile isBrace).reverse.dropWhile isBrace).reverse
  inner.filter (· != '-')

/-- Whitespace around a number.  Of a text in ASCII the separators of files and
fields do not count. -/
def isSpace (c : Char) : Bool :=
  if c.toNat < 128 then c == ' ' || (decide (9 ≤ c.toNat) && decide (c.toNat ≤ 13))
  else Text.isBlank c

def isHexDigit (c : Char) : Bool := (Json.hexValue? c).isSome || Text.isDecimal c

/-- Digits with single underscores between them; `digit` says whether a digit came
just before. -/
def isDigits (digit : Bool) : List Char → Bool
  | [] => digit
  | c :: rest =>
    if c == '_' then digit && isDigits false rest
    else isHexDigit c && isDigits true rest

/-- Whether a text writes a number in base sixteen.  After the prefix one
underscore may stand. -/
def isHexNumber (cs : List Char) : Bool :=
  let trimmed := ((cs.dropWhile isSpace).reverse.dropWhile isSpace).reverse
  let unsigned :=
    match trimmed with
    | '+' :: rest => rest
    | rest => rest
  match unsigned with
  | '0' :: x :: rest =>
    if x == 'x' || x == 'X' then
      match rest with
      | '_' :: rest => isDigits false rest
      | rest => isDigits false rest
    else isDigits false unsigned
  | rest => isDigits false rest

def isUuid (s : String) : Bool :=
  let cs := bare s.toList
  cs.length == 32 && isHexNumber cs

end Uuid
end Lineage
