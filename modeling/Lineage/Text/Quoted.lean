import Lineage.Text.Join
import Lineage.Text.Printable

/-
Quoted text in messages.  Single quotes enclose it, double quotes when it holds a
single quote and no double one.  The backslash and the enclosing quote are
escaped, and so is every character that does not print.
-/

namespace Lineage
namespace Text

/-- The quote that encloses a text. -/
def enclosing (cs : List Char) : Char :=
  if cs.contains '\'' && !cs.contains '"' then '"' else '\''

/-- How one character stands between quotes. -/
def quotedChar (quote c : Char) : String :=
  if c == '\\' then "\\\\"
  else if c == quote then "\\" ++ c.toString
  else if c == '\t' then "\\t"
  else if c == '\n' then "\\n"
  else if c == '\r' then "\\r"
  else if c.toNat < 32 || c.toNat == 127 then "\\x" ++ hex 2 c.toNat
  else if c.toNat < 127 || isPrintable c then c.toString
  else if c.toNat < 256 then "\\x" ++ hex 2 c.toNat
  else if c.toNat < 65536 then "\\u" ++ hex 4 c.toNat
  else "\\U" ++ hex 8 c.toNat

def quoted (s : String) : String :=
  let quote := enclosing s.toList
  quote.toString ++ joined "" (s.toList.map (quotedChar quote)) ++ quote.toString

/-- Quoted octets, which print only in the ASCII range. -/
def quotedBytes (s : String) : String :=
  let octets := s.toUTF8.toList.map fun b => Char.ofNat b.toNat
  let quote := enclosing octets
  let one := fun (c : Char) =>
    if c.toNat ≥ 127 then "\\x" ++ hex 2 c.toNat else quotedChar quote c
  "b" ++ quote.toString ++ joined "" (octets.map one) ++ quote.toString

end Text
end Lineage
