import Lineage.Text.Ranges

/-
Whitespace: what Unicode 14 calls a space separator or a bidirectional blank,
and the control characters that separate lines, files and fields.
-/

namespace Lineage
namespace Text

def blankRanges : List (Nat × Nat) :=
  [(9, 13), (28, 32), (133, 133), (160, 160), (5760, 5760), (8192, 8202), (8232, 8233),
   (8239, 8239), (8287, 8287), (12288, 12288)]

def isBlank (c : Char) : Bool := inRanges blankRanges c.toNat

/-- Drop whitespace from both ends. -/
def strip (cs : List Char) : List Char :=
  ((cs.dropWhile isBlank).reverse.dropWhile isBlank).reverse

end Text
end Lineage
