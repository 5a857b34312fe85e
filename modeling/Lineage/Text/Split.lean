import Lineage.Text.Blank

/-
Splitting of texts: at a character, or at a separator or whitespace up to a limit on
the number of splits.
-/

namespace Lineage
namespace Text

/-- The parts between the occurrences of a character. -/
def splitAt (x : Char) : List Char → List (List Char)
  | [] => [[]]
  | c :: rest =>
    if c == x then [] :: splitAt x rest
    else
      match splitAt x rest with
      | part :: more => (c :: part) :: more
      | [] => [[c]]

/-- One split less, if there is a limit. -/
def spend (limit : Option Nat) : Option Nat := limit.map fun n => n - 1

/-- The pieces between separators.  Of a separator that has begun, `skip` characters
are still to come. -/
def piecesFrom (separator : List Char) : (limit : Option Nat) → (skip : Nat) → List Char →
    List (List Char)
  | _, _, [] => [[]]
  | limit, skip + 1, _ :: rest => piecesFrom separator limit skip rest
  | limit, 0, c :: rest =>
    if limit != some 0 && separator.isPrefixOf (c :: rest) then
      [] :: piecesFrom separator (spend limit) (separator.length - 1) rest
    else
      match piecesFrom separator limit 0 rest with
      | piece :: more => (c :: piece) :: more
      | [] => [[c]]

/-- The pieces of a text at a separator that is not empty. -/
def pieces (separator : List Char) (limit : Option Nat) (cs : List Char) : List (List Char) :=
  piecesFrom separator limit 0 cs

/-- The words of a text.  When the limit is reached, the rest is one word, whatever
whitespace it holds behind its first character. -/
def wordsFrom (limit : Option Nat) (word : Option (List Char)) : List Char → List (List Char)
  | [] =>
    match word with
    | some w => [w.reverse]
    | none => []
  | c :: rest =>
    match word with
    | none =>
      if isBlank c then wordsFrom limit none rest
      else if limit == some 0 then [c :: rest]
      else wordsFrom limit (some [c]) rest
    | some w =>
      if isBlank c then w.reverse :: wordsFrom (spend limit) none rest
      else wordsFrom limit (some (c :: w)) rest

def words (limit : Option Nat) (cs : List Char) : List (List Char) := wordsFrom limit none cs

end Text
end Lineage
