import Lineage.Text.Quoted
import Lineage.Value

/-
Values as they stand in messages: texts in quotes, truth values and null as
capitalised words, containers in their brackets.
-/

namespace Lineage

namespace Scalar

def shown : Scalar → String
  | null => "None"
  | bool b => if b then "True" else "False"
  | number n => n.text Number.proseStyle
  | text s => Text.quoted s

/-- As `shown`, but a text stands for itself. -/
def spoken : Scalar → String
  | text s => s
  | s => s.shown

end Scalar

namespace Value

/-- Brackets of a tuple: one item keeps its comma. -/
def tupleText (items : List String) : String :=
  match items with
  | [one] => "(" ++ one ++ ",)"
  | _ => "(" ++ Text.joined ", " items ++ ")"

/-- Braces of a set, which no empty set has. -/
def setText (items : List String) : String :=
  if items.isEmpty then "set()" else "\x7b" ++ Text.joined ", " items ++ "\x7d"

end Value

namespace Key

mutual

def shown : Key → String
  | .scalar s => s.shown
  | .tuple items => Value.tupleText (shownItems items)
  | .bytes s => Text.quotedBytes s
  | .thing => "<Thing>"
  | .missing => "MISSING"

def shownItems : List Key → List String
  | [] => []
  | k :: rest => shown k :: shownItems rest

end

end Key

namespace Value

mutual

def shown : Value → String
  | .scalar s => s.shown
  | .array items => "[" ++ Text.joined ", " (shownItems items) ++ "]"
  | .object entries => "\x7b" ++ Text.joined ", " (shownEntries entries) ++ "\x7d"
  | .tuple items => tupleText (shownItems items)
  | .set items => setText (Key.shownItems items)
  | .bytes s => Text.quotedBytes s
  | .thing => "<Thing>"
  | .missing => "MISSING"

def shownItems : List Value → List String
  | [] => []
  | v :: rest => shown v :: shownItems rest

def shownEntries : List (Key × Value) → List String
  | [] => []
  | (k, v) :: rest => (k.shown ++ ": " ++ shown v) :: shownEntries rest

end

/-- As `shown`, but a text stands for itself. -/
def spoken : Value → String
  | text s => s
  | v => v.shown

end Value

namespace Key

def spoken (k : Key) : String := k.toValue.spoken

end Key
end Lineage
