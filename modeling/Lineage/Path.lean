import Lineage.Text.Digit
import Lineage.Text.Split
import Lineage.Value.Display
import Lineage.Value.Iteration

/-
Paths to places inside a value or a field tree.

A path begins at the root `$`.  A key segment names an entry of an object and an
index segment an item of an array.  On an array the key `*` selects every item,
and `<N` and `>N` select the item at place `N` from the back and from the front,
the first one when `N` is left out.  On an object every segment is a key.
-/

namespace Lineage

inductive Segment where
  | key (name : String)
  | index (n : Nat)
  deriving DecidableEq

/-- A text or value that is no path, or no segment of one. -/
structure BadPath where
  text : String

namespace Segment

/-- The key that selects every item of an array. -/
@[match_pattern] abbrev wildcard : Segment := .key "*"

def text : Segment → String
  | key name => name
  | index n => toString n

/-- The segment that a part of a written path stands for: digits are an index. -/
def ofPart (part : List Char) : Segment :=
  if !part.isEmpty && part.all Text.isAsciiDigit then .index (Text.asciiNumber part)
  else .key (String.ofList part)

def ofValue : Value → Except BadPath Segment
  | .text s => .ok (.key s)
  | .int n => if n < 0 then .error ⟨toString n⟩ else .ok (.index n.toNat)
  | v => .error ⟨v.shown⟩

def toValue : Segment → Value
  | key name => .text name
  | index n => .int n

end Segment

/-! ## Positional selectors -/

namespace Selector

/-- The end of an array that a selector counts from, and the number written, if
any.  A line break may follow. -/
def parse? : List Char → Option (Bool × Option Nat)
  | c :: rest =>
    if c == '<' || c == '>' then
      let digits := if rest.getLast? == some '\n' then rest.dropLast else rest
      if digits.all Text.isAsciiDigit then
        some (c == '<', if digits.isEmpty then none else some (Text.asciiNumber digits))
      else none
    else none
  | [] => none

/-- The item at place `nth`, counted from one. -/
def resolve? (fromBack : Bool) (nth length : Nat) : Option Nat :=
  if nth < 1 ∨ length < nth then none
  else some (if fromBack then length - nth else nth - 1)

end Selector

/-- A number as an index of an array. -/
def inRange? (n : Int) (length : Nat) : Option Nat :=
  if 0 ≤ n ∧ n < length then some n.toNat else none

/-- The item of an array that a segment selects, nothing when there is none. -/
def Segment.resolve (segment : Segment) (length : Nat) : Except BadPath (Option Nat) :=
  match segment with
  | .index n => .ok (inRange? n length)
  | .key s =>
    match Selector.parse? s.toList with
    | some (fromBack, nth) => .ok (Selector.resolve? fromBack (nth.getD 1) length)
    | none => .error ⟨s⟩

/-! ## Paths -/

structure Path where
  segments : List Segment
  deriving DecidableEq

namespace Path

def root : Path := ⟨[]⟩

def isRoot (p : Path) : Bool := p.segments.isEmpty

def child (p : Path) (s : Segment) : Path := ⟨p.segments ++ [s]⟩

def key (p : Path) (name : String) : Path := p.child (.key name)

def index (p : Path) (n : Nat) : Path := p.child (.index n)

/-- The child that a value names. -/
def childOf (p : Path) (v : Value) : Except BadPath Path :=
  (Segment.ofValue v).map p.child

def parent? (p : Path) : Option Path :=
  if p.isRoot then none else some ⟨p.segments.dropLast⟩

def last? (p : Path) : Option Segment := p.segments.getLast?

/-- The written form: the root, and a point before each segment. -/
def text (p : Path) : String :=
  "$" ++ Text.joined "" (p.segments.map fun s => "." ++ s.text)

/-- The path that a text writes: the root, and after it no part that is empty. -/
def parse (source : String) : Except BadPath Path :=
  match Text.splitAt '.' source.toList with
  | ['$'] :: rest =>
    if rest.any List.isEmpty then .error ⟨source⟩ else .ok ⟨rest.map Segment.ofPart⟩
  | _ => .error ⟨source⟩

def ofSegments : List Value → Except BadPath (List Segment)
  | [] => .ok []
  | v :: rest =>
    match Segment.ofValue v with
    | .error e => .error e
    | .ok s => (ofSegments rest).map (s :: ·)

/-- Why a value is not taken for a path. -/
inductive Refusal where
  | malformed (e : BadPath)
  | notIterable

/-- The path that a value stands for: null is the root, a text is parsed, and
anything that yields items is a list of segments. -/
def ofValue : Value → Except Refusal Path
  | .null => .ok root
  | .text s => (parse s).mapError .malformed
  | v =>
    match v.items? with
    | some items => ((ofSegments items).map Path.mk).mapError .malformed
    | none => .error .notIterable

end Path
end Lineage
