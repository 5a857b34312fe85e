import Lineage.Value.Display
import Lineage.Value.Equality

/-
JSON text of values.

`Value.json?` writes what a lenient writer accepts: NaN and the infinities by
name, tuples as arrays, scalar keys as texts.  `Value.toJson` first checks that
the value is a JSON value, whose numbers are finite and whose keys are texts.
-/

namespace Lineage
namespace Json

/-- How JSON text is laid out: on one line, or one item per line with so many
spaces for each level; every character beyond ASCII escaped or none. -/
structure Style where
  indent : Option Nat := none
  asciiOnly : Bool := false

def Style.plain : Style := {}

def hexEscape (n : Nat) : String := "\\u" ++ Text.hex 4 n

/-- How one character stands in a JSON string.  Beyond the basic plane an escape
takes two surrogates. -/
def escapedChar (style : Style) (c : Char) : String :=
  if c == '"' then "\\\""
  else if c == '\\' then "\\\\"
  else if c == '\n' then "\\n"
  else if c == '\r' then "\\r"
  else if c == '\t' then "\\t"
  else if c.toNat == 8 then "\\b"
  else if c.toNat == 12 then "\\f"
  else if c.toNat < 32 then hexEscape c.toNat
  else if c.toNat < 127 || !style.asciiOnly then c.toString
  else if c.toNat < 65536 then hexEscape c.toNat
  else
    let n := c.toNat - 65536
    hexEscape (55296 + n / 1024) ++ hexEscape (56320 + n % 1024)

def string (style : Style) (s : String) : String :=
  "\"" ++ Text.joined "" (s.toList.map (escapedChar style)) ++ "\""

def scalar (style : Style) : Scalar → String
  | .null => "null"
  | .bool b => if b then "true" else "false"
  | .number n => n.text Number.jsonStyle
  | .text s => string style s

/-- A key as text: a text is itself, other scalars are written as JSON. -/
def keyText? : Key → Option String
  | .scalar (.text s) => some s
  | .scalar s => some (scalar Style.plain s)
  | _ => none

/-- A line break and the spaces of a level, if items have lines of their own. -/
def Style.newline (style : Style) (depth : Nat) : String :=
  match style.indent with
  | none => ""
  | some width => "\n" ++ String.ofList (List.replicate (width * depth) ' ')

/-- Parts between brackets, on lines one level deeper than the brackets. -/
def enclosed (style : Style) (depth : Nat) (left right : String) (parts : List String) :
    String :=
  if parts.isEmpty then left ++ right
  else
    let separator := if style.indent.isSome then "," ++ style.newline (depth + 1) else ", "
    left ++ style.newline (depth + 1) ++ Text.joined separator parts ++
      style.newline depth ++ right

mutual

/-- The JSON text of a value at a level, or nothing if no writer has one. -/
def render? (style : Style) (depth : Nat) : Value → Option String
  | .scalar s => some (scalar style s)
  | .array items => (renderItems? style (depth + 1) items).map (enclosed style depth "[" "]")
  | .tuple items => (renderItems? style (depth + 1) items).map (enclosed style depth "[" "]")
  | .object entries =>
    (renderEntries? style (depth + 1) entries).map (enclosed style depth "\x7b" "\x7d")
  | .set _ | .bytes _ | .thing | .missing => none

def renderItems? (style : Style) (depth : Nat) : List Value → Option (List String)
  | [] => some []
  | v :: rest => do
    let s ← render? style depth v
    let ss ← renderItems? style depth rest
    return s :: ss

def renderEntries? (style : Style) (depth : Nat) :
    List (Key × Value) → Option (List String)
  | [] => some []
  | (k, v) :: rest => do
    let name ← keyText? k
    let s ← render? style depth v
    let ss ← renderEntries? style depth rest
    return (string style name ++ ": " ++ s) :: ss

end

end Json

namespace Value

/-- The JSON text of a value, leniently. -/
def json? (style : Json.Style) (v : Value) : Option String := Json.render? style 0 v

mutual

/-- Check that a value is a JSON value.  The first offence in document order is
reported: of an entry the key comes before the value, and a bad key is reported
at its object. -/
def check (at_ : String) : Value → Except NotJson Unit
  | .scalar (.number (.float d)) =>
    if d.isFinite then .ok () else .error { typeName := "float", path := some at_ }
  | .scalar _ => .ok ()
  | .array items => checkItems at_ 0 items
  | .object entries => checkEntries at_ entries
  | .tuple _ => .error { typeName := "tuple", path := some at_ }
  | .set _ => .error { typeName := "set", path := some at_ }
  | .bytes _ => .error { typeName := "bytes", path := some at_ }
  | .thing => .error { typeName := "Thing", path := some at_ }
  | .missing => .error { typeName := "_Missing", path := some at_ }

def checkItems (at_ : String) (index : Nat) : List Value → Except NotJson Unit
  | [] => .ok ()
  | v :: rest =>
    match check (at_ ++ "." ++ toString index) v with
    | .ok () => checkItems at_ (index + 1) rest
    | .error e => .error e

def checkEntries (at_ : String) : List (Key × Value) → Except NotJson Unit
  | [] => .ok ()
  | (k, v) :: rest =>
    match k with
    | .scalar (.text name) =>
      match check (at_ ++ "." ++ name) v with
      | .ok () => checkEntries at_ rest
      | .error e => .error e
    | other => .error { typeName := other.toValue.typeName, path := some at_ }

end

/-- The JSON text of a JSON value. -/
def toJson (v : Value) (style : Json.Style) : Except NotJson String :=
  match v.check "$" with
  | .ok () =>
    match v.json? style with
    | some s => .ok s
    | none => .error { typeName := v.typeName }
  | .error e => .error e

/-- Short form of a value for messages: its JSON text where there is one, cut to
`limit` characters. -/
def describe (v : Value) (limit : Int := 40) : String :=
  match v with
  | .missing => "<absent>"
  | v => Text.shortened limit ((v.json? Json.Style.plain).getD v.shown)

end Value
end Lineage
