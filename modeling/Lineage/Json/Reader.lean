import Lineage.Json.Token
import Lineage.Value.Entries

/-
Reading of JSON text.

The reader takes the tokens one by one and keeps a stack of the containers that
are still open.  Its state says what may come next, and thereby which message a
token gets that may not.  A key that an object repeats keeps its first place and
takes its last value.
-/

namespace Lineage
namespace Json

/-- Why a text is not JSON. -/
inductive Complaint where
  | inString (fault : StringFault)
  | noValue
  | noKey
  | noColon
  | noComma
  | extraData
  | byteOrderMark
  deriving DecidableEq

/-- What is wrong with a text and at which character. -/
structure Malformed where
  complaint : Complaint
  position : Nat

namespace Complaint

def text : Complaint → String
  | inString .unterminated => "Unterminated string starting at"
  | inString .controlCharacter => "Invalid control character at"
  | inString .badEscape => "Invalid \\escape"
  | inString .badUnicodeEscape => "Invalid \\uXXXX escape"
  | noValue => "Expecting value"
  | noKey => "Expecting property name enclosed in double quotes"
  | noColon => "Expecting ':' delimiter"
  | noComma => "Expecting ',' delimiter"
  | extraData => "Extra data"
  | byteOrderMark => "Unexpected UTF-8 BOM (decode using utf-8-sig)"

end Complaint

namespace Malformed

/-- The complaint with line, column and offset; lines and columns count from
one. -/
def message (m : Malformed) (source : String) : String :=
  let before := source.toList.take m.position
  let line := before.count '\n' + 1
  let column := (before.reverse.takeWhile (· != '\n')).length + 1
  s!"{m.complaint.text}: line {line} column {column} (char {m.position})"

end Malformed

/-- An open container: the items so far, last one first, or the entries so far
and the key whose value is read. -/
inductive Frame where
  | array (items : List Value)
  | object (entries : List (Key × Value)) (key : String)

/-- What may come next. -/
inductive State where
  | value (stack : List Frame)
  | itemOrEnd (stack : List Frame)
  | keyOrEnd (stack : List Frame)
  | key (entries : List (Key × Value)) (stack : List Frame)
  | colon (entries : List (Key × Value)) (key : String) (stack : List Frame)
  | after (v : Value) (stack : List Frame)

namespace State

/-- A container is complete: the one around it takes it when its own next token
comes. -/
def closeArray (items : List Value) (stack : List Frame) : State :=
  .after (.array items.reverse) stack

def closeObject (entries : List (Key × Value)) (stack : List Frame) : State :=
  .after (.object entries) stack

/-- The state after a token where a value may begin; `complaint` is for any
other. -/
def beginValue (stack : List Frame) (pos : Nat) : Token → Except Malformed State
  | .leftBracket => .ok (.itemOrEnd stack)
  | .leftBrace => .ok (.keyOrEnd stack)
  | .string s => .ok (.after (.text s) stack)
  | .scalar s => .ok (.after (.scalar s) stack)
  | .badString fault offset => .error ⟨.inString fault, pos + offset⟩
  | _ => .error ⟨.noValue, pos⟩

def beginKey (entries : List (Key × Value)) (stack : List Frame) (pos : Nat) :
    Token → Except Malformed State
  | .string s => .ok (.colon entries s stack)
  | .badString fault offset => .error ⟨.inString fault, pos + offset⟩
  | _ => .error ⟨.noKey, pos⟩

def step (state : State) (pos : Nat) (token : Token) : Except Malformed State :=
  match state with
  | .value stack => beginValue stack pos token
  | .itemOrEnd stack =>
    match token with
    | .rightBracket => .ok (closeArray [] stack)
    | token => beginValue (.array [] :: stack) pos token
  | .keyOrEnd stack =>
    match token with
    | .rightBrace => .ok (closeObject [] stack)
    | token => beginKey [] stack pos token
  | .key entries stack => beginKey entries stack pos token
  | .colon entries name stack =>
    match token with
    | .colon => .ok (.value (.object entries name :: stack))
    | _ => .error ⟨.noColon, pos⟩
  | .after v (.array items :: stack) =>
    match token with
    | .comma => .ok (.value (.array (v :: items) :: stack))
    | .rightBracket => .ok (closeArray (v :: items) stack)
    | _ => .error ⟨.noComma, pos⟩
  | .after v (.object entries name :: stack) =>
    match token with
    | .comma => .ok (.key (Entries.put (.text name) v entries) stack)
    | .rightBrace => .ok (closeObject (Entries.put (.text name) v entries) stack)
    | _ => .error ⟨.noComma, pos⟩
  | .after _ [] => .error ⟨.extraData, pos⟩

/-- Take tokens up to the end of the text. -/
def run (state : State) : List (Nat × Token) → Except Malformed Value
  | [] => .error ⟨.noValue, 0⟩
  | (pos, token) :: rest =>
    match state, token with
    | .after v [], .finish => .ok v
    | state, token =>
      match state.step pos token with
      | .ok next => next.run rest
      | .error e => .error e

end State

/-- The value that a text writes. -/
def parse (source : List Char) : Except Malformed Value :=
  match source with
  | c :: _ =>
    if c.toNat = 0xFEFF then .error ⟨.byteOrderMark, 0⟩
    else (State.value []).run (tokens 0 0 source)
  | [] => (State.value []).run (tokens 0 0 source)

/-- As `parse`.  A text holds whole characters only, so an escape that names half of a
surrogate pair and stands alone reads as the replacement character. -/
def read (source : String) : Except Malformed Value := parse source.toList

/-- The text that a file's octets write: a byte order mark in front is no part of
it. -/
def withoutMark (source : String) : String :=
  match source.toList with
  | c :: rest => if c.toNat = 0xFEFF then String.ofList rest else source
  | [] => source

end Json
end Lineage
