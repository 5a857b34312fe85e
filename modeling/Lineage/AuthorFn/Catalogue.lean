import Lineage.AuthorFn
import Lineage.Json.Printer
import Lineage.Text.Split
import Lineage.Value.Iteration

/-
Ready-made author functions.

Each takes the value at hand.  One that is not of the kind a function works on is
refused with what the function needs; truth values are no numbers here.
-/

namespace Lineage
namespace AuthorFn
namespace Catalogue

/-- The result of an author function. -/
abbrev Result := Except Fault Value

def needs {α : Type} (what : String) : Except Fault α := .error (.badType s!"needs {what}")

def identity (v : Value) : Result := .ok v

def const (result : Value) (_ : Value) : Result := .ok result

def fail (f : Fault) (_ : Value) : Result := .error f

/-! ## Numbers -/

/-- An optional minus sign and digits `0` to `9`. -/
def integerOf? (cs : List Char) : Option Int :=
  let digits? := fun (cs : List Char) =>
    if !cs.isEmpty && cs.all Text.isAsciiDigit then some (Text.asciiNumber cs) else none
  match cs with
  | '-' :: rest => (digits? rest).map fun n => -(n : Int)
  | cs => (digits? cs).map fun n => (n : Int)

def parseInt (v : Value) : Result :=
  match v.text?.bind fun s => integerOf? s.toList with
  | some n => .ok (.int n)
  | none => .error (.conversion s!"not an integer: {v.describe}")

def toText (v : Value) : Result :=
  match v with
  | .int n => .ok (.text (toString n))
  | _ => needs "an integer"

/-- A sum that no double holds is a fault of its own. -/
def sumOf (a b : Number) : Except Fault Number :=
  match a.add? b with
  | some n => .ok n
  | none => .error .overflow

def add (n : Value) (v : Value) : Result :=
  match v, n with
  | .number a, .number b => (sumOf a b).map .number
  | _, _ => needs "a number"

/-- The numbers in a list of values, all of which have to be numbers. -/
def numbersOf? : List Value → Option (List Number)
  | [] => some []
  | .number n :: rest => (numbersOf? rest).map (n :: ·)
  | _ :: _ => none

def sum (v : Value) : Result :=
  match v with
  | .array items =>
    match numbersOf? items with
    | some numbers => (numbers.foldlM sumOf (.int 0)).map .number
    | none => needs "numbers"
  | _ => needs "numbers"

def even (v : Value) : Result :=
  match v with
  | .int n => .ok (if n % 2 = 0 then .null else .text "must be even")
  | _ => needs "an integer"

/-! ## Sizes -/

def length (v : Value) : Result :=
  match v.size? with
  | some n => .ok (.int n)
  | none => needs "a sized value"

def nonempty (v : Value) : Result :=
  match v.size? with
  | some 0 => .ok (.array [.text "must not be empty", .text "give it something"])
  | some _ => .ok (.array [])
  | none => needs "a sized value"

/-! ## Texts -/

def upper (v : Value) : Result :=
  match v with
  | .text s => .ok (.text (String.ofList (s.toList.map Text.asciiUpper)))
  | _ => needs "a string"

/-- The pieces of a text: at whitespace when the separator is null.  A limit below
zero is none. -/
def piecesOf (separator : Value) (limit : Int) (s : String) : Except Fault (List Value) :=
  let limit := if limit < 0 then none else some limit.toNat
  let texts := fun (pieces : List (List Char)) => pieces.map fun p => Value.text (String.ofList p)
  match separator with
  | .null => .ok (texts (Text.words limit s.toList))
  | .text "" => .error (.badValue "empty separator")
  | .text separator => .ok (texts (Text.pieces separator.toList limit s.toList))
  | v => .error (.badType s!"must be str or None, not {v.typeName}")

def split (separator : Value) (limit : Int) (asTuple : Bool) (v : Value) : Result :=
  match v with
  | .text s => (piecesOf separator limit s).map fun items =>
    if asTuple then .tuple items else .array items
  | _ => needs "a string"

/-- The texts in a list of values; nulls are passed over, nothing else may be
there. -/
def textsOf? : List Value → Option (List String)
  | [] => some []
  | .null :: rest => textsOf? rest
  | .text s :: rest => (textsOf? rest).map (s :: ·)
  | _ :: _ => none

def join (separator : String) (v : Value) : Result :=
  match v with
  | .array items =>
    match textsOf? items with
    | some texts => .ok (.text (Text.joined separator texts))
    | none => needs "strings"
  | _ => needs "strings"

/-! ## Containers -/

def pairsOf (entries : List (Key × Value)) : List Key → Except Fault (List (Key × Value))
  | [] => .ok []
  | key :: rest =>
    match Entries.find? key entries with
    | none => .error (.noKey key.text?)
    | some v => (pairsOf entries rest).map ((key, v) :: ·)

/-- The object of those keys, in their order. -/
def pick (keys : List Key) (v : Value) : Result :=
  match v with
  | .object entries => (pairsOf entries keys).map fun pairs => .object (Entries.ofPairs pairs)
  | _ => needs "an object"

/-- The object without a key, and over it the entries of the object under that key. -/
def flatten (key : Key) (v : Value) : Result :=
  match v with
  | .object entries =>
    match Entries.find? key entries with
    | some (.object inner) => .ok (.object (Entries.putAll inner (Entries.erase key entries)))
    | _ => needs "a nested object"
  | _ => needs "a nested object"

def wrap (key : Key) (v : Value) : Result := .ok (.object [(key, v)])

def listify (v : Value) : Result := .ok (.array [v])

end Catalogue
end AuthorFn
end Lineage
