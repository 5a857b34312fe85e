import Lineage.AuthorFn
import Lineage.Format
import Lineage.Pattern.Parser

/-
Fields: the permissible shape of one piece of data.

A field tree owns its children and is finite.  The constructors hold what a
checked construction lets through, so an attribute that a document may give any
value, such as the flag for whole numbers, is a value here too.
-/

namespace Lineage

/-- The text of a pattern, or its octets. -/
inductive PatternSource where
  | text (s : String)
  | bytes (s : String)
  deriving DecidableEq

namespace PatternSource

def shown : PatternSource → String
  | text s => Text.quoted s
  | bytes s => Text.quotedBytes s

def toValue : PatternSource → Value
  | text s => .text s
  | bytes s => .bytes s

/-- The characters of a pattern; octets are the first 256 characters. -/
def chars : PatternSource → List Char
  | text s => s.toList
  | bytes s => s.toUTF8.toList.map fun b => Char.ofNat b.toNat

variable [Externals]

def compile (p : PatternSource) : Except Pattern.Flaw Pattern.Regex :=
  match p with
  | text _ => Pattern.parse Externals.charNamed? true p.chars
  | bytes _ => Pattern.parse Externals.charNamed? false p.chars

/-- Whether a pattern matches a whole text.  A pattern of octets cannot be used on
texts. -/
def matchesText (p : PatternSource) (s : String) : Outcome Bool :=
  match p with
  | text _ =>
    match p.compile with
    | .ok r => .ok (r.matchesAll s)
    | .error _ => .ok false
  | bytes _ => .error Error.badType

end PatternSource

/-- A named part of an object, and whether it has to be there. -/
structure Member (α : Type) where
  name : String
  required : Bool
  field : α

inductive Field where
  /-- A text with bounds on its length, a pattern for the whole of it, and a
  well-known form. -/
  | string (minLen maxLen : Option Number) (pattern : Option PatternSource)
      (format : Option Format)
  /-- A number within inclusive bounds, whole when the flag counts as true. -/
  | number (min max : Option Number) (integerOnly : Value)
  | boolean
  | null
  | any
  /-- Exactly one scalar. -/
  | literal (value : Scalar)
  /-- Any number of items that share one field. -/
  | array (element : Field) (minItems maxItems : Option Number)
  /-- Exactly one item for each field. -/
  | tuple (items : List Field)
  | object (members : List (Member Field))
  /-- The inner field, or null, or nothing at all. -/
  | optional (inner : Field)
  /-- The inner field; where it is absent, `value` stands for it. -/
  | defaulted (inner : Field) (value : Value)
  /-- Exactly one of the variants, told apart by the literal under the
  discriminant if there is one. -/
  | union (variants : List Field) (discriminant : Option String)
  | custom (check : AuthorFn) (name : Value)

/-- What an author hands over where a field is expected. -/
inductive FieldArg where
  | field (f : Field)
  | other (v : Value)

namespace Member

variable {α : Type}

def find? (name : String) : List (Member α) → Option (Member α)
  | [] => none
  | m :: rest => if m.name = name then some m else find? name rest

def declares (members : List (Member α)) (name : String) : Bool := (find? name members).isSome

/-- Set the field of a name: an existing name keeps its place, a new one goes to
the end. -/
def put (m : Member α) : List (Member α) → List (Member α)
  | [] => [m]
  | n :: rest => if n.name = m.name then m :: rest else n :: put m rest

def names (members : List (Member α)) : List String := members.map Member.name

def requiredNames (members : List (Member α)) : List String :=
  names (members.filter Member.required)

end Member

namespace Field

/-- Whether an object may leave out a name declared with this field. -/
def acceptsAbsence : Field → Bool
  | optional _ | defaulted _ _ => true
  | _ => false

/-- The value that stands for an absent one, if there is one. -/
def defaultValue? : Field → Option Value
  | defaulted _ v => some v
  | _ => none

def typeName : Field → String
  | string _ _ _ _ => "StringField"
  | number _ _ _ => "NumberField"
  | boolean => "BoolField"
  | null => "NullField"
  | any => "AnyField"
  | literal _ => "LiteralField"
  | array _ _ _ => "ArrayField"
  | tuple _ => "TupleField"
  | object _ => "ObjectField"
  | optional _ => "OptionalField"
  | defaulted _ _ => "DefaultField"
  | union _ _ => "UnionField"
  | custom _ _ => "CustomField"

/-- The field inside all optional and default wrappers. -/
def unwrapped : Field → Field
  | optional inner => inner.unwrapped
  | defaulted inner _ => inner.unwrapped
  | f => f

def members? : Field → Option (List (Member Field))
  | object members => some members
  | _ => none

/-- The literal that a variant of a union requires under a key. -/
def tagOf? (key : String) : Field → Option Scalar
  | object members =>
    match Member.find? key members with
    | some ⟨_, true, .literal value⟩ => some value
    | _ => none
  | _ => none

end Field

namespace FieldArg

def typeName : FieldArg → String
  | field f => f.typeName
  | other v => v.typeName

end FieldArg
end Lineage
