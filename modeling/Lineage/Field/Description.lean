import Lineage.Field
import Lineage.Json.Printer

/-
One-line descriptions of fields, such as `string(max_len=10)`.
-/

namespace Lineage
namespace Field

/-- An attribute that is set, with its name. -/
def boundPart (name : String) (bound : Option Number) : List String :=
  match bound with
  | some n => [name ++ "=" ++ n.text Number.proseStyle]
  | none => []

/-- A name with attributes in parentheses, without them if there are none. -/
def withParts (name : String) (parts : List String) : String :=
  if parts.isEmpty then name else name ++ "(" ++ Text.joined ", " parts ++ ")"

def stringParts (minLen maxLen : Option Number) (pattern : Option PatternSource)
    (format : Option Format) : List String :=
  boundPart "min_len" minLen ++ boundPart "max_len" maxLen ++
    (pattern.toList.map fun p => "pattern=" ++ p.shown) ++
    format.toList.map fun f => "format=" ++ Text.quoted f.name

/-- A least count of zero says nothing. -/
def itemParts (minItems maxItems : Option Number) : List String :=
  (if minItems.any Number.isZero then [] else boundPart "min_items" minItems) ++
    boundPart "max_items" maxItems

/-- A name, with a question mark where it is not required. -/
def memberText (m : Member Field) : String := if m.required then m.name else m.name ++ "?"

mutual

def describe : Field → String
  | .string minLen maxLen pattern format =>
    withParts "string" (stringParts minLen maxLen pattern format)
  | .number min max integerOnly =>
    withParts (if integerOnly.truthy then "integer" else "number")
      (boundPart "min" min ++ boundPart "max" max)
  | .boolean => "bool"
  | .null => "null"
  | .any => "any"
  | .literal value => "literal(" ++ (Value.scalar value).describe ++ ")"
  | .array element minItems maxItems =>
    "array(" ++ Text.joined ", " (describe element :: itemParts minItems maxItems) ++ ")"
  | .tuple items => "tuple(" ++ Text.joined ", " (describeAll items) ++ ")"
  | .object members => "object(" ++ Text.joined ", " (members.map memberText) ++ ")"
  | .optional inner => "optional(" ++ describe inner ++ ")"
  | .defaulted inner value => "default(" ++ describe inner ++ ", " ++ value.describe ++ ")"
  | .union variants discriminant =>
    let head :=
      match discriminant with
      | some key => if key = "" then "union" else "union[" ++ key ++ "]"
      | none => "union"
    head ++ "(" ++ Text.joined " | " (describeAll variants) ++ ")"
  | .custom _ name => "custom(" ++ name.spoken ++ ")"

def describeAll : List Field → List String
  | [] => []
  | f :: rest => describe f :: describeAll rest

end

end Field

namespace FieldArg

/-- A value that is no field is described by its type. -/
def describe : FieldArg → String
  | field f => f.describe
  | other v => String.ofList (v.typeName.toList.map Text.asciiLower)

end FieldArg
end Lineage
