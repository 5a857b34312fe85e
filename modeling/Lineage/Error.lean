import Lineage.Text.Case
import Lineage.Value.Equality
import Lineage.Violation
import Lineage.Json.Reader

/-
Everything that can go wrong, by cause.

A cause holds what its message needs; the wording is in the `message` functions
and the advice in the `hint` functions.
-/

namespace Lineage

namespace NotJson

def message (e : NotJson) : String :=
  match e.path with
  | some path =>
    if path = "" then s!"{e.typeName} is not a JSON value"
    else s!"{e.typeName} is not a JSON value at {path}"
  | none => s!"{e.typeName} is not a JSON value"

def hint : String :=
  "Values may only contain None, bool, int, float, str, list and dict with string keys."

end NotJson

namespace BadPath

def message (e : BadPath) : String := s!"Failed to parse JSON path '{e.text}'"

def hint : String := "Paths start at the root, e.g. '$', '$.address.city' or '$.tags.*'."

end BadPath

/-! ## Faults of functions -/

/-- What an author function, or an operation on a value of the wrong type, fails
with. -/
inductive Fault where
  | conversion (message : String)
  | badValue (message : String)
  | badType (message : String)
  /-- A key that is not there; the text of the complaint if there is one. -/
  | noKey (message : Option String)
  | noAttribute
  | noIndex
  | zeroDivision
  | overflow
  | invalidSetting
  | noFile

namespace Fault

def message : Fault → String
  | conversion m | badValue m | badType m => m
  | noKey m => m.getD ""
  | _ => ""

/-- The faults by which an author function says that it cannot convert a
value. -/
def isRefusal : Fault → Bool
  | conversion _ | badValue _ | badType _ => true
  | _ => false

end Fault

/-! ## Definitions -/

/-- Why a field, a schema, a step, a migration or a history is not well defined.
Texts of values come in as they are shown in messages. -/
inductive DefinitionError where
  | boundNotNumber (owner shown : String)
  | boundNegative (owner shown : String)
  | boundsCrossed (owner low high : String)
  | notAField (owner typeName : String)
  | unknownFormat (shown : String)
  | badPattern (shown complaint : String)
  | literalNotJson (e : NotJson)
  | literalNotScalar
  | defaultNotJson (e : NotJson)
  | defaultMismatch (violation : String)
  | tooFewVariants
  | untaggedVariant (index : Nat) (discriminant : String)
  | repeatedTag (shown : String)
  | overlappingVariants (first second : Nat)
  | checkNotCallable
  | nameNotText (shown : String)
  | undeclaredRequired (shown : String)
  | customInDocument (name : String)
  | unknownTypeName (name at_ : String)
  | notADocument (at_ typeName : String)
  | missingOption (tag at_ option : String)
  | optionNotList (tag at_ option : String)
  | fieldsNotMapping (at_ : String)
  | valueNotJson (e : NotJson)
  | documentVersion (shown : String)
  | badVersion (shown : String)
  | rootNotAField (typeName : String)
  | firstWithPredecessor
  | wrongPredecessor (version : Int) (shown : String)
  | notSuccessor (destination source : Int)
  | notAStep (index : Nat) (typeName : String)
  | stepNeeds (step need : String)
  | stepDefaultMismatch (step violation : String)
  | historyNotFirst
  | notFromHead (source head : Int)
  | noSampleOfCustom (name : String)
  | noSampleText (field : String)
  | noInteger (low high : String)
  | unknownField (typeName : String)
  /-- A message from outside, with its hint if it brings one. -/
  | other (message : String) (hint : Option String)

namespace DefinitionError

def message : DefinitionError → String
  | boundNotNumber owner shown => s!"{owner} bounds must be numbers, got {shown}"
  | boundNegative owner shown => s!"{owner} bounds must not be negative, got {shown}"
  | boundsCrossed owner low high => s!"{owner} lower bound {low} exceeds upper bound {high}"
  | notAField owner typeName => s!"{owner} expects Field instances, got {typeName}"
  | unknownFormat shown => s!"StringField format {shown} is not supported"
  | badPattern shown complaint => s!"StringField pattern {shown} does not compile: {complaint}"
  | literalNotJson e => s!"LiteralField value is not a JSON value: {e.message}"
  | literalNotScalar => "LiteralField value must be a scalar"
  | defaultNotJson e => s!"DefaultField default is not a JSON value: {e.message}"
  | defaultMismatch violation =>
    s!"DefaultField default does not validate against its field: {violation}"
  | tooFewVariants => "UnionField needs at least two variants"
  | untaggedVariant index discriminant =>
    s!"UnionField variant {index} must be an ObjectField requiring " ++
      s!"'{discriminant}' as a LiteralField"
  | repeatedTag shown =>
    s!"UnionField discriminant value {shown} is ambiguous: used by more than one variant"
  | overlappingVariants first second =>
    s!"UnionField variants {first} and {second} are ambiguous: some value could satisfy both"
  | checkNotCallable => "CustomField check must be callable"
  | nameNotText shown => s!"ObjectField names must be strings, got {shown}"
  | undeclaredRequired shown => s!"ObjectField required names {shown} are not declared fields"
  | customInDocument name => s!"CustomField '{name}' cannot be written to a schema document"
  | unknownTypeName name at_ => s!"Unknown field type '{name}' at {at_}"
  | notADocument at_ typeName => s!"Expected a field document at {at_}, got {typeName}"
  | missingOption tag at_ option => s!"'{tag}' field at {at_} needs '{option}'"
  | optionNotList tag at_ option => s!"'{tag}' {option} at {at_} must be a list"
  | fieldsNotMapping at_ => s!"'object' fields at {at_} must be a mapping"
  | valueNotJson e => e.message
  | documentVersion shown => s!"Schema document version must be an integer, got {shown}"
  | badVersion shown => s!"Schema version must be an integer >= 1, got {shown}"
  | rootNotAField typeName => s!"Schema root must be a Field, got {typeName}"
  | firstWithPredecessor => "Schema version 1 cannot have a predecessor"
  | wrongPredecessor version shown =>
    s!"Schema version {version} must succeed version {version - 1}, got predecessor {shown}"
  | notSuccessor destination source =>
    s!"Migration destination version {destination} must directly succeed source version {source}"
  | notAStep index typeName => s!"Migration step {index} is a {typeName}, not a MigrationStep"
  | stepNeeds step need => s!"{step} needs {need}"
  | stepDefaultMismatch step violation => s!"{step} default does not fit its field: {violation}"
  | historyNotFirst => "SchemaHistory must start from a version 1 schema"
  | notFromHead source head => s!"Migration source v{source} is not the current head v{head}"
  | noSampleOfCustom name => s!"Cannot generate a value for CustomField '{name}'"
  | noSampleText field => s!"Cannot generate a string for {field}"
  | noInteger low high => s!"NumberField range {low}..{high} holds no integer"
  | unknownField typeName => s!"Unknown field type {typeName}"
  | other message _ => message

/-- Names a document may give to a field type. -/
def typeNames : List String :=
  ["string", "number", "boolean", "null", "any", "email", "uuid"]

/-- The advice that a cause brings itself. -/
def ownHint? : DefinitionError → Option String
  | unknownFormat _ => some "Use one of: email, uuid"
  | customInDocument _ =>
    some "Custom checks are code; define them in Python and attach them after loading."
  | unknownTypeName _ _ => some ("Use one of: " ++ Text.joined ", " typeNames)
  | notFromHead _ _ => some "Build the next migration from history.head."
  | noSampleOfCustom _ => some "Provide documents for custom fields explicitly."
  | noSampleText _ => some "Provide documents for heavily constrained strings explicitly."
  | other _ hint => hint
  | _ => none

/-- Whether `part` occurs in `whole`. -/
def occurs (part whole : List Char) : Bool :=
  match whole with
  | [] => part.isEmpty
  | c :: rest => part.isPrefixOf (c :: rest) || occurs part rest

/-- Advice by the words of a message: on exclusive variants, on required names,
or on versions. -/
def hintByWords? (message : String) : Option String :=
  let lowered := message.toList.map Text.asciiLower
  if occurs "ambiguous".toList lowered || occurs "overlap".toList lowered then
    some ("Make the variants mutually exclusive, for example with " ++
      "a discriminant key holding a LiteralField.")
  else if occurs "required".toList lowered then
    some "Every required name must also be declared in 'fields'."
  else if occurs "version".toList lowered then
    some "A migration destination must be source.successor(...)."
  else none

def hint? (e : DefinitionError) : Option String :=
  match e.ownHint? with
  | some hint => some hint
  | none => hintByWords? e.message

end DefinitionError

/-! ## Steps and migrations -/

namespace StepError

/-- How a single step can fail. -/
inductive Kind where
  | pathNotFound
  | wrongShapeAtPath
  | converterFailed
  | fieldAlreadyExists
  | fieldDoesNotExist
  | missingDefault
  deriving DecidableEq

def Kind.name : Kind → String
  | pathNotFound => "path_not_found"
  | wrongShapeAtPath => "wrong_shape_at_path"
  | converterFailed => "converter_failed"
  | fieldAlreadyExists => "field_already_exists"
  | fieldDoesNotExist => "field_does_not_exist"
  | missingDefault => "missing_default"

def Kind.hint? : Kind → Option String
  | pathNotFound => some "Check the step path against the current shape of the data."
  | wrongShapeAtPath => some "Object keys need a mapping, indices and '*' need a sequence."
  | converterFailed => none
  | fieldAlreadyExists => some "Remove or rename the existing field first."
  | fieldDoesNotExist => some "Migrations never no-op silently; drop the step if the field is gone."
  | missingDefault => some "Pass default=..., or wrap the field in OptionalField or DefaultField."

/-- What lies behind a failed conversion: a fault of the function, or a result that
is not JSON. -/
inductive Origin where
  | fault (f : Fault)
  | notJson (e : NotJson)

end StepError

/-- A step that cannot be applied, and where. -/
structure StepError where
  kind : StepError.Kind
  message : String
  path : Path
  origin : Option StepError.Origin := none

/-- Why a migration of a document is given up. -/
inductive MigrationError where
  | sourceMismatch (violations : List Violation) (version : Int)
  | stepFailed (index : Nat) (cause : StepError) (step : String)
  | drift (differences : List Difference)
  | destinationMismatch (violations : List Violation) (version : Int)

namespace MigrationError

def kindName : MigrationError → String
  | sourceMismatch _ _ => "source_mismatch"
  | stepFailed _ _ _ => "step_failed"
  | drift _ => "schema_drift"
  | destinationMismatch _ _ => "destination_mismatch"

def message : MigrationError → String
  | sourceMismatch violations version =>
    s!"Input does not conform to source schema v{version}: {violations.length} violation(s)"
  | stepFailed index cause step =>
    s!"{step} #{index} failed ({cause.kind.name}): {cause.message}"
  | drift differences =>
    "Migration steps do not produce the declared destination schema: " ++
      Text.joined "; " ((differences.take 5).map Difference.text)
  | destinationMismatch violations version =>
    s!"Migrated data does not conform to destination schema v{version}: " ++
      s!"{violations.length} violation(s)"

def hint? : MigrationError → Option String
  | sourceMismatch _ _ =>
    some "A migration only applies to data valid for the version it migrates from."
  | stepFailed _ cause _ => cause.kind.hint?
  | drift _ => some "Add the missing steps or fix the declared destination schema."
  | destinationMismatch _ _ =>
    some "Check converters and transforms for values they do not handle."

end MigrationError

/-! ## All errors -/

inductive Error where
  | definition (e : DefinitionError)
  | notJson (e : NotJson)
  | badPath (e : BadPath)
  | step (e : StepError)
  | migration (e : MigrationError)
  | nonconforming (violations : List Violation)
  | malformed (e : Json.Malformed) (source : String)
  | assertion (message : String)
  | fault (f : Fault)

/-- The outcome of a computation that may go wrong. -/
abbrev Outcome (α : Type) := Except Error α

namespace Error

/-- Shorthand for an operation on a value of the wrong type. -/
def badType : Error := .fault (.badType "")

/-- The message of a failed check: the first five mismatches and how many more. -/
def nonconformingMessage (violations : List Violation) : String :=
  let lines := Text.joined "; " ((violations.take 5).map Violation.text)
  let more := violations.length - 5
  "Value does not conform to schema: " ++ lines ++
    (if violations.length > 5 then s!"; ... and {more} more" else "")

def message : Error → String
  | definition e => e.message
  | notJson e => e.message
  | badPath e => e.message
  | step e => e.message
  | migration e => e.message
  | nonconforming violations => nonconformingMessage violations
  | malformed e source => e.message source
  | assertion m => m
  | fault f => f.message

def hint? : Error → Option String
  | definition e => e.hint?
  | notJson _ => some NotJson.hint
  | badPath _ => some BadPath.hint
  | step e => e.kind.hint?
  | migration e => e.hint?
  | _ => none

/-- Message and hint together. -/
def text (e : Error) : String :=
  match e.hint? with
  | some hint => if hint = "" then e.message else s!"{e.message}\nHint: {hint}"
  | none => e.message

/-- Whether an error is one of this library's own, not a fault. -/
def isOwn : Error → Bool
  | definition _ | notJson _ | badPath _ | step _ | migration _ | nonconforming _ => true
  | fault (.conversion _) => true
  | malformed _ _ | assertion _ | fault _ => false

end Error
end Lineage
