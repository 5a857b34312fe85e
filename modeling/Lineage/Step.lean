import Lineage.Change
import Lineage.Field.Editing
import Lineage.Json.Printer

/-
Steps of migrations.

A step has a path and a change at its end.  Steps on keys have the path of the
object that holds the keys; steps that convert a value have the path of the value.
Each step changes values and field trees alike, and never what it is given.
-/

namespace Lineage

inductive Step where
  /-- Add a key with a value. -/
  | add (path : Path) (name : Value) (field : Field) (value : Value)
  /-- Remove a key. -/
  | remove (path : Path) (name : Value)
  /-- Rename a key in its place. -/
  | rename (path : Path) (old new : Value)
  /-- Copy a key under a new name. -/
  | copy (path : Path) (name new : Value)
  /-- Convert a value and declare its new field. -/
  | retype (path : Path) (field : Field) (converter : AuthorFn)
  /-- Transform a value in any way and declare the shape of the result. -/
  | restructure (path : Path) (transform : AuthorFn) (field : Field)
  /-- Split a key into several, one part each. -/
  | split (path : Path) (name : Value) (targets : List (Key × Field)) (splitter : AuthorFn)
  /-- Merge several keys into one. -/
  | merge (path : Path) (names : List Value) (target : Value) (field : Field)
      (merger : AuthorFn)

namespace Step

def path : Step → Path
  | add p _ _ _ | remove p _ | rename p _ _ | copy p _ _ | retype p _ _
  | restructure p _ _ | split p _ _ _ | merge p _ _ _ _ => p

def typeName : Step → String
  | add _ _ _ _ => "AddField"
  | remove _ _ => "RemoveField"
  | rename _ _ _ => "RenameField"
  | copy _ _ _ => "CopyField"
  | retype _ _ _ => "RetypeField"
  | restructure _ _ _ => "Restructure"
  | split _ _ _ _ => "SplitField"
  | merge _ _ _ _ _ => "MergeFields"

def namesShown (names : List Value) : String := (Value.array names).shown

def targetsShown (targets : List (Key × Field)) : String :=
  namesShown (targets.map fun target => target.1.toValue)

/-- The names that a step is about. -/
def subject : Step → String
  | add _ name _ _ => s!" '{name.spoken}'"
  | remove _ name => s!" '{name.spoken}'"
  | rename _ old new => s!" '{old.spoken}' -> '{new.spoken}'"
  | copy _ name new => s!" '{name.spoken}' -> '{new.spoken}'"
  | retype _ _ _ => ""
  | restructure _ _ _ => ""
  | split _ name targets _ => s!" '{name.spoken}' -> {targetsShown targets}"
  | merge _ names target _ _ => s!" {namesShown names} -> '{target.spoken}'"

def describe (s : Step) : String := s!"{s.typeName}{s.subject} at {s.path.text}"

/-! ## Refusals -/

/-- The entries of a value that has to be an object. -/
def entriesOf (v : Value) (at_ : Path) : Outcome (List (Key × Value)) :=
  match v with
  | .object entries => .ok entries
  | v =>
    Change.fails .wrongShapeAtPath s!"expected an object at {at_.text}, got {v.describe}" at_

/-- The members of a field that has to be an object field. -/
def membersOf (f : Field) (at_ : Path) : Outcome (List (Member Field)) :=
  match f with
  | .object members => .ok members
  | f =>
    Change.fails .wrongShapeAtPath
      s!"expected an object field at {at_.text}, got {f.typeName}" at_

/-- Whether the field of an object lets a name be absent. -/
def absenceAllowed (field : Option Field) (name : Key) : Bool :=
  match field, name.text? with
  | some (.object members), some name =>
    (Member.find? name members).any fun m => m.field.acceptsAbsence
  | _, _ => false

/-- Fail at the place of a name, which has to be fit for a path. -/
def failsAtName {α : Type} (kind : StepError.Kind) (problem : String) (name : Key)
    (at_ : Path) : Outcome α := do
  let place ← (at_.childOf name.toValue).mapError Error.badPath
  Change.fails kind s!"field '{name.spoken}' {problem} at {at_.text}" place

def doesNotExist {α : Type} (name : Key) (at_ : Path) : Outcome α :=
  failsAtName .fieldDoesNotExist "does not exist" name at_

def alreadyExists {α : Type} (name : Key) (at_ : Path) : Outcome α :=
  failsAtName .fieldAlreadyExists "already exists" name at_

/-- A name must not be among the entries of an object yet. -/
def mustBeNew (name : Key) (entries : List (Key × Value)) (at_ : Path) : Outcome Unit :=
  if Entries.contains name entries then alreadyExists name at_ else .ok ()

/-- A name must not be declared by an object field yet. -/
def mustBeUndeclared (name : Key) (members : List (Member Field)) (at_ : Path) :
    Outcome Unit :=
  if Field.declaresKey members name then alreadyExists name at_ else .ok ()

/-- The member of a name that has to be declared. -/
def memberOf (name : Key) (members : List (Member Field)) (at_ : Path) :
    Outcome (Member Field) :=
  match name.text?.bind fun n => Member.find? n members with
  | some m => .ok m
  | none => doesNotExist name at_

/-! ## Author functions -/

/-- Run a conversion.  The function may refuse the value, and its result must be a
JSON value. -/
def convert (run : Value → Except Fault Value) (label : String) (v : Value) (at_ : Path) :
    Outcome Value :=
  let failed := fun (message : String) (origin : StepError.Origin) =>
    Except.error (Error.step
      { kind := .converterFailed, message := message, path := at_, origin := some origin })
  match run v with
  | .error f =>
    if f.isRefusal then
      failed s!"{label} failed on {v.describe} at {at_.text}: {f.message}" (.fault f)
    else .error (.fault f)
  | .ok result =>
    match result.check "$" with
    | .ok () => .ok result
    | .error e =>
      failed s!"{label} returned a non-JSON value at {at_.text}: {e.message}" (.notJson e)

/-- A tuple of parts stands for a list of them. -/
def partsOf (v : Value) : Value :=
  match v with
  | .tuple items => .array items
  | v => v

end Step
end Lineage
