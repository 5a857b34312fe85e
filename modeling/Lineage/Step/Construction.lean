import Lineage.Step
import Lineage.Validation

/-
Checked construction of steps from what an author hands over.
-/

namespace Lineage
namespace Step

/-- The path that a value stands for. -/
def pathOf (v : Value) : Outcome Path :=
  match Path.ofValue v with
  | .ok p => .ok p
  | .error (.malformed e) => .error (.badPath e)
  | .error .notIterable => .error Error.badType

def needs {α : Type} (step need : String) : Outcome α := Field.define (.stepNeeds step need)

/-- The field of a step that has to be one. -/
def neededField (step : String) (f : FieldArg) : Outcome Field :=
  match f with
  | .field f => .ok f
  | .other _ => needs step "a Field"

def neededFn (step need : String) (f : Option AuthorFn) : Outcome AuthorFn :=
  match f with
  | some f => .ok f
  | none => needs step need

/-- The value that a new key gets: the one handed over, or what the field itself
has for a document without the key. -/
def addedValue (path : Path) (name : Value) (field : Field) (value : Value) : Outcome Value :=
  match value, field with
  | .missing, .defaulted _ v => .ok v
  | .missing, .optional _ => .ok .null
  | .missing, _ => do
    let place ← (path.childOf name).mapError Error.badPath
    Change.fails .missingDefault
      s!"AddField '{name.spoken}' at {path.text} needs a default for a required field" place
  | v, _ => .ok v

variable [Externals]

/-- The value must conform to the field. -/
def makeAdd (path name : Value) (field : FieldArg) (value : Value) : Outcome Step := do
  let path ← pathOf path
  let owner := s!"AddField '{name.spoken}'"
  let field ← neededField owner field
  let value ← addedValue path name field value
  match ← field.check {} value with
  | [] => return .add path name field value
  | first :: _ => Field.define (.stepDefaultMismatch owner first.text)

def makeRemove (path name : Value) : Outcome Step := return .remove (← pathOf path) name

def makeRename (path old new : Value) : Outcome Step := return .rename (← pathOf path) old new

def makeCopy (path name new : Value) : Outcome Step := return .copy (← pathOf path) name new

def makeRetype (path : Value) (field : FieldArg) (converter : Option AuthorFn) :
    Outcome Step := do
  let path ← pathOf path
  let owner := s!"RetypeField at {path.text}"
  let field ← neededField owner field
  let converter ← neededFn owner "a callable" converter
  return .retype path field converter

def makeRestructure (path : Value) (transform : Option AuthorFn) (field : FieldArg) :
    Outcome Step := do
  let path ← pathOf path
  let owner := s!"Restructure at {path.text}"
  let field ← neededField owner field
  let transform ← neededFn owner "a callable" transform
  return .restructure path transform field

/-- The targets, all of which have to be fields; nothing if one is not. -/
def targetFields? : List (Key × FieldArg) → Option (List (Key × Field))
  | [] => some []
  | (name, .field f) :: rest => (targetFields? rest).map ((name, f) :: ·)
  | (_, .other _) :: _ => none

def makeSplit (path name : Value) (targets : List (Key × FieldArg))
    (splitter : Option AuthorFn) : Outcome Step := do
  let path ← pathOf path
  let owner := s!"SplitField '{name.spoken}'"
  match targetFields? (Entries.ofPairs targets) with
  | none | some [] => needs owner "target Fields"
  | some targets => do
    let splitter ← neededFn owner "a splitter" splitter
    return .split path name targets splitter

def makeMerge (path names target : Value) (field : FieldArg) (merger : Option AuthorFn) :
    Outcome Step := do
  let path ← pathOf path
  let owner := s!"MergeFields into '{target.spoken}'"
  match names.items? with
  | none => throw Error.badType
  | some [] => needs owner "source names"
  | some names => do
    let field ← neededField owner field
    let merger ← neededFn owner "a merger" merger
    return .merge path names target field merger

end Step
end Lineage
