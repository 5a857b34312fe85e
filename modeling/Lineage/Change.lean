import Lineage.Field.Construction

/-
Changes at the end of a path, over values and over field trees.

A change says what happens to the value at the end of a path and what happens to
the field there.  The containers on the way are rebuilt around it and all else
stays as it is.  A value may be walked together with the field that describes it:
where the field lets a place be absent or null and the value has nothing there, the
value stays as it is.
-/

namespace Lineage

structure Change where
  /-- The new value, from the old one, the field that describes it if that is
  known, and its place. -/
  onValue : Value → Option Field → Path → Outcome Value
  /-- The new field, from the old one and its place. -/
  onField : Field → Path → Outcome Field
  /-- Whether optional and default wrappers at the end of the path are looked
  through as those on the way are. -/
  through : Bool

namespace Change

def fails {α : Type} (kind : StepError.Kind) (message : String) (path : Path) : Outcome α :=
  .error (.step { kind := kind, message := message, path := path })

/-! ## Parts of containers -/

/-- Update every item of a list, knowing its index. -/
def updateEach {α : Type} (update : Nat → α → Outcome α) (index : Nat) :
    List α → Outcome (List α)
  | [] => .ok []
  | a :: rest => do
    let a ← update index a
    let rest ← updateEach update (index + 1) rest
    return a :: rest

/-- Update the item at an index of a list. -/
def updateItem {α : Type} (update : α → Outcome α) : (index : Nat) → List α → Outcome (List α)
  | _, [] => .ok []
  | 0, a :: rest => do
    let a ← update a
    return a :: rest
  | index + 1, a :: rest => do
    let rest ← updateItem update index rest
    return a :: rest

/-- The index that a segment selects in an array. -/
def indexAt (segment : Segment) (length : Nat) (at_ : Path) : Outcome Nat :=
  match segment.resolve length with
  | .ok (some i) => .ok i
  | .ok none =>
    fails .pathNotFound s!"index '{segment.text}' not found at {at_.text} (length {length})" at_
  | .error _ =>
    fails .wrongShapeAtPath
      s!"expected an index or selector at {at_.text}, got '{segment.text}'" at_

/-! ## Values -/

/-- Whether the field of a value lets it be null. -/
def isSkipped (field : Option Field) (v : Value) : Bool :=
  match field, v with
  | some f, .null => f.acceptsAbsence
  | _, _ => false

/-- The field of an entry. -/
def memberField (field : Option Field) (name : String) : Option Field :=
  match field with
  | some (.object members) => (Member.find? name members).map Member.field
  | _ => none

/-- The field of an item. -/
def itemField (field : Option Field) (index : Nat) : Option Field :=
  match field with
  | some (.array element _ _) => some element
  | some (.tuple items) => items[index]?
  | _ => none

/-- Nothing lies inside a scalar, and what JSON cannot hold is no place at all. -/
def noContainer (v : Value) (at_ : Path) : Outcome Value :=
  match v.kind? with
  | some kind => fails .wrongShapeAtPath s!"cannot descend into {kind.name} at {at_.text}" at_
  | none => .error (.notJson { typeName := v.typeName })

/-- Change a value at the end of a path; `field` describes the value and `at_` is
its place. -/
def onValueAt (c : Change) : List Segment → Option Field → Path → Value → Outcome Value
  | [], field, at_, v =>
    if !c.through then c.onValue v field at_
    else if isSkipped field v then .ok v
    else c.onValue v (field.map Field.unwrapped) at_
  | segment :: rest, field, at_, v =>
    if isSkipped field v then .ok v
    else
      let field := field.map Field.unwrapped
      match v with
      | .object entries =>
        let name := segment.text
        match Entries.find? (.text name) entries with
        | some child => do
          let child ← onValueAt c rest (memberField field name) (at_.key name) child
          return .object (Entries.put (.text name) child entries)
        | none =>
          if (memberField field name).any Field.acceptsAbsence then .ok v
          else fails .pathNotFound s!"key '{name}' not found at {at_.text}" (at_.key name)
      | .array items =>
        match segment with
        | .wildcard => do
          let items ← updateEach
            (fun i item => onValueAt c rest (itemField field i) (at_.index i) item) 0 items
          return .array items
        | segment => do
          let i ← indexAt segment items.length at_
          let items ← updateItem (onValueAt c rest (itemField field i) (at_.index i)) i items
          return .array items
      | v => noContainer v at_

/-! ## Fields -/

variable [Externals]

/-- A default around a changed field must conform to it. -/
def refit (inner : Field) (value : Value) (at_ : Path) : Outcome Field :=
  match Field.makeDefaulted (.field inner) value with
  | .error (.definition e) =>
    fails .wrongShapeAtPath s!"default at {at_.text} no longer fits its field: {e.message}" at_
  | other => other

/-- Change the field inside all wrappers and put them around it again; a default is
changed along with its field. -/
def throughWrappers (core : Field → Outcome Field)
    (onDefault : Field → Value → Outcome Value) (at_ : Path) : Field → Outcome Field
  | .optional inner => do
    let inner ← throughWrappers core onDefault at_ inner
    return .optional inner
  | .defaulted inner value => do
    let changed ← throughWrappers core onDefault at_ inner
    let value ← onDefault inner value
    refit changed value at_
  | f => core f

/-- Go one segment down a field without wrappers and change what is there. -/
def descend (update : Path → Field → Outcome Field) (segment : Segment) (at_ : Path) :
    Field → Outcome Field
  | .object members =>
    let name := segment.text
    match Member.find? name members with
    | some previous => do
      let child ← update (at_.key name) previous.field
      return .object (Member.replaced previous child members)
    | none =>
      fails .pathNotFound s!"field '{name}' is not declared at {at_.text}" (at_.key name)
  | .array element minItems maxItems =>
    match segment with
    | .wildcard => do
      let element ← update (at_.child .wildcard) element
      return .array element minItems maxItems
    | _ =>
      fails .wrongShapeAtPath
        s!"array elements at {at_.text} share one field; address them with '*'" at_
  | .tuple items =>
    match segment with
    | .wildcard => do
      let items ← updateEach (fun i f => update (at_.index i) f) 0 items
      return .tuple items
    | segment => do
      let i ← indexAt segment items.length at_
      let items ← updateItem (update (at_.index i)) i items
      return .tuple items
  | f => fails .wrongShapeAtPath s!"cannot descend into {f.typeName} at {at_.text}" at_

/-- Change a field tree at the end of a path; `at_` is the place of the tree. -/
def onFieldAt (c : Change) : List Segment → Path → Field → Outcome Field
  | [], at_, f =>
    if c.through then
      throughWrappers (fun f => c.onField f at_)
        (fun inner v => c.onValueAt [] (some inner) at_ v) at_ f
    else c.onField f at_
  | segment :: rest, at_, f =>
    throughWrappers (descend (fun place child => onFieldAt c rest place child) segment at_)
      (fun inner v => c.onValueAt (segment :: rest) (some inner) at_ v) at_ f

end Change
end Lineage
