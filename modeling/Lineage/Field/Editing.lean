import Lineage.Field.Construction

/-
Changes to object and tuple fields, by names and indices that an author hands over.

Each change gives a new field and leaves the old one as it was.  A name may be any
value: one that cannot be a key is refused at once, and one that is no text is
refused where a field would have to carry it.
-/

namespace Lineage
namespace Field

/-- A name as a key. -/
def keyOf (name : Value) : Outcome Key :=
  match name.toKey? with
  | some key => .ok key
  | none => .error Error.badType

/-- The text of a name that a field is to carry. -/
def textOf (name : Key) : Outcome String :=
  match name.text? with
  | some s => .ok s
  | none => define (.nameNotText name.toValue.shown)

/-- Whether an object declares a name. -/
def declaresKey (members : List (Member Field)) (name : Key) : Bool :=
  name.text?.any (Member.declares members)

def noAttribute {α : Type} : Outcome α := .error (.fault .noAttribute)

/-- The complaint about a name that is not there. -/
def noName {α : Type} (name : Key) : Outcome α := .error (.fault (.noKey name.text?))

def fieldOf (f : FieldArg) : Outcome Field :=
  match f with
  | .field f => .ok f
  | .other _ => noAttribute

def withField (f : Field) (name : Value) (child : FieldArg) : Outcome Field :=
  match f with
  | .object members => do
    let key ← keyOf name
    let child ← fieldOf child
    let name ← textOf key
    return .object (Member.withField name child members)
  | _ => noAttribute

def withoutField (f : Field) (name : Value) : Outcome Field :=
  match f with
  | .object members => do
    match (← keyOf name).text? with
    | some name => return .object (Member.withoutField name members)
    | none => return f
  | _ => noAttribute

/-- Only a name that is there is changed. -/
def renamed (f : Field) (old new : Value) : Outcome Field :=
  match f, old with
  | .object members, .text old =>
    if Member.declares members old then do
      let new ← textOf (← keyOf new)
      return .object (Member.renamed old new members)
    else return f
  | .object _, _ => return f
  | _, _ => noAttribute

def replaced (f : Field) (name : Value) (child : FieldArg) : Outcome Field :=
  match f with
  | .object members => do
    let key ← keyOf name
    match key.text?.bind fun name => Member.find? name members with
    | none => noName key
    | some previous => do
      let child ← fieldOf child
      return .object (Member.replaced previous child members)
  | _ => noAttribute

def withItemAt (f : Field) (index : Int) (item : FieldArg) : Outcome Field :=
  match f with
  | .tuple items => withItem items index item
  | _ => noAttribute

/-- Whether a name is declared; only objects can tell. -/
def containsName (f : Field) (name : Value) : Outcome Bool :=
  match f with
  | .object members => do return declaresKey members (← keyOf name)
  | _ => .error Error.badType

end Field
end Lineage
