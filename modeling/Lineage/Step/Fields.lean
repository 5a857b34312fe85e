import Lineage.Step

/-
What steps do to field trees: to the object field that declares the keys, or to
the field of the value that is converted.
-/

namespace Lineage
namespace Step

/-- Declare targets after the others, none of which may be declared already. -/
def declareAll (at_ : Path) :
    List (Key × Field) → List (Member Field) → Outcome (List (Member Field))
  | [], members => .ok members
  | (name, f) :: rest, members => do
    mustBeUndeclared name members at_
    let text ← Field.textOf name
    declareAll at_ rest (Member.withField text f members)

/-- Withdraw names one after the other, each of which has to be declared. -/
def withdrawAll (at_ : Path) :
    List Value → List (Member Field) → Outcome (List (Member Field))
  | [], members => .ok members
  | name :: rest, members => do
    let name ← Field.keyOf name
    let m ← memberOf name members at_
    withdrawAll at_ rest (Member.withoutField m.name members)

/-- The new field at the end of the path. -/
def onField (s : Step) (f : Field) (at_ : Path) : Outcome Field :=
  match s with
  | add _ name field _ => do
    let members ← membersOf f at_
    let members ← declareAll at_ [(← Field.keyOf name, field)] members
    return .object members
  | remove _ name => do
    let members ← membersOf f at_
    let m ← memberOf (← Field.keyOf name) members at_
    return .object (Member.withoutField m.name members)
  | rename _ old new => do
    let members ← membersOf f at_
    let m ← memberOf (← Field.keyOf old) members at_
    let new ← Field.keyOf new
    mustBeUndeclared new members at_
    return .object (Member.renamed m.name (← Field.textOf new) members)
  | copy _ name new => do
    let members ← membersOf f at_
    let m ← memberOf (← Field.keyOf name) members at_
    let new ← Field.keyOf new
    mustBeUndeclared new members at_
    return .object (Member.put { m with name := ← Field.textOf new } members)
  | retype _ field _ => .ok field
  | restructure _ _ field => .ok field
  | split _ name targets _ => do
    let members ← membersOf f at_
    let m ← memberOf (← Field.keyOf name) members at_
    let members ← declareAll at_ targets (Member.withoutField m.name members)
    return .object members
  | merge _ names target field _ => do
    let members ← membersOf f at_
    let members ← withdrawAll at_ names members
    let members ← declareAll at_ [(← Field.keyOf target, field)] members
    return .object members

end Step
end Lineage
