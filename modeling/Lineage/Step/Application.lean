import Lineage.Step.Fields
import Lineage.Step.Values

/-
Steps applied to whole documents and whole field trees.
-/

namespace Lineage
namespace Step

/-- Conversions see the target as it is; steps on keys look through its wrappers. -/
def through : Step → Bool
  | retype _ _ _ | restructure _ _ _ => false
  | _ => true

def change (s : Step) : Change := ⟨s.onValue, s.onField, s.through⟩

/-- Apply a step to a document.  A field that describes the document lets the step
pass over what it allows to be absent. -/
def apply (s : Step) (v : Value) (field : Option Field) : Outcome Value :=
  s.change.onValueAt s.path.segments field .root v

variable [Externals]

/-- Apply a step's change of shape to a field tree. -/
def transformField (s : Step) (f : Field) : Outcome Field :=
  s.change.onFieldAt s.path.segments .root f

/-- Only fields can be descended into; at the end of the path a conversion asks
nothing of what it replaces. -/
def transformArg (s : Step) (f : FieldArg) : Outcome Field :=
  match f with
  | .field f => s.transformField f
  | .other v =>
    if !s.path.isRoot then
      Change.fails .wrongShapeAtPath s!"cannot descend into {v.typeName} at $" .root
    else
      match s with
      | retype _ f _ | restructure _ _ f => .ok f
      | _ =>
        Change.fails .wrongShapeAtPath s!"expected an object field at $, got {v.typeName}" .root

end Step
end Lineage
