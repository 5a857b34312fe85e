import Lineage.Schema
import Lineage.Step.Application
import Lineage.Field.Difference

/-
Migrations from one version of a schema to the next.

A migration folds its steps over a document and over the root field of its source
at the same time, so that each step sees the field tree which the steps before it
left.  Running a migration also proves the result: the document must conform to the
source before and to the destination after, and the steps must turn the source's
field tree into the declared one.
-/

namespace Lineage

structure Migration where
  source : Schema
  destination : Schema
  steps : List Step
  description : Value := .text ""

/-- What an author lists as a step. -/
inductive StepArg where
  | step (s : Step)
  | other (v : Value)

namespace Migration

/-- All have to be steps; the first that is not is reported with its index. -/
def stepsOf (index : Nat) : List StepArg → Outcome (List Step)
  | [] => .ok []
  | .step s :: rest => (stepsOf (index + 1) rest).map (s :: ·)
  | .other v :: _ => Field.define (.notAStep index v.typeName)

/-- Whether one schema directly succeeds another. -/
def succeeds (destination source : Schema) : Bool :=
  destination.version == source.version + 1 &&
    destination.predecessor.sameBy Number.same (.int source.version)

def make (source destination : Schema) (steps : List StepArg) (description : Value) :
    Outcome Migration :=
  if succeeds destination source then do
    let steps ← stepsOf 0 steps
    return ⟨source, destination, steps, description⟩
  else Field.define (.notSuccessor destination.version source.version)

def version (m : Migration) : Int := m.destination.version

/-! ## Folding the steps -/

/-- A step that fails makes the migration fail, with the step's index. -/
def stage {α : Type} (index : Nat) (s : Step) (outcome : Outcome α) : Outcome α :=
  match outcome with
  | .error (.step e) => .error (.migration (.stepFailed index e s.typeName))
  | other => other

variable [Externals]

/-- Apply steps to a document and to the field that describes it. -/
def applyFrom (index : Nat) : List Step → Value → Field → Outcome Value
  | [], v, _ => .ok v
  | s :: rest, v, f => do
    let v ← stage index s (s.apply v (some f))
    let f ← stage index s (s.transformField f)
    applyFrom (index + 1) rest v f

def apply (m : Migration) (v : Value) : Outcome Value := applyFrom 0 m.steps v m.source.root

/-- Apply the changes of shape alone. -/
def deriveFrom (index : Nat) : List Step → Field → Outcome Field
  | [], f => .ok f
  | s :: rest, f => do
    let f ← stage index s (s.transformField f)
    deriveFrom (index + 1) rest f

/-- The field tree that the steps produce. -/
def derive (m : Migration) : Outcome Field := deriveFrom 0 m.steps m.source.root

/-- The differences between the declared destination and what the steps produce. -/
def drift (m : Migration) : Outcome (List Difference) := do
  let derived ← m.derive
  return Field.compareAt .root m.destination.root derived

/-! ## Running -/

def fails {α : Type} (e : MigrationError) : Outcome α := .error (.migration e)

/-- The document must conform to the source. -/
def checkSource (m : Migration) (v : Value) : Outcome Unit := do
  match ← m.source.validate v with
  | [] => return ()
  | violations => fails (.sourceMismatch violations m.source.version)

def checkDrift (differences : List Difference) : Outcome Unit :=
  if differences.isEmpty then .ok () else fails (.drift differences)

/-- The result must conform to the destination. -/
def checkDestination (m : Migration) (v : Value) : Outcome Unit := do
  match ← m.destination.validate v with
  | [] => return ()
  | violations => fails (.destinationMismatch violations m.destination.version)

/-- Migrate a document, with the drift from elsewhere. -/
def runWith (m : Migration) (drift : Outcome (List Difference)) (v : Value) :
    Outcome Value := do
  m.checkSource v
  let result ← m.apply v
  checkDrift (← drift)
  m.checkDestination result
  return result

/-- Migrate a document. -/
def run (m : Migration) (v : Value) : Outcome Value := m.runWith m.drift v

end Migration
end Lineage
