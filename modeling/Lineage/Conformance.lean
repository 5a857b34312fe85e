import Lineage.Schema
import Lineage.Settings

/-
Judgements on values: whether they conform to a schema or a field, and assertions
about their mismatches.

A schema carries its own flags.  For a field on its own the settings stand in.
-/

namespace Lineage

/-- What a value can conform to. -/
inductive Contract where
  | schema (s : Schema)
  | field (f : Field)

namespace Conformance

/-- The options for a field on its own; a caller may choose strictness. -/
def options (settings : Settings) (strict : Option Bool) : Validation.Options :=
  { strict := strict.getD settings.strictObjects, unambiguous := settings.unambiguousUnions }

variable [Externals]

def violations (settings : Settings) (contract : Contract) (v : Value) : Validation.Result :=
  match contract with
  | .schema s => s.validate v
  | .field f => f.check (options settings none) v

/-- Fail with all mismatches of a value with a schema. -/
def check (s : Schema) (v : Value) : Outcome Unit := do
  match ← s.validate v with
  | [] => return ()
  | violations => throw (.nonconforming violations)

def lines (violations : List Violation) : String :=
  Text.joined "\n" (violations.map Violation.text)

/-- Assert that a value conforms, under the settings of tests. -/
def assertConforms (contract : Contract) (v : Value) : Outcome Unit := do
  match ← violations Settings.forTests contract v with
  | [] => return ()
  | violations => throw (.assertion ("Value does not conform:\n" ++ lines violations))

/-- The first mismatch of a kind, at a path if one is asked for. -/
def find (kind : Violation.Kind) (path : Option String) (violations : List Violation) :
    Outcome Violation :=
  let wanted := fun (v : Violation) =>
    v.kind == kind && path.all fun p => v.path.text == p
  match violations.find? wanted with
  | some v => .ok v
  | none =>
    let place :=
      match path with
      | some p => if p = "" then "" else s!" at {p}"
      | none => ""
    .error (.assertion (s!"No {kind.name} violation{place} in:\n" ++ lines violations))

end Conformance
end Lineage
