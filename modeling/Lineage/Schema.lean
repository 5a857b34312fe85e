import Lineage.Field.Construction
import Lineage.Field.Equality
import Lineage.Validation

/-
Versioned schemas: one version of a data contract each.

Version 1 has no predecessor.  Every later version is the destination of a
migration and names the version before it, so the versions of a contract form a
chain.  A name and the two flags may be any values; they count as set by their
truth.
-/

namespace Lineage

structure Schema where
  version : Int
  root : Field
  name : Value := .null
  /-- Report keys that an object does not declare. -/
  strict : Value := .bool true
  /-- Report values that several variants of a union match. -/
  unambiguousUnions : Value := .bool true
  /-- The version that this one succeeds, null for version 1. -/
  predecessor : Value := .null

namespace Schema

/-- Whether a value is a whole number, which truth values are not. -/
def wholeNumber? (v : Value) : Option Int :=
  match v with
  | .int n => some n
  | _ => none

/-- The versions count from 1, and each names the one before it. -/
def make (version : Value) (root : FieldArg) (name strict unambiguousUnions predecessor : Value) :
    Outcome Schema :=
  match (wholeNumber? version).filter fun n => 1 ≤ n with
  | none => Field.define (.badVersion version.shown)
  | some n =>
    match root with
    | .other v => Field.define (.rootNotAField v.typeName)
    | .field root =>
      if n = 1 then
        match predecessor with
        | .null => .ok ⟨n, root, name, strict, unambiguousUnions, predecessor⟩
        | _ => Field.define .firstWithPredecessor
      else if predecessor.sameBy Number.same (.int (n - 1)) then
        .ok ⟨n, root, name, strict, unambiguousUnions, predecessor⟩
      else Field.define (.wrongPredecessor n predecessor.shown)

/-- Version 1 of a contract. -/
def initial (root : FieldArg) (name strict unambiguousUnions : Value) : Outcome Schema :=
  make (.int 1) root name strict unambiguousUnions .null

/-- A flag unless it is null, in which case the other one. -/
def flagOr (flag otherwise : Value) : Value :=
  match flag with
  | .null => otherwise
  | flag => flag

/-- The version after this one.  A flag that is null is inherited. -/
def successor (s : Schema) (root : FieldArg) (strict unambiguousUnions : Value) :
    Outcome Schema :=
  make (.int (s.version + 1)) root s.name (flagOr strict s.strict)
    (flagOr unambiguousUnions s.unambiguousUnions) (.int s.version)

/-- The name, or `schema` where there is none, and the version. -/
def label (s : Schema) : String :=
  let name := if s.name.truthy then s.name.spoken else "schema"
  s!"{name} v{s.version}"

/-- How values are validated against a schema. -/
def options (s : Schema) : Validation.Options :=
  { strict := s.strict.truthy, unambiguous := s.unambiguousUnions.truthy }

variable [Externals]

/-- The mismatches between a value and a schema. -/
def validate (s : Schema) (v : Value) : Validation.Result := s.root.check s.options v

/-- Equality under a notion of equal numbers. -/
def sameBy (numbers : Number → Number → Bool) (a b : Schema) : Bool :=
  a.version == b.version && a.root.sameBy numbers b.root && a.name.sameBy numbers b.name &&
    a.strict.sameBy numbers b.strict &&
    a.unambiguousUnions.sameBy numbers b.unambiguousUnions &&
    a.predecessor.sameBy numbers b.predecessor

/-- Equality in which NaN stays what it was: what holds of a schema and itself. -/
def copyOf (a b : Schema) : Bool := a.sameBy Number.copyOf b

end Schema
end Lineage
