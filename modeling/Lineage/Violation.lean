import Lineage.Path

/-
Mismatches between a value and a field, each with its place in the value.
-/

namespace Lineage

namespace Violation

/-- What is wrong with a value at a place. -/
inductive Kind where
  | typeMismatch
  | missingRequiredField
  | unexpectedField
  | outOfRange
  | patternMismatch
  | formatMismatch
  | literalMismatch
  | unionNoMatch
  | unionAmbiguous
  | custom
  deriving DecidableEq

def Kind.name : Kind → String
  | typeMismatch => "type_mismatch"
  | missingRequiredField => "missing_required_field"
  | unexpectedField => "unexpected_field"
  | outOfRange => "out_of_range"
  | patternMismatch => "pattern_mismatch"
  | formatMismatch => "format_mismatch"
  | literalMismatch => "literal_mismatch"
  | unionNoMatch => "union_no_match"
  | unionAmbiguous => "union_ambiguous"
  | custom => "custom"

end Violation

/-- A mismatch.  One that says that no variant of a union matches carries the
mismatches of the nearest variant. -/
structure Violation where
  path : Path
  kind : Violation.Kind
  message : String
  nearest : List Violation := []

namespace Violation

/-- The mismatch on one line. -/
def text (v : Violation) : String := s!"{v.path.text}: {v.kind.name}: {v.message}"

end Violation

/-- One point where two field trees differ, both sides as text. -/
structure Difference where
  path : Path
  reason : String
  expected : String
  actual : String
  deriving DecidableEq

namespace Difference

def text (d : Difference) : String :=
  s!"{d.path.text}: {d.reason} (expected {d.expected}, got {d.actual})"

end Difference
end Lineage
