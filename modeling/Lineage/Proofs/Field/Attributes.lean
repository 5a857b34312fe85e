import Lineage.Proofs.Field.Tree
import Lineage.Proofs.Number.Order

/-
Conditions on the attributes of one field, to be asked of every field of a tree.
-/

namespace Lineage
namespace Field

/-- Not a check that an author supplies. -/
def NotCustom : Field → Prop
  | custom _ _ => False
  | _ => True

/-- A bound, if there is one, is not NaN. -/
def RealBound (bound : Option Number) : Prop := ∀ n, bound = some n → n.isReal = true

theorem realBound_none : RealBound none := by
  intro n hn
  cases hn

/-- No bound is NaN. -/
def HasRealBounds : Field → Prop
  | string low high _ _ | number low high _ | array _ low high => RealBound low ∧ RealBound high
  | _ => True

/-- Attributes are of the types that fields declare: a pattern is a text, a flag is
a truth value, and an array has a least count. -/
def HasDeclaredTypes : Field → Prop
  | string _ _ pattern _ => ∀ p, pattern = some p → ∃ s, p = .text s
  | number _ _ integerOnly => ∃ b, integerOnly = .bool b
  | array _ low _ => ∃ n, low = some n
  | _ => True

/-- A pattern is a text, which can be used on texts. -/
def HasTextPattern : Field → Prop
  | string _ _ pattern _ => ∀ p, pattern = some p → ∃ s, p = .text s
  | _ => True

/-- An array has a least count, which lengths can be compared with. -/
def HasLeastCount : Field → Prop
  | array _ low _ => ∃ n, low = some n
  | _ => True

/-- No variant of a union is told apart by a number, of which one value may be
written as an integer and as a double. -/
def HasPlainTags : Field → Prop
  | union variants (some key) => ∀ f ∈ variants, ∀ n, f.tagOf? key ≠ some (.number n)
  | _ => True

/-- What an object need not hold accepts absence. -/
def OmitsOnlyAbsent : Field → Prop
  | object members => ∀ m ∈ members, m.required = false → m.field.acceptsAbsence = true
  | _ => True

/-- What an object requires does not accept absence. -/
def RequiresOnlyPresent : Field → Prop
  | object members => ∀ m ∈ members, m.required = true → m.field.acceptsAbsence = false
  | _ => True

def FiniteBound (bound : Option Number) : Prop := ∀ n, bound = some n → n.isFinite = true

theorem realBound_of_finite {bound : Option Number} (h : FiniteBound bound) : RealBound bound :=
  fun n hn => Number.isReal_of_isFinite (h n hn)

/-- Bounds and literals are no infinities and not NaN. -/
def HasFiniteNumbers : Field → Prop
  | string low high _ _ | number low high _ | array _ low high => FiniteBound low ∧ FiniteBound high
  | literal value => ∀ n, value = .number n → n.isFinite = true
  | _ => True

/-- The flag for whole numbers is a truth value. -/
def HasTruthFlag : Field → Prop
  | number _ _ integerOnly => ∃ b, integerOnly = .bool b
  | _ => True

theorem HasDeclaredTypes.textPattern {f : Field} (h : f.HasDeclaredTypes) : f.HasTextPattern := by
  cases f with
  | string => exact h
  | _ => exact trivial

theorem HasDeclaredTypes.leastCount {f : Field} (h : f.HasDeclaredTypes) : f.HasLeastCount := by
  cases f with
  | array => exact h
  | _ => exact trivial

end Field
end Lineage
