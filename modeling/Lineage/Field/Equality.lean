import Lineage.Field
import Lineage.Value.Equality

/-
Equality of fields as definitions.

Attributes are compared loosely, so a bound of `1` is one of `1.0` and a literal
`true` is a literal `1`.  Objects may list their members in any order.  Custom
checks are the same when their identities and names are.
-/

namespace Lineage
namespace Field

def sameBound (numbers : Number → Number → Bool) (a b : Option Number) : Bool :=
  match a, b with
  | none, none => true
  | some m, some n => numbers m n
  | _, _ => false

mutual

/-- Equality under a notion of equal numbers. -/
def sameBy (numbers : Number → Number → Bool) : Field → Field → Bool
  | .string minA maxA patternA formatA, .string minB maxB patternB formatB =>
    sameBound numbers minA minB && sameBound numbers maxA maxB && patternA == patternB &&
      formatA == formatB
  | .number minA maxA flagA, .number minB maxB flagB =>
    sameBound numbers minA minB && sameBound numbers maxA maxB && flagA.sameBy numbers flagB
  | .boolean, .boolean => true
  | .null, .null => true
  | .any, .any => true
  | .literal a, .literal b => a.sameBy numbers b
  | .array a minA maxA, .array b minB maxB =>
    sameBy numbers a b && sameBound numbers minA minB && sameBound numbers maxA maxB
  | .tuple a, .tuple b => sameItemsBy numbers a b
  | .object a, .object b => a.length == b.length && sameMembersBy numbers a b
  | .optional a, .optional b => sameBy numbers a b
  | .defaulted a v, .defaulted b w => sameBy numbers a b && v.sameBy numbers w
  | .union a keyA, .union b keyB => sameItemsBy numbers a b && keyA == keyB
  | .custom f a, .custom g b => f.identity == g.identity && a.sameBy numbers b
  | _, _ => false

def sameItemsBy (numbers : Number → Number → Bool) : List Field → List Field → Bool
  | [], [] => true
  | f :: fs, g :: gs => sameBy numbers f g && sameItemsBy numbers fs gs
  | _, _ => false

def sameMembersBy (numbers : Number → Number → Bool) :
    List (Member Field) → List (Member Field) → Bool
  | [], _ => true
  | ⟨name, required, f⟩ :: rest, others =>
    (match Member.find? name others with
      | some m => required == m.required && sameBy numbers f m.field
      | none => false) && sameMembersBy numbers rest others

end

/-- Equality of two definitions.  A bound that is NaN equals none. -/
def same (a b : Field) : Bool := a.sameBy Number.same b

/-- Equality of a definition with a copy of it, in which NaN stays what it was. -/
def copyOf (a b : Field) : Bool := a.sameBy Number.copyOf b

end Field
end Lineage
