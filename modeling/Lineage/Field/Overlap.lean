import Lineage.Field.Kinds
import Lineage.Validation

/-
Whether some value could satisfy two fields.

The answer errs on the side of an overlap: where exclusivity cannot be shown, two
fields overlap, so a union whose variants do not overlap never has two that match
one value.  Patterns and flags for whole numbers are not looked into; different
well-known forms exclude each other.  Nothing can be said about custom checks, and
they overlap with nothing; unions that hold them rely on the judgement of each
value.

A literal is held against the other field by validation, which fails where a text meets
a pattern of octets, and with it the analysis.  Questions are asked in order and no
further than the answer needs, so such a failure shows only where its question is
reached.  The names that two objects both require are a set and can be asked for in
any order; here they are in that of the left object.
-/

namespace Lineage
namespace Field

/-- Whether no number lies within both ranges.  A missing bound is no bound. -/
def rangesDisjoint (lowA highA lowB highB : Option Number) : Bool :=
  highA.any (fun high => lowB.any high.lt) || highB.any fun high => lowA.any high.lt

theorem sizeOf_find_lt {name : String} {members : List (Member Field)} {m : Member Field}
    (h : Member.find? name members = some m) : sizeOf m.field < sizeOf members := by
  induction members with
  | nil => simp [Member.find?] at h
  | cons n rest ih =>
    simp only [Member.find?] at h
    split at h
    · cases h
      cases m
      simp only [List.cons.sizeOf_spec, Member.mk.sizeOf_spec]
      omega
    · have := ih h
      simp only [List.cons.sizeOf_spec]
      omega

variable [Externals]

/-- Whether a field accepts a scalar. -/
def acceptsScalar (f : Field) (s : Scalar) : Outcome Bool := do
  return (← f.check {} (.scalar s)).isEmpty

/-- Whether two well-known forms exclude each other. -/
def formatsDisjoint (a b : Option Format) : Bool :=
  match a, b with
  | some f, some g => f != g
  | _, _ => false

def isZeroBound (bound : Option Number) : Bool := bound.any Number.isZero

/-- Whether a tuple of so many items has a length that an array allows. -/
def lengthAllowed (length : Nat) (minItems maxItems : Option Number) : Bool :=
  let n := some (Validation.count length)
  !rangesDisjoint n n minItems maxItems

mutual

/-- Whether some value might satisfy both fields.  Wrappers are looked through
first, those that give a default before those that allow absence, and unions last;
a wrapper on the right changes sides. -/
def mayOverlap (left right : Field) : Outcome Bool :=
  match left, right with
  | .custom _ _, _ => .ok false
  | _, .custom _ _ => .ok false
  | .defaulted inner _, r => mayOverlap inner r
  | l, .defaulted inner _ => mayOverlap l inner
  | .optional inner, r => if r.mayAccept .null then .ok true else mayOverlap inner r
  | l, .optional inner => if l.mayAccept .null then .ok true else mayOverlap inner l
  | .union variants _, r => anyMayOverlap variants r
  | l, .union variants _ => anyMayOverlap variants l
  | .any, _ => .ok true
  | _, .any => .ok true
  | .literal a, .literal b => (Field.literal b).acceptsScalar a
  | .literal a, r => r.acceptsScalar a
  | l, .literal b => l.acceptsScalar b
  | .string minA maxA _ formatA, .string minB maxB _ formatB =>
    .ok (!formatsDisjoint formatA formatB && !rangesDisjoint minA maxA minB maxB)
  | .number minA maxA _, .number minB maxB _ => .ok (!rangesDisjoint minA maxA minB maxB)
  | .boolean, .boolean => .ok true
  | .null, .null => .ok true
  | .object a, .object b => membersMayOverlap a b
  | .array elementA minA maxA, .array elementB minB maxB =>
    if rangesDisjoint minA maxA minB maxB then .ok false
    else if isZeroBound minA && isZeroBound minB then .ok true
    else mayOverlap elementA elementB
  | .tuple a, .tuple b =>
    if a.length == b.length then itemsMayOverlap a b else .ok false
  | .tuple items, .array element minItems maxItems =>
    if lengthAllowed items.length minItems maxItems then allMayOverlap items element
    else .ok false
  | .array element minItems maxItems, .tuple items =>
    if lengthAllowed items.length minItems maxItems then allMayOverlap items element
    else .ok false
  | _, _ => .ok false
termination_by sizeOf left + sizeOf right

/-- Whether some variant might share a value with a field. -/
def anyMayOverlap (variants : List Field) (right : Field) : Outcome Bool :=
  match variants with
  | [] => .ok false
  | f :: rest => do if ← mayOverlap f right then return true else anyMayOverlap rest right
termination_by sizeOf variants + sizeOf right

/-- Whether every item might share a value with a field. -/
def allMayOverlap (items : List Field) (element : Field) : Outcome Bool :=
  match items with
  | [] => .ok true
  | f :: rest => do if ← mayOverlap f element then allMayOverlap rest element else return false
termination_by sizeOf items + sizeOf element

/-- Whether items at the same place might share a value. -/
def itemsMayOverlap (a b : List Field) : Outcome Bool :=
  match a, b with
  | f :: fs, g :: gs => do if ← mayOverlap f g then itemsMayOverlap fs gs else return false
  | _, _ => .ok true
termination_by sizeOf a + sizeOf b

/-- Whether the fields of every name that both objects require might share a value. -/
def membersMayOverlap (a b : List (Member Field)) : Outcome Bool :=
  match a with
  | [] => .ok true
  | ⟨name, required, f⟩ :: rest =>
    match h : Member.find? name b with
    | some m =>
      have := sizeOf_find_lt h
      if required && m.required then do
        if ← mayOverlap f m.field then membersMayOverlap rest b else return false
      else membersMayOverlap rest b
    | none => membersMayOverlap rest b
termination_by sizeOf a + sizeOf b
decreasing_by
  all_goals
    simp only [List.cons.sizeOf_spec, Member.mk.sizeOf_spec]
    omega

end

end Field
end Lineage
