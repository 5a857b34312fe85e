import Lineage.Field.Description
import Lineage.Value.Equality

/-
Differences between field trees.

The comparison looks at every attribute at every depth and ignores the order of
names.  Each difference carries the path where it occurs.  An empty list says that
the trees describe the same shape.
-/

namespace Lineage
namespace Field

def difference (path : Path) (reason expected actual : String) : List Difference :=
  [{ path := path, reason := reason, expected := expected, actual := actual }]

def differenceIf (condition : Bool) (path : Path) (reason expected actual : String) :
    List Difference :=
  if condition then difference path reason expected actual else []

def typeDiffers (path : Path) (expected actual : Field) : List Difference :=
  difference path "field type differs" expected.describe actual.describe

def boundDiffers (a b : Option Number) : Bool :=
  match a, b with
  | none, none => false
  | some m, some n => !m.same n
  | _, _ => true

def compareBound (path : Path) (name : String) (expected actual : Option Number) :
    List Difference :=
  differenceIf (boundDiffers expected actual) path (name ++ " differs")
    (Number.boundText expected) (Number.boundText actual)

/-- The spelling of an attribute that is a text or not set. -/
def textShown (text : Option String) : String := text.getD "None"

def patternShown (pattern : Option PatternSource) : String :=
  match pattern with
  | some p => p.toValue.spoken
  | none => "None"

def isTruth : Value → Bool
  | .bool _ => true
  | _ => false

/-- A flag differs in value, or in being a truth value. -/
def compareFlag (path : Path) (name : String) (expected actual : Value) : List Difference :=
  differenceIf (!expected.sameBy Number.same actual || isTruth expected != isTruth actual) path
    (name ++ " differs") expected.spoken actual.spoken

def truthText (b : Bool) : String := if b then "True" else "False"

/-- Two values are not equal, or are not such as equality is asked of. -/
def valuesDiffer (a b : Value) : Bool :=
  match a.equal b with
  | .ok same => !same
  | .error _ => true

/-- Names that only the actual object has. -/
def unexpected (expected : List (Member Field)) (path : Path) (actual : List (Member Field)) :
    List Difference :=
  (actual.filter fun m => !Member.declares expected m.name).flatMap fun m =>
    difference (path.key m.name) "unexpected field" "<absent>" m.field.describe

/-- The segment of a variant in the path of a difference. -/
def variantSegment (index : Nat) : String := s!"<variant {index}>"

mutual

/-- The differences between an expected and an actual field tree. -/
def compareAt : Path → (expected actual : Field) → List Difference
  | path, .string minA maxA patternA formatA, .string minB maxB patternB formatB =>
    compareBound path "min_len" minA minB ++ compareBound path "max_len" maxA maxB ++
      differenceIf (patternA != patternB) path "pattern differs" (patternShown patternA)
        (patternShown patternB) ++
      differenceIf (formatA != formatB) path "format differs"
        (textShown (formatA.map Format.name)) (textShown (formatB.map Format.name))
  | path, .number minA maxA flagA, .number minB maxB flagB =>
    compareBound path "min" minA minB ++ compareBound path "max" maxA maxB ++
      compareFlag path "integer_only" flagA flagB
  | _, .boolean, .boolean => []
  | _, .null, .null => []
  | _, .any, .any => []
  | path, .literal a, .literal b =>
    differenceIf (!a.equal b) path "literal differs" (Value.scalar a).describe
      (Value.scalar b).describe
  | path, .array a minA maxA, .array b minB maxB =>
    compareBound path "min_items" minA minB ++ compareBound path "max_items" maxA maxB ++
      compareAt (path.child .wildcard) a b
  | path, .tuple a, .tuple b =>
    if a.length = b.length then compareItems path 0 a b
    else difference path "tuple length differs" (toString a.length) (toString b.length)
  | path, .object a, .object b => compareMembers path a b ++ unexpected a path b
  | path, .optional a, .optional b => compareAt path a b
  | path, .defaulted a v, .defaulted b w =>
    differenceIf (valuesDiffer v w) path "default differs" v.describe w.describe ++
      compareAt path a b
  | path, .union a keyA, .union b keyB =>
    differenceIf (keyA != keyB) path "discriminant differs" (textShown keyA) (textShown keyB) ++
      if a.length = b.length then compareVariants path 0 a b
      else difference path "variant count differs" (toString a.length) (toString b.length)
  | path, .custom f a, .custom g b =>
    differenceIf (f.identity != g.identity || !a.sameBy Number.same b) path
      "custom check differs" a.spoken b.spoken
  | path, expected, actual => typeDiffers path expected actual
termination_by structural _ expected => expected

def compareItems : Path → Nat → (expected actual : List Field) → List Difference
  | path, index, f :: fs, g :: gs =>
    compareAt (path.index index) f g ++ compareItems path (index + 1) fs gs
  | _, _, _, _ => []
termination_by structural _ _ expected => expected

def compareVariants : Path → Nat → (expected actual : List Field) → List Difference
  | path, index, f :: fs, g :: gs =>
    compareAt (path.key (variantSegment index)) f g ++ compareVariants path (index + 1) fs gs
  | _, _, _, _ => []
termination_by structural _ _ expected => expected

/-- The expected names, each against the actual member of that name. -/
def compareMembers : Path → (expected actual : List (Member Field)) → List Difference
  | _, [], _ => []
  | path, ⟨name, required, f⟩ :: rest, actual =>
    (match Member.find? name actual with
      | none => difference (path.key name) "field missing" f.describe "<absent>"
      | some m =>
        differenceIf (required != m.required) (path.key name) "required differs"
            (truthText required) (truthText m.required) ++
          compareAt (path.key name) f m.field) ++
      compareMembers path rest actual
termination_by structural _ expected => expected

end

end Field

namespace FieldArg

/-- The differences between what may not be fields: values of one type show
none. -/
def compare (path : Path) (expected actual : FieldArg) : List Difference :=
  match expected, actual with
  | field a, field b => Field.compareAt path a b
  | a, b =>
    if a.typeName = b.typeName then []
    else Field.difference path "field type differs" a.describe b.describe

/-- Whether two field trees describe the same shape. -/
def equivalent (expected actual : FieldArg) : Bool := (compare .root expected actual).isEmpty

end FieldArg
end Lineage
