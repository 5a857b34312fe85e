import Lineage.Field
import Lineage.Json.Printer

/-
Validation of values against fields.

`Field.validate` lists every mismatch with its path, in the order of the document;
an empty list means that the value conforms.  The recursion is on the field.  It
can fail only where a field was built with an attribute that cannot be compared,
where a custom check fails, or where an object has a key that no path can name.
-/

namespace Lineage

variable [Externals]

namespace Validation

/-- How undeclared keys and unions are judged. -/
structure Options where
  /-- Report keys that an object does not declare. -/
  strict : Bool := true
  /-- Report values that several variants of a union match. -/
  unambiguous : Bool := true

abbrev Result := Outcome (List Violation)

def violation (path : Path) (kind : Violation.Kind) (message : String) : Violation :=
  { path := path, kind := kind, message := message }

def typeMismatch (path : Path) (expected : String) (v : Value) : List Violation :=
  [violation path .typeMismatch s!"expected {expected}, got {v.kindName}"]

/-- Nothing is there and something has to be. -/
def absent (path : Path) : List Violation :=
  [violation path .missingRequiredField "value is required"]

/-- A mismatch if a condition holds. -/
def reportIf (condition : Bool) (path : Path) (kind : Violation.Kind) (message : String) :
    List Violation :=
  if condition then [violation path kind message] else []

/-- Whether a number lies below a bound, if there is one. -/
def below (n : Number) (bound : Option Number) : Bool := bound.any n.lt

/-- Whether a number lies above a bound, if there is one. -/
def above (n : Number) (bound : Option Number) : Bool := bound.any fun b => b.lt n

/-- The length of a text or an array as a number. -/
def count (n : Nat) : Number := .int n

/-! ## Scalars -/

def validateText (minLen maxLen : Option Number) (pattern : Option PatternSource)
    (format : Option Format) (path : Path) (s : String) : Result := do
  let length := count s.length
  let lengthText := toString s.length
  let short := reportIf (below length minLen) path .outOfRange
    s!"string length {lengthText} is shorter than {Number.boundText minLen}"
  let long := reportIf (above length maxLen) path .outOfRange
    s!"string length {lengthText} is longer than {Number.boundText maxLen}"
  let described := (Value.text s).describe
  let unmatched ←
    match pattern with
    | none => pure []
    | some p => do
      let found ← p.matchesText s
      pure (reportIf (!found) path .patternMismatch s!"{described} does not match {p.shown}")
  let malformed :=
    match format with
    | none => []
    | some f =>
      reportIf (!f.matchesText s) path .formatMismatch s!"{described} is not a valid {f.name}"
  return short ++ long ++ unmatched ++ malformed

def validateNumber (min max : Option Number) (integral : Bool) (path : Path) (n : Number) :
    List Violation :=
  if integral && !n.isIntegral then typeMismatch path "integer" (.number n)
  else
    let text := n.text Number.proseStyle
    reportIf (below n min) path .outOfRange s!"{text} is less than {Number.boundText min}" ++
      reportIf (above n max) path .outOfRange s!"{text} is greater than {Number.boundText max}"

def validateLiteral (expected : Scalar) (path : Path) (v : Value) : List Violation :=
  let same :=
    match v with
    | .scalar s => expected.equal s
    | _ => false
  reportIf (!same) path .literalMismatch
    s!"expected {(Value.scalar expected).describe}, got {v.describe}"

def validateAny (path : Path) (v : Value) : List Violation :=
  match v.check "$" with
  | .ok () => []
  | .error e => [violation path .typeMismatch e.message]

/-! ## Containers -/

/-- Bounds on the count of items.  A lower bound that is not a number cannot be
compared with. -/
def validateItemCount (minItems maxItems : Option Number) (path : Path) (n : Nat) : Result :=
  match minItems with
  | none => .error Error.badType
  | some _ =>
    .ok (reportIf (below (count n) minItems) path .outOfRange
        s!"array has {n} items, at least {Number.boundText minItems} required" ++
      reportIf (above (count n) maxItems) path .outOfRange
        s!"array has {n} items, at most {Number.boundText maxItems} allowed")

/-- Validate items one after the other, each at its index. -/
def validateEach (item : Path → Value → Result) (path : Path) (index : Nat) :
    List Value → Result
  | [] => .ok []
  | v :: rest => do
    let here ← item (path.index index) v
    let later ← validateEach item path (index + 1) rest
    return here ++ later

/-- A key as the place of its entry. -/
def entryPath (path : Path) (key : Key) : Outcome Path :=
  (path.childOf key.toValue).mapError Error.badPath

def isDeclared (members : List (Member Field)) (key : Key) : Bool :=
  key.text?.any (Member.declares members)

/-- Keys of an object that it does not declare. -/
def undeclared (members : List (Member Field)) (path : Path) : List (Key × Value) → Result
  | [] => .ok []
  | (key, _) :: rest =>
    if isDeclared members key then undeclared members path rest
    else do
      let here ← entryPath path key
      let later ← undeclared members path rest
      return violation here .unexpectedField s!"field '{key.spoken}' is not declared" :: later

def missingMember (path : Path) (name : String) : List Violation :=
  [violation (path.key name) .missingRequiredField s!"required field '{name}' is missing"]

/-! ## Unions -/

/-- The indices of the variants that match. -/
def matchesFrom (index : Nat) : List (List Violation) → List Nat
  | [] => []
  | r :: rest =>
    if r.isEmpty then index :: matchesFrom (index + 1) rest else matchesFrom (index + 1) rest

/-- The result with the fewest mismatches, the first of several. -/
def nearestFrom (index : Nat) (best : Nat × List Violation) :
    List (List Violation) → Nat × List Violation
  | [] => best
  | r :: rest =>
    nearestFrom (index + 1) (if r.length < best.2.length then (index, r) else best) rest

def nearest : List (List Violation) → Nat × List Violation
  | [] => (0, [])
  | r :: rest => nearestFrom 1 (0, r) rest

def indexList (indices : List Nat) : String :=
  "[" ++ Text.joined ", " (indices.map toString) ++ "]"

/-- The judgement on a union from the results of its variants. -/
def judgeUnion (unambiguous : Bool) (path : Path) (results : List (List Violation)) :
    List Violation :=
  match matchesFrom 0 results with
  | [] =>
    let (index, violations) := nearest results
    [{ path := path, kind := .unionNoMatch,
       message := s!"value matches none of {results.length} variants (nearest is variant {index})",
       nearest := violations }]
  | [_] => []
  | several =>
    reportIf unambiguous path .unionAmbiguous s!"value matches variants {indexList several}"

/-- Whether a variant's tag is the one a value carries. -/
def hasTag (key : String) (tag : Value) (variant : Field) : Bool :=
  match variant.tagOf? key, tag with
  | some expected, .scalar s => expected.identical s
  | _, _ => false

def noDiscriminant (path : Path) (key : String) : List Violation :=
  [violation path .unionNoMatch s!"expected an object with discriminant '{key}'"]

def unknownTag (path : Path) (key : String) (tag : Value) : List Violation :=
  [violation (path.key key) .unionNoMatch s!"unknown discriminant value {tag.describe}"]

/-! ## Custom checks -/

/-- The messages in what a check returns: none when it counts as false, itself when
it is a text, else its items. -/
def checkMessages (result : Value) : Outcome (List String) :=
  if !result.truthy then .ok []
  else
    match result with
    | .text s => .ok [s]
    | v =>
      match v.items? with
      | some items => .ok (items.map Value.spoken)
      | none => .error Error.badType

/-- A fault of value or type is a message itself; any other passes through. -/
def runCheck (check : AuthorFn) (v : Value) : Outcome (List String) :=
  match check.run v with
  | .ok result => checkMessages result
  | .error (.badValue m) => .ok [if m = "" then "ValueError" else m]
  | .error (.badType m) => .ok [if m = "" then "TypeError" else m]
  | .error f => .error (.fault f)

def validateCustom (check : AuthorFn) (name : Value) (path : Path) (v : Value) : Result := do
  let messages ← runCheck check v
  return messages.map fun m => violation path .custom s!"{name.spoken}: {m}"

end Validation

namespace Field

open Validation

mutual

/-- The mismatches between a value and a field, at a path. -/
def validate (o : Options) : Field → Path → Value → Result
  | .optional inner, path, v =>
    match v with
    | .missing | .null => .ok []
    | v => validate o inner path v
  | .defaulted inner value, path, v =>
    match v with
    | .missing => validate o inner path value
    | v => validate o inner path v
  | .string minLen maxLen pattern format, path, v =>
    match v with
    | .missing => .ok (absent path)
    | .text s => validateText minLen maxLen pattern format path s
    | v => .ok (typeMismatch path "string" v)
  | .number min max integerOnly, path, v =>
    match v with
    | .missing => .ok (absent path)
    | .number n => .ok (validateNumber min max integerOnly.truthy path n)
    | v => .ok (typeMismatch path "number" v)
  | .boolean, path, v =>
    match v with
    | .missing => .ok (absent path)
    | .bool _ => .ok []
    | v => .ok (typeMismatch path "boolean" v)
  | .null, path, v =>
    match v with
    | .missing => .ok (absent path)
    | .null => .ok []
    | v => .ok (typeMismatch path "null" v)
  | .any, path, v =>
    match v with
    | .missing => .ok (absent path)
    | v => .ok (validateAny path v)
  | .literal value, path, v =>
    match v with
    | .missing => .ok (absent path)
    | v => .ok (validateLiteral value path v)
  | .array element minItems maxItems, path, v =>
    match v with
    | .missing => .ok (absent path)
    | .array items => do
      let counted ← validateItemCount minItems maxItems path items.length
      let inside ← validateEach (validate o element) path 0 items
      return counted ++ inside
    | v => .ok (typeMismatch path "array" v)
  | .tuple fields, path, v =>
    match v with
    | .missing => .ok (absent path)
    | .array items =>
      if items.length = fields.length then validateItems o fields path 0 items
      else
        .ok [violation path .outOfRange s!"expected {fields.length} items, got {items.length}"]
    | v => .ok (typeMismatch path "array" v)
  | .object members, path, v =>
    match v with
    | .missing => .ok (absent path)
    | .object entries => do
      let declared ← validateMembers o members path entries
      let extra ← if o.strict then undeclared members path entries else pure []
      return declared ++ extra
    | v => .ok (typeMismatch path "object" v)
  | .union variants discriminant, path, v =>
    match v with
    | .missing => .ok (absent path)
    | v =>
      match discriminant with
      | none => do
        let results ← validateVariants o variants path v
        return judgeUnion o.unambiguous path results
      | some key =>
        match v with
        | .object entries =>
          match Entries.find? (.text key) entries with
          | some tag => validateTagged o key tag variants path v
          | none => .ok (noDiscriminant path key)
        | _ => .ok (noDiscriminant path key)
  | .custom check name, path, v =>
    match v with
    | .missing => .ok (absent path)
    | v => validateCustom check name path v

/-- Each item against its own field. -/
def validateItems (o : Options) : List Field → Path → (index : Nat) → List Value → Result
  | f :: fields, path, index, v :: rest => do
    let here ← validate o f (path.index index) v
    let later ← validateItems o fields path (index + 1) rest
    return here ++ later
  | _, _, _, _ => .ok []

/-- Each declared name: its entry if there is one, else the lack of it if it is
required, else what stands for it. -/
def validateMembers (o : Options) :
    List (Member Field) → Path → List (Key × Value) → Result
  | [], _, _ => .ok []
  | ⟨name, required, f⟩ :: rest, path, entries => do
    let here ←
      match Entries.find? (.text name) entries with
      | some v => validate o f (path.key name) v
      | none =>
        if required then .ok (missingMember path name)
        else if f.acceptsAbsence then validate o f (path.key name) .missing
        else .ok []
    let later ← validateMembers o rest path entries
    return here ++ later

/-- The results of all variants. -/
def validateVariants (o : Options) :
    List Field → Path → Value → Outcome (List (List Violation))
  | [], _, _ => .ok []
  | f :: rest, path, v => do
    let here ← validate o f path v
    let later ← validateVariants o rest path v
    return here :: later

/-- The variant whose tag the value carries decides. -/
def validateTagged (o : Options) (key : String) (tag : Value) :
    List Field → Path → Value → Result
  | [], path, _ => .ok (unknownTag path key tag)
  | f :: rest, path, v =>
    if hasTag key tag f then validate o f path v else validateTagged o key tag rest path v

end

/-- The mismatches of a value at the root. -/
def check (f : Field) (o : Options) (v : Value) : Result := f.validate o .root v

/-- The index of the variant that a tag selects.  Only a union with a discriminant
has tags. -/
def variantFor (f : Field) (tag : Value) : Outcome (Option Nat) :=
  match f with
  | .union variants (some key) => .ok (variants.findIdx? (hasTag key tag))
  | _ => .error (.fault .noAttribute)

end Field

namespace FieldArg

/-- Only fields can be validated against; for anything else only absence has an
answer. -/
def validate (o : Validation.Options) (f : FieldArg) (path : Path) (v : Value) :
    Validation.Result :=
  match f, v with
  | field f, v => f.validate o path v
  | other _, .missing => .ok (Validation.absent path)
  | other _, _ => .error Error.badType

end FieldArg
end Lineage
