import Lineage.Field.Overlap

/-
Checked construction of fields from what an author or a document hands over.

Each function takes the attributes as values, checks them in a fixed order and
reports the first that is not allowed.
-/

namespace Lineage

namespace Key

/-- Whether one key comes before another, nothing when they cannot be compared.
Truth values count as numbers. -/
def before? : Key → Key → Option Bool
  | .scalar (.text a), .scalar (.text b) => some (decide (a < b))
  | .scalar a, .scalar b =>
    match a.asNumber?, b.asNumber? with
    | some m, some n => some (m.lt n)
    | _, _ => none
  | .bytes a, .bytes b => some (decide (a < b))
  | _, _ => none

/-- Insert a key after all that do not come after it. -/
def insertSorted? (k : Key) : List Key → Option (List Key)
  | [] => some [k]
  | l :: rest => do
    if ← k.before? l then return k :: l :: rest
    else return l :: (← insertSorted? k rest)

/-- The keys in order, nothing when some cannot be compared. -/
def sorted? (keys : List Key) : Option (List Key) :=
  keys.foldlM (fun sorted k => insertSorted? k sorted) []

/-- The keys without repetitions, first ones kept. -/
def distinct (keys : List Key) : List Key :=
  keys.foldl (fun kept k => if kept.any (·.same k) then kept else kept ++ [k]) []

end Key

namespace Member

/-- The members of an object with a field for a name.  A name that is new is
required unless its field accepts absence; a name that was required stays so. -/
def withField (name : String) (child : Field) (members : List (Member Field)) :
    List (Member Field) :=
  let was := (find? name members).any Member.required
  put ⟨name, was || !child.acceptsAbsence, child⟩ members

def withoutField (name : String) (members : List (Member Field)) : List (Member Field) :=
  members.filter fun m => m.name != name

/-- Add a member after the others.  If its name is there already, the earlier one
keeps its place, takes the later field, and is required if either is. -/
def merge (m : Member Field) (members : List (Member Field)) : List (Member Field) :=
  let was := (find? m.name members).any Member.required
  put ⟨m.name, m.required || was, m.field⟩ members

/-- Give a name to another member's name and leave it in its place. -/
def renamed (old new : String) (members : List (Member Field)) : List (Member Field) :=
  (members.map fun m => if m.name = old then { m with name := new } else m).foldl
    (fun ms m => merge m ms) []

/-- Swap the field of a name that is there.  It becomes optional or required with
the new field where the two differ in that; otherwise it stays as declared. -/
def replaced (previous : Member Field) (child : Field) (members : List (Member Field)) :
    List (Member Field) :=
  let required :=
    if child.acceptsAbsence then false
    else if previous.field.acceptsAbsence then true
    else previous.required
  put ⟨previous.name, required, child⟩ members

/-- Members of which those are required whose fields do not accept absence. -/
def derived (fields : List (String × Field)) : List (Member Field) :=
  fields.map fun (name, f) => ⟨name, !f.acceptsAbsence, f⟩

end Member

namespace Field

def define {α : Type} (e : DefinitionError) : Outcome α := .error (.definition e)

/-! ## Attributes -/

/-- A bound: null for none, or a number, which may have to be at least zero. -/
def bound? (owner : String) (allowNegative : Bool) (v : Value) : Outcome (Option Number) :=
  match v with
  | .null => .ok none
  | .number n =>
    if !allowNegative && n.lt (.int 0) then
      define (.boundNegative owner (n.text Number.proseStyle))
    else .ok (some n)
  | v => define (.boundNotNumber owner v.shown)

/-- Two bounds in order. -/
def bounds? (owner : String) (allowNegative : Bool) (low high : Value) :
    Outcome (Option Number × Option Number) := do
  let low ← bound? owner allowNegative low
  let high ← bound? owner allowNegative high
  match low, high with
  | some l, some h =>
    if h.lt l then
      define (.boundsCrossed owner (l.text Number.proseStyle) (h.text Number.proseStyle))
    else return (low, high)
  | _, _ => return (low, high)

def format? (v : Value) : Outcome (Option Format) :=
  match v with
  | .null => .ok none
  | v =>
    match v.text?.bind Format.ofName? with
    | some f => .ok (some f)
    | none => define (.unknownFormat v.shown)

variable [Externals]

/-- A pattern that compiles.  Only texts and octets can be patterns at all. -/
def pattern? (v : Value) : Outcome (Option PatternSource) :=
  let checked := fun (p : PatternSource) =>
    match p.compile with
    | .ok _ => .ok (some p)
    | .error .hugeCount => .error (.fault .overflow)
    | .error .clashingFlags => .error (.fault (.badValue ""))
    | .error flaw => define (.badPattern p.shown (flaw.message p.chars))
  match v with
  | .null => .ok none
  | .text s => checked (.text s)
  | .bytes s => checked (.bytes s)
  | _ => .error Error.badType

def child? (owner : String) (f : FieldArg) : Outcome Field :=
  match f with
  | .field f => .ok f
  | .other v => define (.notAField owner v.typeName)

def children? (owner : String) : List FieldArg → Outcome (List Field)
  | [] => .ok []
  | f :: rest => do
    let f ← child? owner f
    let fs ← children? owner rest
    return f :: fs

/-! ## Fields -/

def makeString (minLen maxLen pattern format : Value) : Outcome Field := do
  let (low, high) ← bounds? "StringField" false minLen maxLen
  let format ← format? format
  let pattern ← pattern? pattern
  return .string low high pattern format

def makeNumber (min max integerOnly : Value) : Outcome Field := do
  let (low, high) ← bounds? "NumberField" true min max
  return .number low high integerOnly

def makeLiteral (v : Value) : Outcome Field :=
  match v with
  | .scalar s => .ok (.literal s)
  | .array _ | .object _ => define .literalNotScalar
  | v => define (.literalNotJson { typeName := v.typeName })

def makeArray (element : FieldArg) (minItems maxItems : Value) : Outcome Field := do
  let element ← child? "ArrayField" element
  let (low, high) ← bounds? "ArrayField" false minItems maxItems
  return .array element low high

def makeTuple (items : List FieldArg) : Outcome Field := do
  let items ← children? "TupleField" items
  return .tuple items

def makeOptional (inner : FieldArg) : Outcome Field := do
  let inner ← child? "OptionalField" inner
  return .optional inner

/-- The default must be a JSON value and conform to the inner field. -/
def makeDefaulted (inner : FieldArg) (v : Value) : Outcome Field := do
  let inner ← child? "DefaultField" inner
  match v.check "$" with
  | .error e => define (.defaultNotJson e)
  | .ok () =>
    match ← inner.check {} v with
    | [] => return .defaulted inner v
    | first :: _ => define (.defaultMismatch first.text)

/-- The names of an object are texts, each with a field. -/
def memberFields? : List (Key × FieldArg) → Outcome (List (String × Field))
  | [] => .ok []
  | (key, f) :: rest =>
    match key.text? with
    | none => define (.nameNotText key.toValue.shown)
    | some name => do
      let f ← child? "ObjectField" f
      let fs ← memberFields? rest
      return (name, f) :: fs

/-- The keys that a value yields. -/
def keysOf? (v : Value) : Outcome (List Key) :=
  match v.items?.bind Value.toKeys? with
  | some keys => .ok keys
  | none => .error Error.badType

def isNameIn (fields : List (String × Field)) (key : Key) : Bool :=
  key.text?.any fun name => fields.any (·.1 == name)

/-- Members with the names that are required, all of which have to be declared. -/
def withRequired (fields : List (String × Field)) (required : List Key) :
    Outcome (List (Member Field)) :=
  let unknown := (Key.distinct required).filter fun k => !isNameIn fields k
  match Key.sorted? unknown with
  | none => .error Error.badType
  | some [] =>
    .ok (fields.map fun (name, f) => ⟨name, required.any (·.same (.text name)), f⟩)
  | some keys =>
    define (.undeclaredRequired (Value.array (Key.toValues keys)).shown)

/-- Without a list of required names, those are required whose fields do not accept
absence. -/
def makeObject (fields : List (Key × FieldArg)) (required : Value) : Outcome Field := do
  let fields ← memberFields? (Entries.ofPairs fields)
  match required with
  | .null => return .object (Member.derived fields)
  | required => do
    let members ← withRequired fields (← keysOf? required)
    return .object members

/-- As `makeObject`, with the list of required names read before the fields are
looked at. -/
def makeRequiring (fields : List (Key × FieldArg)) (required : Value) : Outcome Field :=
  match required with
  | .null => makeObject fields .null
  | required => do
    let _ ← keysOf? required
    makeObject fields required

/-- As `makeRequiring`, from fields under their names.  The list of required names
is itself called `required`, so no field can have that name. -/
def makeNamed (fields : List (Key × FieldArg)) (required : Value) : Outcome Field :=
  if fields.any (fun f => f.1.text?.isNone || f.1.same (.text "required")) then
    .error Error.badType
  else makeRequiring fields required

/-- The first of some fields that might share a value with a field. -/
def overlapsWith? (f : Field) (index : Nat) : List Field → Outcome (Option Nat)
  | [] => .ok none
  | g :: rest => do
    if ← mayOverlap f g then return some index else overlapsWith? f (index + 1) rest

/-- The first two variants that might share a value. -/
def firstOverlap (index : Nat) : List Field → Outcome (Option (Nat × Nat))
  | [] => .ok none
  | f :: rest => do
    match ← overlapsWith? f (index + 1) rest with
    | some later => return some (index, later)
    | none => firstOverlap (index + 1) rest

/-- Each variant must require the discriminant as a literal of its own; `seen` are
the literals of the variants before. -/
def checkTags (discriminant : Value) (index : Nat) (seen : List Scalar) :
    List Field → Outcome Unit
  | [] => .ok ()
  | f :: rest =>
    let untagged := define (.untaggedVariant index discriminant.spoken)
    match f.members?, discriminant.toKey? with
    | some _, none => .error Error.badType
    | none, _ => untagged
    | some _, some key =>
      match key.text?.bind fun name => f.tagOf? name with
      | none => untagged
      | some tag =>
        if seen.any tag.identical then define (.repeatedTag tag.shown)
        else checkTags discriminant (index + 1) (tag :: seen) rest

def makeUnion (variants : List FieldArg) (discriminant : Value) : Outcome Field := do
  if variants.length < 2 then define .tooFewVariants
  else
    let variants ← children? "UnionField" variants
    match discriminant with
    | .null =>
      match ← firstOverlap 0 variants with
      | some (i, j) => define (.overlappingVariants i j)
      | none => return .union variants none
    | discriminant => do
      checkTags discriminant 0 [] variants
      return .union variants discriminant.text?

def makeCustom (check : Option AuthorFn) (name : Value) : Outcome Field :=
  match check with
  | some f => .ok (.custom f name)
  | none => define .checkNotCallable

/-- A tuple with another field at an index, which may count from the back. -/
def withItem (items : List Field) (index : Int) (item : FieldArg) : Outcome Field :=
  let i := if index < 0 then index + items.length else index
  match inRange? i items.length with
  | none => .error (.fault .noIndex)
  | some i => do
    let item ← child? "TupleField" item
    return .tuple (items.set i item)

end Field
end Lineage
