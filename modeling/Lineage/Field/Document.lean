import Lineage.Field.Construction

/-
Field documents: fields as JSON values.

A name of a type stands for a field of that type without attributes, an array with
one item for an array field, any other array for a tuple, and an object for an
object field whose names are all required unless they accept absence.  Whatever
these forms cannot say is an object with a tag under `$`, which takes only the keys
that belong to its tag; an object with other keys is an object field even if it
has a `$`.
-/

namespace Lineage

/-- Tags of documents. -/
inductive Tag where
  | string
  | number
  | boolean
  | null
  | any
  | literal
  | array
  | tuple
  | object
  | optional
  | defaulted
  | union
  deriving DecidableEq

namespace Tag

/-- The key that holds a tag. -/
def key : Key := .text "$"

def name : Tag → String
  | string => "string"
  | number => "number"
  | boolean => "boolean"
  | null => "null"
  | any => "any"
  | literal => "literal"
  | array => "array"
  | tuple => "tuple"
  | object => "object"
  | optional => "optional"
  | defaulted => "default"
  | union => "union"

def all : List Tag :=
  [string, number, boolean, null, any, literal, array, tuple, object, optional, defaulted, union]

def ofName? (s : String) : Option Tag := all.find? fun t => t.name == s

/-- The keys that a tag takes besides itself. -/
def options : Tag → List String
  | string => ["min_len", "max_len", "pattern", "format"]
  | number => ["min", "max", "integer_only"]
  | boolean | null | any => []
  | literal => ["value"]
  | array => ["element", "min_items", "max_items"]
  | tuple => ["items"]
  | object => ["fields", "required"]
  | optional => ["type"]
  | defaulted => ["type", "default"]
  | union => ["variants", "discriminant"]

/-- Whether every key besides the tag is one that the tag takes. -/
def takes (t : Tag) (entries : List (Key × Value)) : Bool :=
  entries.all fun e => e.1.same key || e.1.text?.any t.options.contains

/-- The tag of an object that is read as a tagged document. -/
def of? (entries : List (Key × Value)) : Option Tag :=
  match Entries.find? key entries with
  | some (.text s) => (ofName? s).filter fun t => t.takes entries
  | _ => none

end Tag

namespace Field

/-! ## Writing -/

def entry (name : String) (v : Value) : Key × Value := (.text name, v)

def boundEntry (name : String) (bound : Option Number) : List (Key × Value) :=
  bound.toList.map fun n => entry name (.number n)

def boundValue (bound : Option Number) : Value := (bound.map Value.number).getD .null

def tagged (t : Tag) (options : List (Key × Value)) : Value :=
  .object ((Tag.key, .text t.name) :: options)

/-- A type by its name when no attribute is set, else with its attributes. -/
def scalarDocument (t : Tag) (options : List (Key × Value)) : Value :=
  if options.isEmpty then .text t.name else tagged t options

def stringDocument (minLen maxLen : Option Number) (pattern : Option PatternSource)
    (format : Option Format) : Value :=
  match minLen, maxLen, pattern, format with
  | none, none, none, some f => .text f.name
  | _, _, _, _ =>
    scalarDocument .string
      (boundEntry "min_len" minLen ++ boundEntry "max_len" maxLen ++
        (pattern.toList.map fun p => entry "pattern" p.toValue) ++
        format.toList.map fun f => entry "format" (.text f.name))

def numberDocument (min max : Option Number) (integral : Bool) : Value :=
  scalarDocument .number
    (boundEntry "min" min ++ boundEntry "max" max ++
      if integral then [entry "integer_only" (.bool true)] else [])

def arrayDocument (element : Value) (minItems maxItems : Option Number) : Value :=
  if minItems.any Number.isZero && maxItems.isNone then .array [element]
  else
    tagged .array ([entry "element" element, entry "min_items" (boundValue minItems)] ++
      boundEntry "max_items" maxItems)

def tupleDocument (items : List Value) : Value :=
  match items with
  | [_] => tagged .tuple [entry "items" (.array items)]
  | _ => .array items

/-- Whether exactly those names are required whose fields do not accept absence. -/
def isDerived (members : List (Member Field)) : Bool :=
  members.all fun m => m.required == !m.field.acceptsAbsence

def sortedNames (names : List String) : List String := names.mergeSort fun a b => decide (a ≤ b)

def objectDocument (members : List (Member Field)) (fields : List (Key × Value)) : Value :=
  if Member.declares members "$" || !isDerived members then
    tagged .object
      [entry "fields" (.object fields),
        entry "required" (.array ((sortedNames (Member.requiredNames members)).map .text))]
  else .object fields

mutual

/-- The document of a field.  Custom checks have none. -/
def toDocument : Field → Outcome Value
  | .string minLen maxLen pattern format => .ok (stringDocument minLen maxLen pattern format)
  | .number min max integerOnly => .ok (numberDocument min max integerOnly.truthy)
  | .boolean => .ok (.text Tag.boolean.name)
  | .null => .ok (.text Tag.null.name)
  | .any => .ok (.text Tag.any.name)
  | .literal value => .ok (tagged .literal [entry "value" (.scalar value)])
  | .array element minItems maxItems => do
    let d ← toDocument element
    return arrayDocument d minItems maxItems
  | .tuple items => do
    let ds ← toDocuments items
    return tupleDocument ds
  | .object members => do
    let ds ← memberDocuments members
    return objectDocument members ds
  | .optional inner => do
    let d ← toDocument inner
    return tagged .optional [entry "type" d]
  | .defaulted inner value => do
    let d ← toDocument inner
    return tagged .defaulted [entry "type" d, entry "default" value]
  | .union variants discriminant => do
    let ds ← toDocuments variants
    return tagged .union (entry "variants" (.array ds) ::
      discriminant.toList.map fun key => entry "discriminant" (.text key))
  | .custom _ name => define (.customInDocument name.spoken)

def toDocuments : List Field → Outcome (List Value)
  | [] => .ok []
  | f :: rest => do
    let d ← toDocument f
    let ds ← toDocuments rest
    return d :: ds

def memberDocuments : List (Member Field) → Outcome (List (Key × Value))
  | [] => .ok []
  | ⟨name, _, f⟩ :: rest => do
    let d ← toDocument f
    let ds ← memberDocuments rest
    return entry name d :: ds

end

/-! ## Reading -/

/-- The field that a name of a type stands for. -/
def ofTypeName (at_ name : String) : Outcome Field :=
  match Format.ofName? name with
  | some f => .ok (.string none none none (some f))
  | none =>
    match Tag.ofName? name with
    | some .string => .ok (.string none none none none)
    | some .number => .ok (.number none none (.bool false))
    | some .boolean => .ok .boolean
    | some .null => .ok .null
    | some .any => .ok .any
    | _ => define (.unknownTypeName name at_)

/-- An option that may be left out. -/
def optionOr (entries : List (Key × Value)) (name : String) (otherwise : Value) : Value :=
  (Entries.find? (.text name) entries).getD otherwise

/-- A value in a document must be a JSON value. -/
def jsonOption (at_ : String) (v : Value) : Outcome Value :=
  match v.check at_ with
  | .ok () => .ok v
  | .error e => define (.valueNotJson e)

theorem sizeOf_entry_lt {key : Key} {entries : List (Key × Value)} {v : Value}
    (h : Entries.find? key entries = some v) : sizeOf v < sizeOf entries := by
  induction entries with
  | nil => simp [Entries.find?] at h
  | cons e rest ih =>
    obtain ⟨k, w⟩ := e
    simp only [Entries.find?] at h
    split at h
    · cases h
      simp only [List.cons.sizeOf_spec, Prod.mk.sizeOf_spec]
      omega
    · have := ih h
      simp only [List.cons.sizeOf_spec]
      omega

/-- The place of an item, of an entry and of a variant in a document. -/
def itemPlace (at_ : String) (index : Nat) : String := s!"{at_}.{index}"

def entryPlace (at_ : String) (key : Key) : String := s!"{at_}.{key.spoken}"

def variantPlace (at_ : String) (index : Nat) : String := s!"{at_} (variant {index})"

variable [Externals]

mutual

/-- The field that a document describes; `at_` is its place in complaints. -/
def ofDocument (at_ : String) (document : Value) : Outcome Field :=
  match document with
  | .text name => ofTypeName at_ name
  | .array items => do
    let fields ← ofDocuments (itemPlace at_) 0 items
    match fields with
    | [one] => makeArray one (.int 0) .null
    | fields => makeTuple fields
  | .object entries =>
    match Tag.of? entries with
    | some t => ofTagged at_ t entries
    | none => do
      let fields ← ofEntries at_ entries
      makeObject fields .null
  | v => define (.notADocument at_ v.typeName)
termination_by sizeOf document

/-- The fields that documents describe, as attributes of another; `place` tells
where each of them is. -/
def ofDocuments (place : Nat → String) (index : Nat) (documents : List Value) :
    Outcome (List FieldArg) :=
  match documents with
  | [] => .ok []
  | d :: rest => do
    let f ← ofDocument (place index) d
    let fs ← ofDocuments place (index + 1) rest
    return .field f :: fs
termination_by sizeOf documents

def ofEntries (at_ : String) (entries : List (Key × Value)) :
    Outcome (List (Key × FieldArg)) :=
  match entries with
  | [] => .ok []
  | (key, d) :: rest => do
    let f ← ofDocument (entryPlace at_ key) d
    let fs ← ofEntries at_ rest
    return (key, .field f) :: fs
termination_by sizeOf entries

/-- The field that a document with a tag describes. -/
def ofTagged (at_ : String) (t : Tag) (entries : List (Key × Value)) : Outcome Field :=
  let needs {α : Type} (option : String) : Outcome α :=
    define (.missingOption t.name at_ option)
  match t with
  | .string =>
    makeString (optionOr entries "min_len" .null) (optionOr entries "max_len" .null)
      (optionOr entries "pattern" .null) (optionOr entries "format" .null)
  | .number =>
    makeNumber (optionOr entries "min" .null) (optionOr entries "max" .null)
      (optionOr entries "integer_only" (.bool false))
  | .boolean => .ok .boolean
  | .null => .ok .null
  | .any => .ok .any
  | .literal =>
    match Entries.find? (.text "value") entries with
    | none => needs "value"
    | some v => do makeLiteral (← jsonOption at_ v)
  | .array =>
    match h : Entries.find? (.text "element") entries with
    | none => needs "element"
    | some d => do
      have := sizeOf_entry_lt h
      let element ← ofDocument (at_ ++ ".*") d
      makeArray (.field element) (optionOr entries "min_items" (.int 0))
        (optionOr entries "max_items" .null)
  | .tuple =>
    match h : Entries.find? (.text "items") entries with
    | none => needs "items"
    | some (.array items) => do
      have : sizeOf items < sizeOf entries := by
        have := sizeOf_entry_lt h
        simp only [Value.array.sizeOf_spec] at this
        omega
      makeTuple (← ofDocuments (itemPlace at_) 0 items)
    | some _ => define (.optionNotList t.name at_ "items")
  | .object =>
    match h : Entries.find? (.text "fields") entries with
    | none => needs "fields"
    | some (.object fields) => do
      have : sizeOf fields < sizeOf entries := by
        have := sizeOf_entry_lt h
        simp only [Value.object.sizeOf_spec] at this
        omega
      let fields ← ofEntries at_ fields
      makeRequiring fields (optionOr entries "required" .null)
    | some _ => define (.fieldsNotMapping at_)
  | .optional =>
    match h : Entries.find? (.text "type") entries with
    | none => needs "type"
    | some d => do
      have := sizeOf_entry_lt h
      let inner ← ofDocument at_ d
      makeOptional (.field inner)
  | .defaulted =>
    match h : Entries.find? (.text "type") entries with
    | none => needs "type"
    | some d => do
      have := sizeOf_entry_lt h
      let inner ← ofDocument at_ d
      match Entries.find? (.text "default") entries with
      | none => needs "default"
      | some v => do makeDefaulted (.field inner) (← jsonOption at_ v)
  | .union =>
    match h : Entries.find? (.text "variants") entries with
    | none => needs "variants"
    | some (.array variants) => do
      have : sizeOf variants < sizeOf entries := by
        have := sizeOf_entry_lt h
        simp only [Value.array.sizeOf_spec] at this
        omega
      let variants ← ofDocuments (variantPlace at_) 0 variants
      makeUnion variants (optionOr entries "discriminant" .null)
    | some _ => define (.optionNotList t.name at_ "variants")
termination_by sizeOf entries

end

end Field
end Lineage
