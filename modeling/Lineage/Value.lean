import Lineage.Number

/-
Values of documents.

A JSON value is a scalar, an array or an object with text keys.  Author functions
and defaults may also hand over things that JSON cannot hold (tuples, sets,
octets, foreign things, the marker of absence, keys that are no text), so `Value`
has room for them and `Value.check` keeps them out.

Values do not tell which object they are.  NaN stands for one object and so does a
foreign thing: a container takes each for itself, though NaN equals no number.
-/

namespace Lineage

inductive Scalar where
  | null
  | bool (b : Bool)
  | number (n : Number)
  | text (s : String)
  deriving DecidableEq

/-- What can be a key of an object: of all values, those that never change. -/
inductive Key where
  | scalar (s : Scalar)
  | tuple (items : List Key)
  | bytes (text : String)
  | thing
  | missing

inductive Value where
  | scalar (s : Scalar)
  | array (items : List Value)
  | object (entries : List (Key × Value))
  | tuple (items : List Value)
  | set (items : List Key)
  | bytes (text : String)
  /-- An object of a foreign type. -/
  | thing
  /-- The marker of a value that is not there. -/
  | missing

/-- The six kinds of JSON values. -/
inductive Kind where
  | null
  | boolean
  | number
  | string
  | array
  | object
  deriving DecidableEq

namespace Kind

def name : Kind → String
  | null => "null"
  | boolean => "boolean"
  | number => "number"
  | string => "string"
  | array => "array"
  | object => "object"

def all : List Kind := [null, boolean, number, string, array, object]

end Kind

namespace Scalar

def kind : Scalar → Kind
  | null => .null
  | bool _ => .boolean
  | number _ => .number
  | text _ => .string

def typeName : Scalar → String
  | null => "NoneType"
  | bool _ => "bool"
  | number (.int _) => "int"
  | number (.float _) => "float"
  | text _ => "str"

/-- Equality of kind and value: `1` is `1.0` but not `true`. -/
def equal : Scalar → Scalar → Bool
  | null, null => true
  | bool a, bool b => a == b
  | number a, number b => a.same b
  | text a, text b => a == b
  | _, _ => false

/-- Truth values count as the numbers 0 and 1. -/
def asNumber? : Scalar → Option Number
  | bool b => some (.int (if b then 1 else 0))
  | number n => some n
  | _ => none

/-- Loose equality under a notion of equal numbers: `true` is `1`. -/
def sameBy (numbers : Number → Number → Bool) (a b : Scalar) : Bool :=
  match a.asNumber?, b.asNumber? with
  | some m, some n => numbers m n
  | none, none => a.equal b
  | _, _ => false

/-- Equality that also tells an integer from a double: how tags are told apart. -/
def identical : Scalar → Scalar → Bool
  | number (.int a), number (.int b) => a == b
  | number (.float a), number (.float b) => (Number.float a).same (.float b)
  | number _, number _ => false
  | a, b => a.equal b

/-- What counts as true: all but null, false, zero and the empty text. -/
def truthy : Scalar → Bool
  | null => false
  | bool b => b
  | number n => !n.isZero
  | text s => s != ""

end Scalar

namespace Key

@[match_pattern] abbrev text (s : String) : Key := .scalar (.text s)

def text? : Key → Option String
  | text s => some s
  | _ => none

mutual

/-- Two keys name the same entry: loose equality, so `1` and `true` do, under which
each key is itself. -/
def same : Key → Key → Bool
  | .scalar a, .scalar b => a.sameBy Number.copyOf b
  | .tuple a, .tuple b => sameItems a b
  | .bytes a, .bytes b => a == b
  | .thing, .thing => true
  | .missing, .missing => true
  | _, _ => false

def sameItems : List Key → List Key → Bool
  | [], [] => true
  | a :: as, b :: bs => same a b && sameItems as bs
  | _, _ => false

end

mutual

def toValue : Key → Value
  | .scalar s => .scalar s
  | .tuple items => .tuple (toValues items)
  | .bytes s => .bytes s
  | .thing => .thing
  | .missing => .missing

def toValues : List Key → List Value
  | [] => []
  | k :: rest => toValue k :: toValues rest

end

end Key

namespace Value

@[match_pattern] abbrev null : Value := .scalar .null
@[match_pattern] abbrev bool (b : Bool) : Value := .scalar (.bool b)
@[match_pattern] abbrev number (n : Number) : Value := .scalar (.number n)
@[match_pattern] abbrev int (n : Int) : Value := .scalar (.number (.int n))
@[match_pattern] abbrev text (s : String) : Value := .scalar (.text s)

/-- The kind of a JSON value; nothing for what JSON cannot hold. -/
def kind? : Value → Option Kind
  | scalar s => some s.kind
  | array _ => some .array
  | object _ => some .object
  | tuple _ | set _ | bytes _ | thing | missing => none

def typeName : Value → String
  | scalar s => s.typeName
  | array _ => "list"
  | object _ => "dict"
  | tuple _ => "tuple"
  | set _ => "set"
  | bytes _ => "bytes"
  | thing => "Thing"
  | missing => "_Missing"

/-- The kind's name where there is one, else the type's. -/
def kindName (v : Value) : String :=
  match v.kind? with
  | some k => k.name
  | none => v.typeName

def isNumber : Value → Bool
  | number _ => true
  | _ => false

def text? : Value → Option String
  | text s => some s
  | _ => none

/-- What counts as true: empty containers and the marker of absence do not. -/
def truthy : Value → Bool
  | scalar s => s.truthy
  | array items | tuple items => !items.isEmpty
  | object entries => !entries.isEmpty
  | set items => !items.isEmpty
  | bytes s => s != ""
  | thing => true
  | missing => false

mutual

/-- A value as a key.  Arrays, objects and sets change and cannot be keys. -/
def toKey? : Value → Option Key
  | .scalar s => some (.scalar s)
  | .tuple items => (toKeys? items).map .tuple
  | .bytes s => some (.bytes s)
  | .thing => some .thing
  | .missing => some .missing
  | .array _ | .object _ | .set _ => none

def toKeys? : List Value → Option (List Key)
  | [] => some []
  | v :: rest => do
    let k ← toKey? v
    let ks ← toKeys? rest
    return k :: ks

end

end Value
end Lineage
