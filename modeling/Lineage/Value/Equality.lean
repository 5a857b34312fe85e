import Lineage.Value.Entries

/-
Two equalities of values.

`equal` is structural equality of JSON values: numbers by value, truth values
apart from numbers, objects in any order of keys.  It refuses what is not JSON.
`sameBy` is loose equality, under which `true` is `1`; it decides when two fields
or schemas count as the same.  Inside a container NaN is itself, for a container
asks whether its parts are the same object before it compares them.
-/

namespace Lineage

/-- Something that JSON cannot hold, by the name of its type, and where it was
found, if known. -/
structure NotJson where
  typeName : String
  path : Option String := none

namespace Value

mutual

/-- Structural equality.  The left value is looked at before the right one, and
parts only while no difference has been found. -/
def equal : Value → Value → Except NotJson Bool
  | .scalar a, right =>
    match right with
    | .scalar b => .ok (a.equal b)
    | .array _ | .object _ => .ok false
    | other => .error { typeName := other.typeName }
  | .array items, right =>
    match right with
    | .array others =>
      if items.length = others.length then equalItems items others else .ok false
    | .scalar _ | .object _ => .ok false
    | other => .error { typeName := other.typeName }
  | .object entries, right =>
    match right with
    | .object others =>
      if Entries.sameKeys entries others then equalEntries entries others else .ok false
    | .scalar _ | .array _ => .ok false
    | other => .error { typeName := other.typeName }
  | .tuple _, _ => .error { typeName := "tuple" }
  | .set _, _ => .error { typeName := "set" }
  | .bytes _, _ => .error { typeName := "bytes" }
  | .thing, _ => .error { typeName := "Thing" }
  | .missing, _ => .error { typeName := "_Missing" }

def equalItems : List Value → List Value → Except NotJson Bool
  | a :: as, b :: bs =>
    match equal a b with
    | .ok true => equalItems as bs
    | other => other
  | _, _ => .ok true

def equalEntries : List (Key × Value) → List (Key × Value) → Except NotJson Bool
  | [], _ => .ok true
  | (k, v) :: rest, others =>
    match Entries.find? k others with
    | none => .ok false
    | some w =>
      match equal v w with
      | .ok true => equalEntries rest others
      | other => other

end

mutual

/-- Loose equality of a value with a copy of it, in which NaN stays what it was: how a
container compares its parts. -/
def copyOf : Value → Value → Bool
  | .scalar a, .scalar b => a.sameBy Number.copyOf b
  | .array a, .array b => itemsCopied a b
  | .tuple a, .tuple b => itemsCopied a b
  | .object a, .object b => Entries.sameKeys a b && entriesCopied a b
  | .set a, .set b =>
    a.length == b.length && a.all fun k => b.any fun l => k.same l
  | .bytes a, .bytes b => a == b
  | .thing, .thing => true
  | .missing, .missing => true
  | _, _ => false

def itemsCopied : List Value → List Value → Bool
  | [], [] => true
  | a :: as, b :: bs => copyOf a b && itemsCopied as bs
  | _, _ => false

def entriesCopied : List (Key × Value) → List (Key × Value) → Bool
  | [], _ => true
  | (k, v) :: rest, others =>
    (match Entries.find? k others with
      | none => false
      | some w => copyOf v w) && entriesCopied rest others

end

/-- Loose equality under a notion of equal numbers, which decides where a value is
itself a number. -/
def sameBy (numbers : Number → Number → Bool) (v w : Value) : Bool :=
  match v, w with
  | .scalar a, .scalar b => a.sameBy numbers b
  | v, w => v.copyOf w

end Value
end Lineage
