import Lineage.Step

/-
What steps do to values: to the object that holds the keys, or to the value that
is converted.

A key that its object field lets be absent is passed over where it is absent.
-/

namespace Lineage
namespace Step

/-- The value of an absent key that may be absent is no reason to fail; of any other
it is. -/
def unlessAbsent (field : Option Field) (name : Key) (entries : List (Key × Value))
    (at_ : Path) (present : Value → Outcome Value) : Outcome Value :=
  match Entries.find? name entries with
  | some v => present v
  | none =>
    if absenceAllowed field name then .ok (.object entries) else doesNotExist name at_

/-- Put parts under their targets, none of which may be there already. -/
def putParts (at_ : Path) :
    List (Key × Field) → List Value → List (Key × Value) → Outcome (List (Key × Value))
  | (name, _) :: targets, part :: parts, entries => do
    mustBeNew name entries at_
    putParts at_ targets parts (Entries.put name part entries)
  | _, _, entries => .ok entries

/-- The values of several names; one that may be absent counts as null. -/
def gather (field : Option Field) (entries : List (Key × Value)) (at_ : Path) :
    List Value → Outcome (List Key × List Value)
  | [] => .ok ([], [])
  | name :: rest => do
    let name ← Field.keyOf name
    let v ←
      match Entries.find? name entries with
      | some v => pure v
      | none => if absenceAllowed field name then pure .null else doesNotExist name at_
    let (names, values) ← gather field entries at_ rest
    return (name :: names, v :: values)

/-- The place of a name, for messages about its value. -/
def placeOf (at_ : Path) (name : Value) : Outcome Path :=
  (at_.childOf name).mapError Error.badPath

def isNull : Value → Bool
  | .null => true
  | _ => false

def isOptional : Field → Bool
  | .optional _ => true
  | _ => false

/-- The new value at the end of the path. -/
def onValue (s : Step) (v : Value) (field : Option Field) (at_ : Path) : Outcome Value :=
  match s with
  | add _ name _ value => do
    let entries ← entriesOf v at_
    let name ← Field.keyOf name
    mustBeNew name entries at_
    return .object (Entries.put name value entries)
  | remove _ name => do
    let entries ← entriesOf v at_
    let name ← Field.keyOf name
    unlessAbsent field name entries at_ fun _ => return .object (Entries.erase name entries)
  | rename _ old new => do
    let entries ← entriesOf v at_
    let old ← Field.keyOf old
    unlessAbsent field old entries at_ fun _ => do
      let new ← Field.keyOf new
      mustBeNew new entries at_
      return .object (Entries.rename old new entries)
  | copy _ name new => do
    let entries ← entriesOf v at_
    let name ← Field.keyOf name
    unlessAbsent field name entries at_ fun value => do
      let new ← Field.keyOf new
      mustBeNew new entries at_
      return .object (Entries.put new value entries)
  | retype _ newField converter =>
    if isNull v && field.any isOptional && isOptional newField then .ok v
    else convert converter.run "converter" v at_
  | restructure _ transform _ => convert transform.run "transform" v at_
  | split _ name targets splitter => do
    let entries ← entriesOf v at_
    let key ← Field.keyOf name
    unlessAbsent field key entries at_ fun value => do
      let place ← placeOf at_ name
      let parts ← convert (fun v => (splitter.run v).map partsOf) "splitter" value place
      match parts with
      | .array items =>
        if items.length = targets.length then do
          let entries ← putParts at_ targets items (Entries.erase key entries)
          return .object entries
        else wrongParts targets.length parts place
      | parts => wrongParts targets.length parts place
  | merge _ names target _ merger => do
    let entries ← entriesOf v at_
    let (names, values) ← gather field entries at_ names
    let place ← placeOf at_ target
    let merged ← convert merger.run "merger" (.array values) place
    let rest := entries.filter fun e => !names.any fun name => e.1.same name
    let target ← Field.keyOf target
    mustBeNew target rest at_
    return .object (Entries.put target merged rest)
where
  wrongParts (count : Nat) (parts : Value) (place : Path) : Outcome Value :=
    Change.fails .converterFailed
      s!"splitter must return {count} values at {place.text}, got {parts.describe}" place

end Step
end Lineage
