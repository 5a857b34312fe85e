import Lineage.Field.Document
import Lineage.Schema
import Lineage.Settings

/-
Schema documents: schemas as JSON values.

An object with both a version and a root is read as a schema.  Everything else is
the root field of a version 1, so that an object may declare fields of these names
one at a time.  Flags that a document leaves out come from the settings.
-/

namespace Lineage
namespace Schema

def toDocument (s : Schema) : Outcome Value := do
  let root ← s.root.toDocument
  let name :=
    match s.name with
    | .null => []
    | name => [Field.entry "name" name]
  return .object
    (Field.entry "version" (.int s.version) :: name ++
      [Field.entry "strict" s.strict, Field.entry "unambiguous_unions" s.unambiguousUnions,
        Field.entry "root" root])

/-- A schema's version and root, where a document has both. -/
def parts? (document : Value) : Option (List (Key × Value) × Value × Value) := do
  match document with
  | .object entries =>
    let version ← Entries.find? (.text "version") entries
    let root ← Entries.find? (.text "root") entries
    return (entries, version, root)
  | _ => none

/-- A document's version 1 succeeds nothing and every later one the version before
it. -/
def predecessorOf (version : Int) : Value :=
  if 1 < version then .int (version - 1) else .null

variable [Externals]

def ofDocument (settings : Settings) (document : Value) : Outcome Schema :=
  let strict := Value.bool settings.strictObjects
  let unambiguous := Value.bool settings.unambiguousUnions
  match parts? document with
  | none => do
    let root ← Field.ofDocument "$" document
    initial (.field root) .null strict unambiguous
  | some (entries, version, root) =>
    match wholeNumber? version with
    | none => Field.define (.documentVersion version.shown)
    | some n => do
      let root ← Field.ofDocument "$" root
      make version (.field root) (Field.optionOr entries "name" .null)
        (Field.optionOr entries "strict" strict)
        (Field.optionOr entries "unambiguous_unions" unambiguous) (predecessorOf n)

end Schema
end Lineage
