import Lineage.Error

/-
Functions that authors of schemas and migrations supply: checks, converters,
transforms, splitters and mergers.
-/

namespace Lineage

/-- An author function with its identity.  Two fields have the same check when the
identities agree; what the function does is never compared. -/
structure AuthorFn where
  identity : String
  run : Value → Except Fault Value

end Lineage
