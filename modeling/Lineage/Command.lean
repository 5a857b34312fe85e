import Lineage.Settings

/-
Commands, and what tells the program which one to run.
-/

namespace Lineage

inductive Command where
  /-- Validate a document against a schema. -/
  | validate (schema data : String) (lenient : Bool)
  /-- Print the field tree of a schema. -/
  | describe (schema : String)
  /-- List the differences between two schemas. -/
  | compare (source destination : String)
  /-- Write sample documents, to the output or into a file. -/
  | sample (schema : String) (count : Int) (target : Option String)
  /-- Print the version of the program. -/
  | version
  deriving DecidableEq

namespace Command

/-- Arguments that ask for nothing that there is. -/
structure Misuse where
  message : String

/-- What reads the settings from the environment and a command from arguments. -/
structure Frontend where
  settings : List (String × String) → Outcome Settings
  command : List String → Except Misuse Command

end Command
end Lineage
