import Lineage.Error
import Lineage.Text.Case

/-
Settings: what holds where a schema or a caller says nothing.
-/

namespace Lineage

structure Settings where
  /-- Report keys that an object does not declare. -/
  strictObjects : Bool := true
  /-- Report values that several variants of a union match. -/
  unambiguousUnions : Bool := true
  /-- How many documents of a batch may be migrated at the same time. -/
  batchWorkers : Option Int := none
  logLevel : String := "WARNING"

namespace Settings

/-- What tests start from. -/
def forTests : Settings := { batchWorkers := some 2, logLevel := "DEBUG" }

/-- Whoever asks for workers asks for at least one. -/
def AsksForSome (s : Settings) : Prop := ∀ n, s.batchWorkers = some n → 1 ≤ n

/-- The log levels that have a name. -/
def logLevels : List String :=
  ["CRITICAL", "FATAL", "ERROR", "WARN", "WARNING", "INFO", "DEBUG", "NOTSET"]

def hasKnownLogLevel (s : Settings) : Bool :=
  logLevels.contains (String.ofList (s.logLevel.toList.map Text.asciiUpper))

end Settings
end Lineage
