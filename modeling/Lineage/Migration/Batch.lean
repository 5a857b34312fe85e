import Lineage.Migration
import Lineage.Migration.Record
import Lineage.Settings

/-
Migration of many documents at once.

The drift is found once for the whole batch.  A document that cannot be migrated
does not stop the others; their results stay in the order of the documents, however
many workers there are.
-/

namespace Lineage

/-- What became of one document. -/
structure Migrated where
  index : Nat
  result : Except MigrationError Value

structure Batch where
  outcomes : List Migrated
  summary : Summary

namespace Batch

/-- How many workers run: what the caller asks for unless that counts as false, else
what the settings say, with nothing meaning as many as fit.  There must be more than
none. -/
def checkWorkers (asked : Value) (settings : Settings) : Outcome Unit :=
  let workers :=
    if asked.truthy then asked
    else
      match settings.batchWorkers with
      | some n => .int n
      | none => .null
  match workers with
  | .null => .ok ()
  | .scalar s =>
    match s.asNumber? with
    | some n =>
      if n.lt (.int 0) || n.isZero then .error (.fault (.badValue "")) else .ok ()
    | none => .error Error.badType
  | _ => .error Error.badType

variable [Externals]

/-- Migrate one document; errors other than those of migrations end the batch. -/
def migrate (m : Migration) (drift : List Difference) (index : Nat) (v : Value) :
    Outcome Migrated :=
  match m.runWith (.ok drift) v with
  | .ok result => .ok ⟨index, .ok result⟩
  | .error (.migration e) => .ok ⟨index, .error e⟩
  | .error e => .error e

def migrateFrom (m : Migration) (drift : List Difference) (index : Nat) :
    List Value → Outcome (List Migrated)
  | [] => .ok []
  | v :: rest => do
    let here ← migrate m drift index v
    let later ← migrateFrom m drift (index + 1) rest
    return here :: later

def isDone (m : Migrated) : Bool :=
  match m.result with
  | .ok _ => true
  | .error _ => false

def succeeded (b : Batch) : List Migrated := b.outcomes.filter isDone

def failed (b : Batch) : List Migrated := b.outcomes.filter fun m => !isDone m

/-- The migrated documents, in order. -/
def values (b : Batch) : List Value := b.outcomes.filterMap fun m => m.result.toOption

/-- Count what became of the documents. -/
def ofOutcomes (m : Migration) (outcomes : List Migrated) : Batch :=
  { outcomes := outcomes
    summary :=
      { sourceVersion := .int m.source.version
        destinationVersion := .int m.destination.version
        description := m.description
        migrated := .int (outcomes.filter isDone).length
        failed := .int (outcomes.filter fun o => !isDone o).length } }

def run (m : Migration) (documents : List Value) (workers : Value) (settings : Settings) :
    Outcome Batch := do
  let drift ← m.drift
  checkWorkers workers settings
  let outcomes ← migrateFrom m drift 0 documents
  return ofOutcomes m outcomes

end Batch
end Lineage
