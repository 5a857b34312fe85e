import Lineage.Field.Document
import Lineage.Timestamp.Reader

/-
Records of migrations that were run.
-/

namespace Lineage

/-- What was migrated, and how many documents with what success. -/
structure Summary where
  sourceVersion : Value
  destinationVersion : Value
  description : Value
  migrated : Value := .int 0
  failed : Value := .int 0

/-- A summary with the time of the run. -/
structure Record where
  summary : Summary
  appliedAt : Timestamp

namespace Summary

def toEntries (s : Summary) : List (Key × Value) :=
  [Field.entry "source_version" s.sourceVersion,
    Field.entry "destination_version" s.destinationVersion,
    Field.entry "description" s.description,
    Field.entry "documents_migrated" s.migrated, Field.entry "documents_failed" s.failed]

def same (a b : Summary) : Bool :=
  a.sourceVersion.sameBy Number.copyOf b.sourceVersion &&
    a.destinationVersion.sameBy Number.copyOf b.destinationVersion &&
    a.description.sameBy Number.copyOf b.description &&
    a.migrated.sameBy Number.copyOf b.migrated && a.failed.sameBy Number.copyOf b.failed

end Summary

namespace Record

def toDocument (r : Record) : Value :=
  .object (r.summary.toEntries ++ [Field.entry "applied_at" (.text r.appliedAt.text)])

def required (entries : List (Key × Value)) (name : String) : Outcome Value :=
  match Entries.find? (.text name) entries with
  | some v => .ok v
  | none => .error (.fault (.noKey name))

def timeOf (v : Value) : Outcome Timestamp :=
  match v with
  | .text s =>
    match Timestamp.ofText? s with
    | some t => .ok t
    | none => .error (.fault (.badValue ""))
  | _ => .error Error.badType

/-- The counts may be left out and are zero then; other keys are left aside. -/
def ofDocument (document : Value) : Outcome Record :=
  match document with
  | .object entries => do
    let source ← required entries "source_version"
    let destination ← required entries "destination_version"
    let description ← required entries "description"
    let time ← timeOf (← required entries "applied_at")
    let count := fun name => Field.optionOr entries name (.int 0)
    let summary : Summary :=
      ⟨source, destination, description, count "documents_migrated", count "documents_failed"⟩
    return ⟨summary, time⟩
  | _ => .error Error.badType

def same (a b : Record) : Bool := a.summary.same b.summary && a.appliedAt == b.appliedAt

end Record
end Lineage
