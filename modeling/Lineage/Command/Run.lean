import Lineage.Command
import Lineage.Conformance
import Lineage.Json.Reader
import Lineage.Sample
import Lineage.Schema.Document
import Lineage.Field.Difference

/-
Running of commands.

A command sees the files that it is given and the environment, and answers with
text, files to be written and an exit code.
-/

namespace Lineage
namespace Command

/-- What a command may look at. -/
structure Surroundings where
  files : List (String × String)
  environment : List (String × String) := []

structure Answer where
  exitCode : Nat := 0
  output : String := ""
  /-- Files with their new contents. -/
  written : List (String × String) := []
  /-- What ended the command before it could answer. -/
  failure : Option Error := none

namespace Answer

/-- An answer of lines. -/
def ofLines (exitCode : Nat) (lines : List String) : Answer :=
  { exitCode := exitCode, output := Text.joined "" (lines.map fun l => l ++ "\n") }

/-- A complaint about what the user gave. -/
def complaint (exitCode : Nat) (message : String) : Answer :=
  ofLines exitCode [s!"Error: {message}"]

def crash (e : Error) : Answer := { exitCode := 1, failure := some e }

end Answer

/-- A part of a command: its result, or the answer that ends the command. -/
abbrev Part (α : Type) := Except Answer α

def orCrash {α : Type} (outcome : Outcome α) : Part α := outcome.mapError Answer.crash

/-! ## Files -/

def read (s : Surroundings) (file : String) : Part Value :=
  match s.files.lookup file with
  | none => .error (Answer.complaint 2 s!"Path '{file}' does not exist.")
  | some contents =>
    let source := Json.withoutMark contents
    match Json.read source with
    | .ok v => .ok v
    | .error e =>
      .error (Answer.complaint 1 s!"Could not read JSON from {file}: {e.message source}")

variable [Externals]

/-- Errors of this library say that the document is no schema; faults pass
through. -/
def readSchema (s : Surroundings) (settings : Settings) (file : String) : Part Schema := do
  let document ← read s file
  match Schema.ofDocument settings document with
  | .ok schema => return schema
  | .error e =>
    if e.isOwn then
      throw (Answer.complaint 1 s!"Invalid schema document {file}: {e.text}")
    else throw (Answer.crash e)

/-! ## Validation -/

/-- A mismatch, and below it those of the nearest variant. -/
def violationLines (v : Violation) : List String :=
  s!"   {v.text}" :: v.nearest.map fun n => s!"     - {n.text}"

def validateFiles (s : Surroundings) (settings : Settings) (schema data : String)
    (lenient : Bool) : Part Answer := do
  let contract ← readSchema s settings schema
  let v ← read s data
  let violations ← orCrash (
    if lenient then contract.root.check (Conformance.options settings (some false)) v
    else contract.validate v)
  let label := contract.label
  let count := violations.length
  if violations.isEmpty then return Answer.ofLines 0 [s!"✅ {data} conforms to {label}"]
  else
    return Answer.ofLines 1
      (s!"❌ {data} does not conform to {label}: {count} violation(s)" ::
        violations.flatMap violationLines)

/-! ## Description -/

def treeLine (depth : Nat) (label : String) (f : Field) : String :=
  String.ofList (List.replicate (2 * depth) ' ') ++ label ++ ": " ++ f.describe

mutual

/-- The lines below the line of a field; wrappers have no lines of their own. -/
def linesBelow (depth : Nat) : Field → List String
  | .optional inner => linesBelow depth inner
  | .defaulted inner _ => linesBelow depth inner
  | .object members => memberLines (depth + 1) members
  | .array element _ _ => treeLine (depth + 1) "*" element :: linesBelow (depth + 1) element
  | .tuple items => itemLines (depth + 1) (fun i => toString i) 0 items
  | .union variants _ => itemLines (depth + 1) Field.variantSegment 0 variants
  | _ => []

def memberLines (depth : Nat) : List (Member Field) → List String
  | [] => []
  | ⟨name, required, f⟩ :: rest =>
    treeLine depth (if required then name else name ++ "?") f ::
      (linesBelow depth f ++ memberLines depth rest)

def itemLines (depth : Nat) (label : Nat → String) (index : Nat) : List Field → List String
  | [] => []
  | f :: rest =>
    treeLine depth (label index) f ::
      (linesBelow depth f ++ itemLines depth label (index + 1) rest)

end

def describeSchema (s : Schema) : Answer :=
  Answer.ofLines 0
    ([s!"📋 {s.label}", s!"   Strict objects: {s.strict.spoken}",
        s!"   Unambiguous unions: {s.unambiguousUnions.spoken}", treeLine 1 "$" s.root] ++
      linesBelow 1 s.root)

/-! ## Comparison -/

def compareSchemas (source destination : Schema) : Answer :=
  match Field.compareAt .root destination.root source.root with
  | [] => Answer.ofLines 0 ["✅ Schemas are equivalent"]
  | differences =>
    Answer.ofLines 1
      (s!"Found {differences.length} difference(s):" :: "" ::
        differences.map fun d => s!"   {d.text}")

/-! ## Samples -/

def sampleStyle : Json.Style := { indent := some 2 }

/-- Samples in a file are written with ASCII characters alone. -/
def fileStyle : Json.Style := { indent := some 2, asciiOnly := true }

/-- A file cannot be written into a directory that is not there. -/
def writeSamples (target : String) (count : Int) (documents : List Value) : Part Answer :=
  if target.toList.contains '/' then .error (Answer.crash (.fault .noFile))
  else
    match (Value.array documents).json? fileStyle with
    | none => .error (Answer.crash Error.badType)
    | some contents =>
      .ok { Answer.ofLines 0 [s!"✅ Generated {count} document(s) to {target}"] with
            written := [(target, contents)] }

def printSamples : List Value → Part (List String)
  | [] => .ok []
  | v :: rest => do
    let line ← orCrash ((v.toJson sampleStyle).mapError Error.notJson)
    let lines ← printSamples rest
    return line :: lines

def sampleSchema (s : Schema) (count : Int) (target : Option String) : Part Answer := do
  let documents ← orCrash ((FieldArg.field s.root).samples count.toNat)
  match target with
  | some target => writeSamples target count documents
  | none => return Answer.ofLines 0 (← printSamples documents)

/-! ## Commands -/

def programVersion : String := "0.1.0"

def versionLine : String := "schemigrate version: " ++ programVersion

def perform (s : Surroundings) (settings : Settings) : Command → Part Answer
  | validate schema data lenient => validateFiles s settings schema data lenient
  | describe schema => do return describeSchema (← readSchema s settings schema)
  | compare source destination => do
    let source ← readSchema s settings source
    let destination ← readSchema s settings destination
    return compareSchemas source destination
  | sample schema count target => do
    sampleSchema (← readSchema s settings schema) count target
  | version => return Answer.ofLines 0 [versionLine]

/-- The settings come first, then the command that the arguments ask for. -/
def runParts (front : Frontend) (s : Surroundings) (arguments : List String) : Part Answer := do
  let settings ← orCrash (front.settings s.environment)
  if !settings.hasKnownLogLevel then throw (Answer.crash (.fault (.badValue "")))
  match front.command arguments with
  | .ok command => perform s settings command
  | .error misuse => throw (Answer.complaint 2 misuse.message)

def run (front : Frontend) (s : Surroundings) (arguments : List String) : Answer :=
  match runParts front s arguments with
  | .ok answer => answer
  | .error answer => answer

end Command
end Lineage
