import Lineage.Command.Arguments
import Lineage.Command.Run
import Lineage.Format.Email

/-
The program: it looks up the files that its arguments name and the environment,
runs the command and writes out the answer.
-/

namespace Lineage

/-- The contents of those arguments that name readable files. -/
def readableFiles : List String → IO (List (String × String))
  | [] => return []
  | name :: rest => do
    let files ← readableFiles rest
    match ← (IO.FS.readFile name).toBaseIO with
    | .ok contents => return (name, contents) :: files
    | .error _ => return files

def settingNames : List String :=
  ["STRICT_OBJECTS", "UNAMBIGUOUS_UNIONS", "BATCH_MAX_WORKERS", "LOG_LEVEL"]

/-- The settings that the environment holds. -/
def environmentOf : List String → IO (List (String × String))
  | [] => return []
  | name :: rest => do
    let found ← environmentOf rest
    let full := String.ofList (Settings.variableStart.toList.map Text.asciiUpper) ++ name
    match ← IO.getEnv full with
    | some text => return (full, text) :: found
    | none => return found

def writeAll : List (String × String) → IO Unit
  | [] => return ()
  | (name, contents) :: rest => do
    IO.FS.writeFile name contents
    writeAll rest

end Lineage

open Lineage in
def main (arguments : List String) : IO UInt32 := do
  let files ← readableFiles arguments
  let environment ← environmentOf settingNames
  let surroundings := { files := files, environment := environment }
  let answer := Command.run .usual surroundings arguments
  writeAll answer.written
  IO.print answer.output
  match answer.failure with
  | some e => IO.eprintln e.text
  | none => pure ()
  return UInt32.ofNat answer.exitCode
