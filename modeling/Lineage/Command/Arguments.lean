import Lineage.Command
import Lineage.Settings.Reading

/-
Arguments that ask for commands.

Options may stand anywhere between the file names; a value follows its option as
the next argument or after an equals sign, and after `--` nothing is an option.
-/

namespace Lineage
namespace Command

/-- Arguments sorted into file names and options with their values. -/
structure Arguments where
  files : List String := []
  options : List (String × String) := []
  flags : List String := []

namespace Arguments

def option? (a : Arguments) (name : String) : Option String :=
  (a.options.reverse.find? fun o => o.1 == name).map Prod.snd

end Arguments

/-- An option and its value in one argument. -/
def assigned? (argument : String) : Option (String × String) :=
  let cs := argument.toList
  match cs.dropWhile (· != '=') with
  | _ :: value => some (String.ofList (cs.takeWhile (· != '=')), String.ofList value)
  | [] => none

def isOption (argument : String) : Bool :=
  match argument.toList with
  | '-' :: _ :: _ => true
  | _ => false

/-- Sort arguments, given the options that take a value and those that do not. -/
def sort (valued plain : List String) (a : Arguments) : List String → Except Misuse Arguments
  | [] => .ok a
  | "--" :: rest => .ok { a with files := a.files ++ rest }
  | argument :: rest =>
    if !isOption argument then sort valued plain { a with files := a.files ++ [argument] } rest
    else if plain.contains argument then
      sort valued plain { a with flags := a.flags ++ [argument] } rest
    else if valued.contains argument then
      match rest with
      | value :: rest =>
        sort valued plain { a with options := a.options ++ [(argument, value)] } rest
      | [] => .error ⟨s!"Option '{argument}' requires an argument."⟩
    else
      match assigned? argument with
      | some (name, value) =>
        if valued.contains name then
          sort valued plain { a with options := a.options ++ [(name, value)] } rest
        else .error ⟨s!"No such option: {name}"⟩
      | none => .error ⟨s!"No such option: {argument}"⟩

def wrongFiles {α : Type} (files : List String) : Except Misuse α :=
  .error ⟨s!"{files.length} file names do not fit the command."⟩

/-- The value of an option that has to be a whole number. -/
def integerOption (a : Arguments) (name : String) (otherwise : Int) : Except Misuse Int :=
  match a.option? name with
  | none => .ok otherwise
  | some text =>
    match Settings.integerText? text with
    | some n => .ok n
    | none =>
      .error ⟨s!"Invalid value for '{name}': {Text.quoted text} is not a valid integer."⟩

def sampleOptions : List String := ["--count", "--locale", "--seed", "--output"]

/-- The command that arguments ask for. -/
def parse : List String → Except Misuse Command
  | "validate" :: rest => do
    let a ← sort [] ["--lenient"] {} rest
    match a.files with
    | [schema, data] => return .validate schema data (a.flags.contains "--lenient")
    | files => wrongFiles files
  | "describe" :: rest => do
    let a ← sort [] [] {} rest
    match a.files with
    | [schema] => return .describe schema
    | files => wrongFiles files
  | "compare" :: rest => do
    let a ← sort [] [] {} rest
    match a.files with
    | [source, destination] => return .compare source destination
    | files => wrongFiles files
  | "sample" :: rest => do
    let a ← sort sampleOptions [] {} rest
    let count ← integerOption a "--count" 1
    let _ ← integerOption a "--seed" 0
    match a.files with
    | [schema] => return .sample schema count ((a.option? "--output").filter (· != ""))
    | files => wrongFiles files
  | "version" :: rest => do
    let a ← sort [] [] {} rest
    match a.files with
    | [] => return .version
    | files => wrongFiles files
  | name :: _ => .error ⟨s!"No such command '{name}'."⟩
  | [] => .error ⟨"Missing command."⟩

/-- What the program runs with. -/
def Frontend.usual : Frontend := { settings := Settings.ofEnvironment, command := parse }

end Command
end Lineage
