import Lineage.Settings
import Lineage.Text.Blank
import Lineage.Text.Digit

/-
Reading of settings.

Settings come from values that a program hands over or from the environment, whose
values are texts.  Either may spell a truth value in several ways.
-/

namespace Lineage
namespace Settings

def invalid {α : Type} : Outcome α := .error (.fault .invalidSetting)

/-! ## Spellings -/

def falseWords : List String := ["0", "off", "f", "false", "n", "no"]

def trueWords : List String := ["1", "on", "t", "true", "y", "yes"]

def lowered (s : String) : String := String.ofList (s.toList.map Text.asciiLower)

/-- A truth value: itself, the numbers 0 and 1, or a word in any case. -/
def truth? (v : Value) : Option Bool :=
  match v with
  | .bool b => some b
  | .number n => if n.same (.int 0) then some false else if n.same (.int 1) then some true else none
  | .text s =>
    if falseWords.contains (lowered s) then some false
    else if trueWords.contains (lowered s) then some true
    else none
  | _ => none

/-- The number that digits write, which single underscores between them may part;
`digit` says whether a digit came just before. -/
def digitsFrom (n : Nat) (digit : Bool) : List Char → Option Nat
  | [] => if digit then some n else none
  | c :: rest =>
    if c == '_' then if digit then digitsFrom n false rest else none
    else if Text.isAsciiDigit c then digitsFrom (n * 10 + Text.asciiNumber [c]) true rest
    else none

/-- A whole number written with ASCII digits and an optional sign. -/
def integerOf? (cs : List Char) : Option Int :=
  match Text.strip cs with
  | '-' :: rest => (digitsFrom 0 false rest).map fun n => -(n : Int)
  | '+' :: rest => (digitsFrom 0 false rest).map fun n => (n : Int)
  | cs => (digitsFrom 0 false cs).map fun n => (n : Int)

def integerText? (s : String) : Option Int := integerOf? s.toList

/-- A text without a fraction that is zero. -/
def withoutZeros (cs : List Char) : List Char :=
  match cs.dropWhile (· != '.') with
  | '.' :: zeros => if zeros.all (· == '0') then cs.takeWhile (· != '.') else cs
  | _ => cs

/-- A whole number: one without a fraction, a truth value or a text. -/
def integer? (v : Value) : Option Int :=
  match v with
  | .bool b => some (if b then 1 else 0)
  | .number n => if n.isIntegral then n.floor? else none
  | .text s => integerOf? (withoutZeros (Text.strip s.toList))
  | _ => none

/-- A count of workers: none, or at least one. -/
def workers? (v : Value) : Option (Option Int) :=
  match v with
  | .null => some none
  | v =>
    match integer? v with
    | some n => if n < 1 then none else some (some n)
    | none => none

/-! ## Reading -/

/-- Set one setting.  Names that are no setting are left aside. -/
def set (s : Settings) (name : String) (v : Value) : Outcome Settings :=
  match name with
  | "strict_objects" =>
    match truth? v with
    | some b => .ok { s with strictObjects := b }
    | none => invalid
  | "unambiguous_unions" =>
    match truth? v with
    | some b => .ok { s with unambiguousUnions := b }
    | none => invalid
  | "batch_max_workers" =>
    match workers? v with
    | some n => .ok { s with batchWorkers := n }
    | none => invalid
  | "log_level" =>
    match v with
    | .text level => .ok { s with logLevel := level }
    | _ => invalid
  | _ => .ok s

def setAll (s : Settings) : List (String × Value) → Outcome Settings
  | [] => .ok s
  | (name, v) :: rest => do (← s.set name v).setAll rest

/-- The start of the names of environment variables, in lower case. -/
def variableStart : String := "schemigrate_"

/-- The setting that an environment variable names, in any case. -/
def settingOf? (envName : String) : Option String :=
  let name := (lowered envName).toList
  let start := variableStart.toList
  if start.isPrefixOf name then some (String.ofList (name.drop start.length)) else none

def ofEnvironment (environment : List (String × String)) : Outcome Settings :=
  setAll {} (environment.filterMap fun (name, text) =>
    (settingOf? name).map fun setting => (setting, .text text))

end Settings
end Lineage
