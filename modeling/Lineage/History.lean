import Lineage.Migration

/-
Histories: the versions of one contract and the migrations between them.

A history starts at version 1 and grows only at its head.  A migration is appended
if it starts from the head and its steps produce the destination that it declares.
What an append leaves behind is known also where it fails, for schemas and
migrations are kept in lists of their own that it changes one after the other.
-/

namespace Lineage

structure History where
  /-- Version 1. -/
  first : Schema
  /-- The versions after the first, in order. -/
  later : List Schema
  migrations : List Migration

/-- Where a migration has its source from. -/
inductive Provenance where
  /-- From the history: a NaN in the source is the one that the history holds. -/
  | taken
  /-- From elsewhere: a NaN in the source equals none. -/
  | written
  deriving DecidableEq

/-- The notion of equal numbers for comparing a source with what a history holds. -/
def Provenance.numbers : Provenance → Number → Number → Bool
  | taken => Number.copyOf
  | written => Number.same

namespace History

/-- A computation on a history, which is there afterwards whatever the outcome. -/
abbrev Operation (α : Type) := EStateM Error History α

/-- An outcome that has nothing to do with the history. -/
def settle {α : Type} (x : Outcome α) : Operation α :=
  match x with
  | .ok a => pure a
  | .error e => throw e

/-- Only a schema of version 1 begins a history. -/
def start (initial : Option Schema) : Outcome History :=
  match initial with
  | some s => if s.version = 1 then .ok ⟨s, [], []⟩ else Field.define .historyNotFirst
  | none => Field.define .historyNotFirst

/-- The versions in order. -/
def schemas (h : History) : List Schema := h.first :: h.later

def length (h : History) : Nat := h.schemas.length

/-- The latest version. -/
def head (h : History) : Schema := h.later.getLast?.getD h.first

variable [Externals]

/-- The destination of a migration that is appended is the new head. -/
def append (provenance : Provenance) (m : Migration) : Operation Schema := do
  let head := (← get).head
  if m.source.sameBy provenance.numbers head then
    match ← settle m.drift with
    | [] =>
      modify fun h => { h with migrations := h.migrations ++ [m] }
      modify fun h => { h with later := h.later ++ [m.destination] }
      return m.destination
    | differences => settle (Migration.fails (.drift differences))
  else settle (Field.define (.notFromHead m.source.version head.version))

def noVersion {α : Type} (h : History) (version : Value) : Outcome α :=
  .error (.fault (.noKey
    s!"Schema version {version.shown} not found (head is v{h.head.version})"))

/-- The place of a version in the history, nothing for what is no version of it. -/
def placeOf? (h : History) (version : Value) : Option Nat :=
  match Schema.wholeNumber? version with
  | some n => inRange? (n - 1) h.length
  | none => none

def get (h : History) (version : Value) : Outcome Schema :=
  match (h.placeOf? version).bind fun i => h.schemas[i]? with
  | some s => .ok s
  | none => h.noVersion version

/-- The migrations that bring a version up to the head. -/
def migrationsFrom (h : History) (version : Value) : Outcome (List Migration) :=
  match h.placeOf? version with
  | some i => .ok (h.migrations.drop i)
  | none => h.noVersion version

/-- Run migrations one after the other. -/
def runAll : List Migration → Value → Outcome Value
  | [], v => .ok v
  | m :: rest, v => do runAll rest (← m.run v)

/-- Bring a document of a version up to the head. -/
def upgrade (h : History) (v : Value) (version : Value) : Outcome Value := do
  runAll (← h.migrationsFrom version) v

end History
end Lineage
