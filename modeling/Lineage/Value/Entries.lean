import Lineage.Value

/-
Entries of an object: keys with values in the order of insertion, each key once.
-/

namespace Lineage
namespace Entries

variable {α : Type}

def find? (key : Key) : List (Key × α) → Option α
  | [] => none
  | (k, v) :: rest => if k.same key then some v else find? key rest

def contains (key : Key) (entries : List (Key × α)) : Bool := (find? key entries).isSome

/-- Set the value of a key: an existing key keeps its place, a new one goes to the
end. -/
def put (key : Key) (value : α) : List (Key × α) → List (Key × α)
  | [] => [(key, value)]
  | (k, v) :: rest =>
    if k.same key then (k, value) :: rest else (k, v) :: put key value rest

def erase (key : Key) (entries : List (Key × α)) : List (Key × α) :=
  entries.filter fun e => !e.1.same key

/-- Put pairs one after the other. -/
def putAll (pairs entries : List (Key × α)) : List (Key × α) :=
  pairs.foldl (fun es p => put p.1 p.2 es) entries

/-- The entries that a list of pairs makes, later pairs winning. -/
def ofPairs (pairs : List (Key × α)) : List (Key × α) := putAll pairs []

/-- Give a key another name and leave it in its place. -/
def rename (old new : Key) (entries : List (Key × α)) : List (Key × α) :=
  ofPairs (entries.map fun e => (if e.1.same old then new else e.1, e.2))

/-- Whether two lists of entries have the same keys, in any order. -/
def sameKeys {β : Type} (a : List (Key × α)) (b : List (Key × β)) : Bool :=
  a.length == b.length && a.all fun e => contains e.1 b

end Entries
end Lineage
