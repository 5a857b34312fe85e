import Lineage.Path
import Lineage.Proofs.Value.Json

/-
Places inside a value, and the places that a path leads to.

A place is a list of keys and indices, one for each container on the way to it.  A path leads
to one place for every item that a wildcard in it stands for: to many, to one, or to none.
-/

namespace Lineage

namespace Entries

variable {α : Type}

/-- A key that is there keeps its place, and so do all others. -/
theorem keys_put {key : Key} {entries : List (Key × α)} {u : α} (h : find? key entries = some u)
    (value : α) : (put key value entries).map Prod.fst = entries.map Prod.fst := by
  induction entries with
  | nil => cases h
  | cons d rest ih =>
    obtain ⟨k, w⟩ := d
    rw [find?] at h
    rw [put]
    split at h
    · next hk => rw [if_pos hk, List.map_cons, List.map_cons]
    · next hk => rw [if_neg hk, List.map_cons, List.map_cons, ih h]

/-- Putting back what is there changes nothing. -/
theorem put_found {key : Key} {entries : List (Key × α)} {u : α} (h : find? key entries = some u) :
    put key u entries = entries := by
  induction entries with
  | nil => cases h
  | cons d rest ih =>
    obtain ⟨k, w⟩ := d
    rw [find?] at h
    rw [put]
    split at h
    · next hk =>
      cases h
      rw [if_pos hk]
    · next hk => rw [if_neg hk, ih h]

/-- A key that is there keeps nothing of what was put under it before. -/
theorem put_put {key : Key} {entries : List (Key × α)} {u : α} (h : find? key entries = some u)
    (first second : α) : put key second (put key first entries) = put key second entries := by
  induction entries with
  | nil => cases h
  | cons d rest ih =>
    obtain ⟨k, w⟩ := d
    rw [find?] at h
    rw [put, put]
    split at h
    · next hk => rw [if_pos hk, if_pos hk, put, if_pos hk]
    · next hk => rw [if_neg hk, if_neg hk, put, if_neg hk, ih h]

end Entries

namespace Value

/-! ## Places -/

/-- The value under a key of an object or at an index of an array. -/
def part? (s : Segment) : Value → Option Value
  | object entries =>
    match s with
    | .key name => Entries.find? (.text name) entries
    | .index _ => none
  | array items =>
    match s with
    | .key _ => none
    | .index i => items[i]?
  | _ => none

/-- The value at a place. -/
def at? : List Segment → Value → Option Value
  | [], v => some v
  | s :: rest, v => (v.part? s).bind (at? rest)

/-- Containers of one kind with the same keys in the same order, or with as many items. -/
def SameShape : Value → Value → Prop
  | object entries, object entries' => entries'.map Prod.fst = entries.map Prod.fst
  | array items, array items' => items'.length = items.length
  | _, _ => False

/-! ## Paths -/

/-- A segment is found in a container: on an object every segment is a key, on an array it is
the wildcard, an index or a selector. -/
def Admits (segment : Segment) : Value → Prop
  | object entries => ∃ u, Entries.find? (.text segment.text) entries = some u
  | array items => segment = .wildcard ∨ ∃ i, segment.resolve items.length = .ok (some i)
  | _ => False

/-- A part that a segment selects in a container, and its place there. -/
inductive Selects (segment : Segment) : Value → Segment → Value → Prop
  | entry {entries : List (Key × Value)} {u : Value}
    (h : Entries.find? (.text segment.text) entries = some u) :
    Selects segment (object entries) (.key segment.text) u
  | each {items : List Value} {i : Nat} {u : Value} (hsegment : segment = .wildcard)
    (hu : items[i]? = some u) : Selects segment (array items) (.index i) u
  | item {items : List Value} {i : Nat} {u : Value} (hsegment : segment ≠ .wildcard)
    (hi : segment.resolve items.length = .ok (some i)) (hu : items[i]? = some u) :
    Selects segment (array items) (.index i) u

/-- Every segment of a path is found in every container that the segments before it lead to. -/
def Resolves : List Segment → Value → Prop
  | [], _ => True
  | segment :: rest, v => v.Admits segment ∧ ∀ s u, v.Selects segment s u → u.Resolves rest

/-- A place at the end of a path, and the value there. -/
inductive Ends : List Segment → Value → List Segment → Value → Prop
  | nil (v : Value) : Ends [] v [] v
  | cons {segment s : Segment} {rest t : List Segment} {v u x : Value}
    (h : v.Selects segment s u) (hrest : u.Ends rest t x) : Ends (segment :: rest) v (s :: t) x

variable {segment s : Segment} {segments rest t : List Segment} {v u x : Value}

theorem Selects.part? (h : v.Selects segment s u) : v.part? s = some u := by
  cases h with
  | entry h => exact h
  | each hsegment hu => exact hu
  | item hsegment hi hu => exact hu

theorem Ends.at? (h : v.Ends segments t x) : v.at? t = some x := by
  induction h with
  | nil v => rfl
  | cons h _ ih => exact Option.bind_eq_some_iff.mpr ⟨_, h.part?, ih⟩

theorem KeysDistinct.selected (h : v.KeysDistinct) (hu : v.Selects segment s u) :
    u.KeysDistinct := by
  cases hu with
  | entry hu =>
    cases h with
    | object _ hvalues => exact hvalues _ (Entries.mem_of_find?_text hu)
  | each _ hu =>
    cases h with
    | array hitems => exact hitems u (List.mem_of_getElem? hu)
  | item _ _ hu =>
    cases h with
    | array hitems => exact hitems u (List.mem_of_getElem? hu)

theorem IsJson.selected (h : v.IsJson) (hu : v.Selects segment s u) : u.IsJson := by
  cases hu with
  | entry hu => exact ((isJson_object.mp h).2 _ (Entries.mem_of_find?_text hu)).2
  | each _ hu => exact isJson_array.mp h u (List.mem_of_getElem? hu)
  | item _ _ hu => exact isJson_array.mp h u (List.mem_of_getElem? hu)

theorem ends_nil_iff : v.Ends [] t x ↔ t = [] ∧ x = v := by
  constructor
  · rintro ⟨⟩
    exact ⟨rfl, rfl⟩
  · rintro ⟨rfl, rfl⟩
    exact .nil x

theorem ends_cons_iff : v.Ends (segment :: rest) t x ↔
    ∃ s u t', t = s :: t' ∧ v.Selects segment s u ∧ u.Ends rest t' x := by
  constructor
  · rintro (_ | ⟨h, hrest⟩)
    exact ⟨_, _, _, rfl, h, hrest⟩
  · rintro ⟨s, u, t', rfl, h, hrest⟩
    exact .cons h hrest

end Value
end Lineage
