import Lineage.Proofs.Value.Json
import Mathlib.Data.List.Forall2

/-
Containers, edited.

Putting a value under a key, leaving entries out and renaming keep an object in any class
that its entries decide, and replacing items keeps an array in it.  The values that JSON can
hold are such a class.  What these edits leave also holds each key once, where it did before.
-/

namespace Lineage
namespace Value

/-! ## Classes that the parts decide -/

/-- A class `V` that holds of an array when it holds of its items, and of an object when it
holds of its values and the keys are in `K`, as all texts are. -/
structure Hereditary (K : Key → Prop) (V : Value → Prop) : Prop where
  array_iff : ∀ {items}, V (.array items) ↔ ∀ v ∈ items, V v
  object_iff : ∀ {entries}, V (.object entries) ↔ ∀ e ∈ entries, K e.1 ∧ V e.2
  text_key : ∀ name, K (.text name)

theorem hereditary_true : Hereditary (fun _ => True) (fun _ => True) where
  array_iff := iff_of_true trivial fun _ _ => trivial
  object_iff := iff_of_true trivial fun _ _ => ⟨trivial, trivial⟩
  text_key _ := trivial

theorem hereditary_checked : Hereditary (fun key => ∃ name, key = .text name) Checked where
  array_iff := checked_array
  object_iff := checked_object
  text_key name := ⟨name, rfl⟩

/-- Every part is of one of the six kinds, under texts.  Numbers may be infinite or NaN. -/
inductive Kinded : Value → Prop
  | scalar (s : Scalar) : Kinded (.scalar s)
  | array {items : List Value} (hitems : ∀ v ∈ items, Kinded v) : Kinded (.array items)
  | object {entries : List (Key × Value)} (hkeys : ∀ e ∈ entries, ∃ name, e.1 = .text name)
      (hvalues : ∀ e ∈ entries, Kinded e.2) : Kinded (.object entries)

theorem hereditary_kinded : Hereditary (fun key => ∃ name, key = .text name) Kinded where
  array_iff := by
    refine ⟨fun h => ?_, .array⟩
    cases h with
    | array hitems => exact hitems
  object_iff := by
    refine ⟨fun h => ?_, fun h => .object (fun e he => (h e he).1) fun e he => (h e he).2⟩
    cases h with
    | object hkeys hvalues => exact fun e he => ⟨hkeys e he, hvalues e he⟩
  text_key name := ⟨name, rfl⟩

theorem Kinded.kind {v : Value} (h : v.Kinded) : v.kind? ≠ none := by
  cases h <;> exact nofun

theorem Checked.kinded : ∀ {v : Value}, v.Checked → v.Kinded
  | .scalar s, _ => .scalar s
  | .array items, h => .array fun v hv =>
    have := List.sizeOf_lt_of_mem hv
    (checked_array.mp h v hv).kinded
  | .object entries, h => .object (fun e he => (checked_object.mp h e he).1) fun e he =>
    have := Entries.sizeOf_value_lt he
    (checked_object.mp h e he).2.kinded
  | .tuple _, h => nomatch h
  | .set _, h => nomatch h
  | .bytes _, h => nomatch h
  | .thing, h => nomatch h
  | .missing, h => nomatch h
termination_by v => sizeOf v
decreasing_by
  all_goals
    simp only [array.sizeOf_spec, object.sizeOf_spec]
    omega

variable {K : Key → Prop} {V : Value → Prop} {entries pairs : List (Key × Value)}
variable {items : List Value} {key : Key} {v : Value}

section Hereditary

variable (hV : Hereditary K V)

include hV

/-- A value under any key of an object. -/
theorem Hereditary.find? (h : V (object entries)) (hv : Entries.find? key entries = some v) :
    V v := by
  obtain ⟨e, he, -, rfl⟩ := Entries.mem_of_find? hv
  exact (hV.object_iff.mp h e he).2

theorem Hereditary.put (h : V (object entries)) (hkey : K key) (hv : V v) :
    V (object (Entries.put key v entries)) := by
  refine hV.object_iff.mpr fun e he => ⟨?_, ?_⟩
  · rcases Entries.key_mem_put he with heq | ⟨d, hd, heq⟩
    · rw [heq]
      exact hkey
    · rw [← heq]
      exact (hV.object_iff.mp h d hd).1
  · rcases Entries.mem_put he with hmem | hvalue
    · exact (hV.object_iff.mp h e hmem).2
    · rw [hvalue]
      exact hv

theorem Hereditary.filter (h : V (object entries)) (keep : Key × Value → Bool) :
    V (object (entries.filter keep)) :=
  hV.object_iff.mpr fun e he => hV.object_iff.mp h e (List.mem_filter.mp he).1

theorem Hereditary.putAll (h : V (object entries)) (hpairs : V (object pairs)) :
    V (object (Entries.putAll pairs entries)) := by
  induction pairs generalizing entries with
  | nil => exact h
  | cons p rest ih =>
    obtain ⟨⟨hkey, hvalue⟩, hrest⟩ := List.forall_mem_cons.mp (hV.object_iff.mp hpairs)
    exact ih (hV.put h hkey hvalue) (hV.object_iff.mpr hrest)

theorem Hereditary.rename (h : V (object entries)) (old : Key) {new : Key} (hnew : K new) :
    V (object (Entries.rename old new entries)) := by
  refine hV.putAll (hV.object_iff.mpr nofun) (hV.object_iff.mpr fun e he => ?_)
  obtain ⟨d, hd, rfl⟩ := List.mem_map.mp he
  obtain ⟨hkey, hvalue⟩ := hV.object_iff.mp h d hd
  refine ⟨?_, hvalue⟩
  by_cases hold : d.1.same old = true
  · exact (if_pos hold).symm ▸ hnew
  · exact (if_neg hold).symm ▸ hkey

end Hereditary

/-! ## Objects that hold each key once -/

namespace KeysDistinct

variable {old new : Key}

theorem find? (h : (Value.object entries).KeysDistinct) (hv : Entries.find? key entries = some v) :
    v.KeysDistinct := by
  cases h with
  | object hkeys hvalues =>
    obtain ⟨e, he, -, rfl⟩ := Entries.mem_of_find? hv
    exact hvalues e he

theorem put (h : (Value.object entries).KeysDistinct) (hv : v.KeysDistinct) :
    (Value.object (Entries.put key v entries)).KeysDistinct := by
  cases h with
  | object hkeys hvalues =>
    refine .object hkeys.put fun e he => ?_
    rcases Entries.mem_put he with hmem | hvalue
    · exact hvalues e hmem
    · exact hvalue ▸ hv

theorem filter (h : (Value.object entries).KeysDistinct) (keep : Key × Value → Bool) :
    (Value.object (entries.filter keep)).KeysDistinct := by
  cases h with
  | object hkeys hvalues =>
    exact .object (hkeys.sublist List.filter_sublist) fun e he =>
      hvalues e (List.mem_filter.mp he).1

theorem rename (h : (Value.object entries).KeysDistinct) :
    (Value.object (Entries.rename old new entries)).KeysDistinct := by
  cases h with
  | object hkeys hvalues =>
    refine .object (Entries.distinct_ofPairs _) fun e he => ?_
    obtain ⟨d, hd, hvalue⟩ := Entries.mem_ofPairs he
    obtain ⟨c, hc, rfl⟩ := List.mem_map.mp hd
    exact hvalue ▸ hvalues c hc

end KeysDistinct

/-! ## Writing -/

mutual

theorem render?_of_checked (style : Json.Style) :
    ∀ {v : Value} (depth : Nat), v.Checked → ∃ s, Json.render? style depth v = some s
  | .scalar s, _, _ => ⟨Json.scalar style s, rfl⟩
  | .array items, depth, h => by
    obtain ⟨parts, hparts⟩ := renderItems?_of_checked style (depth + 1) (checked_array.mp h)
    rw [Json.render?, hparts]
    exact ⟨_, rfl⟩
  | .object entries, depth, h => by
    obtain ⟨parts, hparts⟩ := renderEntries?_of_checked style (depth + 1) (checked_object.mp h)
    rw [Json.render?, hparts]
    exact ⟨_, rfl⟩
  | .tuple _, _, h => nomatch h
  | .set _, _, h => nomatch h
  | .bytes _, _, h => nomatch h
  | .thing, _, h => nomatch h
  | .missing, _, h => nomatch h

theorem renderItems?_of_checked (style : Json.Style) :
    ∀ {items : List Value} (depth : Nat), (∀ v ∈ items, v.Checked) →
      ∃ parts, Json.renderItems? style depth items = some parts
  | [], _, _ => ⟨[], rfl⟩
  | v :: rest, depth, h => by
    obtain ⟨hv, hrest⟩ := List.forall_mem_cons.mp h
    obtain ⟨s, hs⟩ := render?_of_checked style depth hv
    obtain ⟨parts, hparts⟩ := renderItems?_of_checked style depth hrest
    rw [Json.renderItems?, hs, hparts]
    exact ⟨_, rfl⟩

theorem renderEntries?_of_checked (style : Json.Style) :
    ∀ {entries : List (Key × Value)} (depth : Nat),
      (∀ e ∈ entries, (∃ name, e.1 = .text name) ∧ e.2.Checked) →
        ∃ parts, Json.renderEntries? style depth entries = some parts
  | [], _, _ => ⟨[], rfl⟩
  | (k, v) :: rest, depth, h => by
    obtain ⟨⟨⟨name, hname⟩, hv⟩, hrest⟩ := List.forall_mem_cons.mp h
    obtain rfl : k = .text name := hname
    obtain ⟨s, hs⟩ := render?_of_checked style depth hv
    obtain ⟨parts, hparts⟩ := renderEntries?_of_checked style depth hrest
    rw [Json.renderEntries?, hs, hparts]
    exact ⟨_, rfl⟩

end

/-- What JSON can hold is written. -/
theorem Checked.toJson (h : v.Checked) (style : Json.Style) : ∃ s, v.toJson style = .ok s := by
  obtain ⟨s, hs⟩ := render?_of_checked style 0 h
  refine ⟨s, ?_⟩
  have hjson : v.json? style = some s := hs
  unfold Value.toJson
  rw [h.check, hjson]

end Value
end Lineage
