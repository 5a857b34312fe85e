import Lineage.Proofs.Value.Entries

/-
JSON values: values that pass the check and whose objects name each key once.

A list of entries could name a key twice, which no object does, so statements about
objects as a whole ask for both.
-/

namespace Lineage
namespace Value

/-- Each object in a value names each key once. -/
inductive KeysDistinct : Value → Prop
  | scalar (s : Scalar) : KeysDistinct (.scalar s)
  | array {items : List Value} (hitems : ∀ v ∈ items, KeysDistinct v) :
      KeysDistinct (.array items)
  | object {entries : List (Key × Value)} (hkeys : Entries.Distinct entries)
      (hvalues : ∀ e ∈ entries, KeysDistinct e.2) : KeysDistinct (.object entries)
  | tuple {items : List Value} (hitems : ∀ v ∈ items, KeysDistinct v) :
      KeysDistinct (.tuple items)
  | set (items : List Key) : KeysDistinct (.set items)
  | bytes (s : String) : KeysDistinct (.bytes s)
  | thing : KeysDistinct .thing
  | missing : KeysDistinct .missing

structure IsJson (v : Value) : Prop where
  checked : v.Checked
  distinct : v.KeysDistinct

theorem isJson_array {items : List Value} : (array items).IsJson ↔ ∀ v ∈ items, v.IsJson := by
  constructor
  · rintro ⟨hchecked, hdistinct⟩ v hv
    cases hdistinct with
    | array hitems => exact ⟨checked_array.mp hchecked v hv, hitems v hv⟩
  · intro h
    exact ⟨checked_array.mpr fun v hv => (h v hv).checked,
      .array fun v hv => (h v hv).distinct⟩

theorem isJson_object {entries : List (Key × Value)} :
    (object entries).IsJson ↔ Entries.Distinct entries ∧
      ∀ e ∈ entries, (∃ name, e.1 = .text name) ∧ e.2.IsJson := by
  constructor
  · rintro ⟨hchecked, hdistinct⟩
    cases hdistinct with
    | object hkeys hvalues =>
      refine ⟨hkeys, fun e he => ?_⟩
      obtain ⟨hname, hvalue⟩ := checked_object.mp hchecked e he
      exact ⟨hname, hvalue, hvalues e he⟩
  · rintro ⟨hkeys, h⟩
    exact ⟨checked_object.mpr fun e he => ⟨(h e he).1, (h e he).2.checked⟩,
      .object hkeys fun e he => (h e he).2.distinct⟩

theorem isJson_scalar {s : Scalar} (h : (scalar s).Checked) : (scalar s).IsJson :=
  ⟨h, .scalar s⟩

end Value
end Lineage
