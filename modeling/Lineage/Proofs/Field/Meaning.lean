import Lineage.Validation
import Lineage.Proofs.Field.Attributes
import Lineage.Proofs.Value.Checked
import Lineage.Proofs.Alongside

/-
The set of values that a field stands for.

`Means` says by recursion on the field which values it is about: bounds are
inclusive, a union is the union of its variants, told apart or not, and a wrapper
adds null or nothing to what it holds.  It knows of no results, no places and no
absent values.  The lemmas below read it off the members, items and variants at
once and through the wrappers around a field.
-/

namespace Lineage
namespace Field

open Validation

/-- A number within inclusive bounds, either of which may be missing. -/
def InBounds (low high : Option Number) (n : Number) : Prop :=
  (∀ b, low = some b → b.atMost n = true) ∧ (∀ b, high = some b → n.atMost b = true)

variable [Externals]

mutual

/-- Whether a value is one of those that a field stands for; a strict object has no
undeclared keys. -/
def Means (strict : Bool) : Field → Value → Prop
  | .string minLen maxLen pattern format, v =>
    ∃ s, v = .text s ∧ InBounds minLen maxLen (count s.length) ∧
      (∀ p, pattern = some p → p.matchesText s = .ok true) ∧
      ∀ g, format = some g → g.matchesText s = true
  | .number min max integerOnly, v =>
    ∃ n, v = .number n ∧ (integerOnly.truthy = true → n.isIntegral = true) ∧ InBounds min max n
  | .boolean, v => ∃ b, v = .bool b
  | .null, v => v = .null
  | .any, v => v.Checked
  | .literal value, v => ∃ s, v = .scalar s ∧ value.equal s = true
  -- Without a least count there is nothing to compare with, and no array is meant.
  | .array element minItems maxItems, v =>
    ∃ items, v = .array items ∧ minItems.isSome = true ∧
      InBounds minItems maxItems (count items.length) ∧ ∀ w ∈ items, Means strict element w
  | .tuple fields, v => ∃ items, v = .array items ∧ MeansEach strict fields items
  | .object members, v =>
    ∃ entries, v = .object entries ∧ MeansMembers strict members entries ∧
      (strict = true → ∀ e ∈ entries, isDeclared members e.1 = true)
  | .optional inner, v => v = .null ∨ Means strict inner v
  | .defaulted inner _, v => Means strict inner v
  | .union variants _, v => MeansSome strict variants v
  | .custom check _, v => runCheck check v = .ok []

/-- Each item is meant by the field at its place, and there are no others. -/
def MeansEach (strict : Bool) : List Field → List Value → Prop
  | [], [] => True
  | f :: fields, v :: items => Means strict f v ∧ MeansEach strict fields items
  | _, _ => False

/-- Each name that is there is meant by its field, and each required one is there. -/
def MeansMembers (strict : Bool) : List (Member Field) → List (Key × Value) → Prop
  | [], _ => True
  | ⟨name, required, f⟩ :: rest, entries =>
    (match Entries.find? (.text name) entries with
      | some v => Means strict f v
      | none => required = false) ∧ MeansMembers strict rest entries

def MeansSome (strict : Bool) : List Field → Value → Prop
  | [], _ => False
  | f :: rest, v => Means strict f v ∨ MeansSome strict rest v

end

/-! ## Members, items and variants -/

/-- What a member asks of the entries of an object. -/
def MeansMember (strict : Bool) (entries : List (Key × Value)) (m : Member Field) : Prop :=
  match Entries.find? (.text m.name) entries with
  | some v => Means strict m.field v
  | none => m.required = false

variable {strict : Bool}

theorem meansEach_iff {fields : List Field} {items : List Value} :
    MeansEach strict fields items ↔ List.Forall₂ (Means strict) fields items := by
  induction fields generalizing items with
  | nil => cases items <;> simp [MeansEach]
  | cons f rest ih => cases items <;> simp [MeansEach, ih]

theorem meansMembers_iff {members : List (Member Field)} {entries : List (Key × Value)} :
    MeansMembers strict members entries ↔ ∀ m ∈ members, MeansMember strict entries m := by
  induction members with
  | nil => simp [MeansMembers]
  | cons m rest ih =>
    rw [List.forall_mem_cons, ← ih]
    rfl

theorem meansSome_iff {variants : List Field} {v : Value} :
    MeansSome strict variants v ↔ ∃ f ∈ variants, Means strict f v := by
  induction variants with
  | nil => simp [MeansSome]
  | cons f rest ih => simp [MeansSome, ih]

theorem means_tuple {fields : List Field} {v : Value} :
    Means strict (.tuple fields) v ↔
      ∃ items, v = .array items ∧ List.Forall₂ (Means strict) fields items := by
  simp only [Means, meansEach_iff]

theorem means_object {members : List (Member Field)} {v : Value} :
    Means strict (.object members) v ↔
      ∃ entries, v = .object entries ∧ (∀ m ∈ members, MeansMember strict entries m) ∧
        (strict = true → ∀ e ∈ entries, isDeclared members e.1 = true) := by
  simp only [Means, meansMembers_iff]

theorem means_union {variants : List Field} {key : Option String} {v : Value} :
    Means strict (.union variants key) v ↔ ∃ f ∈ variants, Means strict f v := by
  simp only [Means, meansSome_iff]

theorem meansMember_of_some {entries : List (Key × Value)} {m : Member Field} {v : Value}
    (hv : Entries.find? (.text m.name) entries = some v) :
    MeansMember strict entries m ↔ Means strict m.field v := by
  unfold MeansMember
  rw [hv]

theorem meansMember_of_none {entries : List (Key × Value)} {m : Member Field}
    (hnone : Entries.find? (.text m.name) entries = none) :
    MeansMember strict entries m ↔ m.required = false := by
  unfold MeansMember
  rw [hnone]

/-! ## Strictness -/

/-- What is meant strictly is also meant when undeclared keys are let through. -/
theorem Means.lenient {f : Field} {v : Value} (h : Means true f v) : Means false f v := by
  induction f generalizing v with
  | array element minItems maxItems ih =>
    simp only [Means] at h ⊢
    obtain ⟨items, rfl, hleast, hcount, hitems⟩ := h
    exact ⟨items, rfl, hleast, hcount, fun w hw => ih (hitems w hw)⟩
  | tuple fields ih =>
    rw [means_tuple] at h ⊢
    obtain ⟨items, rfl, hitems⟩ := h
    exact ⟨items, rfl, Alongside.imp_mem hitems fun f hf w _ hw => ih f hf hw⟩
  | object members ih =>
    rw [means_object] at h ⊢
    obtain ⟨entries, rfl, hmembers, -⟩ := h
    refine ⟨entries, rfl, fun m hm => ?_, nofun⟩
    have hmeans := hmembers m hm
    cases hfind : Entries.find? (.text m.name) entries with
    | none =>
      rw [meansMember_of_none hfind] at hmeans ⊢
      exact hmeans
    | some w =>
      rw [meansMember_of_some hfind] at hmeans ⊢
      exact ih m hm hmeans
  | optional inner ih =>
    simp only [Means] at h ⊢
    exact h.imp_right ih
  | defaulted inner value ih =>
    simp only [Means] at h ⊢
    exact ih h
  | union variants key ih =>
    rw [means_union] at h ⊢
    obtain ⟨f, hf, hmeans⟩ := h
    exact ⟨f, hf, ih f hf hmeans⟩
  | string | number | boolean | null | any | literal | custom => simpa only [Means] using h

theorem Means.of_strict {f : Field} {v : Value} (h : Means true f v) : Means strict f v := by
  cases strict with
  | true => exact h
  | false => exact h.lenient

end Field
end Lineage
