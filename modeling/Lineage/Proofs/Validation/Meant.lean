import Lineage.Proofs.Field.Meaning
import Lineage.Proofs.Validation.Acceptance

/-
What validation accepts is meant.

Whatever the options, a value about which nothing is found is one of those that its
field stands for.  Of the field only the bounds matter: they must not be NaN.
-/

namespace Lineage
namespace Field

open Validation

variable {o : Options}

theorem below_eq_false_iff {n : Number} {bound : Option Number} (hn : n.isReal = true)
    (hbound : RealBound bound) :
    below n bound = false ↔ ∀ b, bound = some b → b.atMost n = true := by
  cases bound with
  | none => simp [below]
  | some b =>
    show n.lt b = false ↔ _
    rw [Number.lt_eq_false_iff hn (hbound b rfl)]
    simp

theorem above_eq_false_iff {n : Number} {bound : Option Number} (hn : n.isReal = true)
    (hbound : RealBound bound) :
    above n bound = false ↔ ∀ b, bound = some b → n.atMost b = true := by
  cases bound with
  | none => simp [above]
  | some b =>
    show b.lt n = false ↔ _
    rw [Number.lt_eq_false_iff (hbound b rfl) hn]
    simp

theorem inBounds_iff {low high : Option Number} {n : Number} (hn : n.isReal = true)
    (hlow : RealBound low) (hhigh : RealBound high) :
    InBounds low high n ↔ below n low = false ∧ above n high = false := by
  rw [below_eq_false_iff hn hlow, above_eq_false_iff hn hhigh]
  rfl

theorem isReal_count (n : Nat) : (count n).isReal = true := rfl

variable [Externals]

/-- A value about which nothing is found is one that the field stands for. -/
theorem means_of_validate {f : Field} (hreal : f.Everywhere HasRealBounds) {v : Value}
    (hv : v.Checked) {path : Path} (h : f.validate o path v = .ok []) : f.Means o.strict v := by
  induction f generalizing v path with
  | string low high pattern format =>
    obtain ⟨s, rfl, hbelow, habove, hpattern, hformat⟩ := validate_string_eq_nil.mp h
    have hbounds := (inBounds_iff (isReal_count s.length) hreal.here.1 hreal.here.2).mpr
      ⟨hbelow, habove⟩
    simp only [Means]
    exact ⟨s, rfl, hbounds, hpattern, hformat⟩
  | number low high integerOnly =>
    obtain ⟨n, rfl, hwhole, hbelow, habove⟩ := validate_number_eq_nil.mp h
    have hbounds := (inBounds_iff hv.isReal hreal.here.1 hreal.here.2).mpr ⟨hbelow, habove⟩
    simp only [Means]
    exact ⟨n, rfl, hwhole, hbounds⟩
  | boolean => simpa only [Means] using validate_boolean_eq_nil.mp h
  | null => simpa only [Means] using validate_null_eq_nil.mp h
  | any => simpa only [Means] using hv
  | literal value => simpa only [Means] using validate_literal_eq_nil.mp h
  | array element low high ih =>
    obtain ⟨items, rfl, ⟨hleast, hbelow, habove⟩, hitems⟩ := validate_array_eq_nil.mp h
    have hbounds := (inBounds_iff (isReal_count items.length) hreal.here.1 hreal.here.2).mpr
      ⟨hbelow, habove⟩
    simp only [Means]
    refine ⟨items, rfl, hleast, hbounds, fun w hw => ?_⟩
    obtain ⟨q, hq⟩ := exists_of_validateEach hitems w hw
    exact ih hreal.arrayElement (Value.checked_array.mp hv w hw) hq
  | tuple fields ih =>
    obtain ⟨items, rfl, hlength, hitems⟩ := validate_tuple_eq_nil.mp h
    rw [means_tuple]
    refine ⟨items, rfl, ?_⟩
    have hall := forall₂_of_validateItems hlength hitems
    refine Alongside.imp_mem hall fun f hf w hw haccepted => ?_
    obtain ⟨q, hq⟩ := haccepted
    exact ih f hf (hreal.tupleItem hf) (Value.checked_array.mp hv w hw) hq
  | object members ih =>
    obtain ⟨entries, rfl, hmembers, hdeclared⟩ := validate_object_eq_nil.mp h
    rw [means_object]
    refine ⟨entries, rfl, fun m hm => ?_, hdeclared⟩
    have hmember := hmembers m hm
    unfold validateMember at hmember
    split at hmember
    · next w hw =>
      exact (meansMember_of_some hw).mpr
        (ih m hm (hreal.objectMember hm) (hv.find? hw) hmember)
    · next hnone =>
      split at hmember
      · cases hmember
      · next hrequired =>
        exact (meansMember_of_none hnone).mpr (Bool.not_eq_true _ |>.mp hrequired)
  | optional inner ih =>
    simp only [Means]
    exact ((validate_optional_eq_nil hv.ne_missing).mp h).imp_right
      (ih hreal.optionalInner hv)
  | defaulted inner value ih =>
    rw [validate_defaulted_present hv.ne_missing] at h
    simp only [Means]
    exact ih hreal.defaultedInner hv h
  | union variants discriminant ih =>
    rw [means_union]
    cases discriminant with
    | none =>
      obtain ⟨results, hresults, hjudge⟩ := (validate_union_eq_ok hv.ne_missing).mp h
      obtain ⟨f, hf, hnil⟩ := Alongside.exists_left hresults (mem_of_judgeUnion hjudge)
      exact ⟨f, hf, ih f hf (hreal.unionVariant hf) hv hnil⟩
    | some key =>
      obtain ⟨entries, tag, f, rfl, -, hfind, hnil⟩ :=
        (validate_discriminated_eq_nil hv.ne_missing).mp h
      have hf := List.mem_of_find?_eq_some hfind
      exact ⟨f, hf, ih f hf (hreal.unionVariant hf) hv hnil⟩
  | custom check name =>
    simp only [Means]
    exact runCheck_of_validate h

end Field
end Lineage
