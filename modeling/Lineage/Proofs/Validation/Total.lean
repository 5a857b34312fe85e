import Lineage.Proofs.Validation.Unambiguous
import Lineage.Proofs.Value.Edited

/-
Validation gives a result.

It can fail only at a check that an author supplies, at a pattern of octets, at an array
without a least count, and at a key that is no text.  Where a tree has none of the first
three and a value none of the last, validation gives a result under all options.
-/

namespace Lineage
namespace Field

open Validation

variable {o : Options} {path : Path} {v : Value}

/-- What stands for an absent value is a JSON value. -/
def HasCheckedDefault : Field → Prop
  | defaulted _ value => value.Checked
  | _ => True

/-- What validation needs at one field to give a result. -/
structure Answerable (f : Field) : Prop where
  notCustom : f.NotCustom
  textPattern : f.HasTextPattern
  leastCount : f.HasLeastCount
  checkedDefault : f.HasCheckedDefault

variable [Externals]

theorem SoundHere.checkedDefault {f : Field} (h : f.SoundHere) : f.HasCheckedDefault := by
  cases f with
  | defaulted => exact h.1.checked
  | _ => exact trivial

theorem Constructed.answerable {f : Field} (hf : f.Constructed) (hcustom : f.Everywhere NotCustom)
    (hpattern : f.Everywhere HasTextPattern) (hcount : f.Everywhere HasLeastCount) :
    f.Everywhere Answerable :=
  fun g hg => ⟨hcustom g hg, hpattern g hg, hcount g hg, (hf.sound g hg).checkedDefault⟩

/-! ## Parts -/

omit [Externals] in
theorem undeclared_texts {members : List (Member Field)} {entries : List (Key × Value)}
    (h : ∀ e ∈ entries, ∃ name, e.1 = .text name) :
    (undeclared members path entries).Returns := by
  refine undeclared_returns.mpr fun e he => .inr ?_
  obtain ⟨name, hname⟩ := h e he
  rw [hname]
  exact Outcome.returns_ok (path.key name)

theorem validateItems_returns {fields : List Field} {index : Nat} {items : List Value}
    (h : ∀ f ∈ fields, ∀ w ∈ items, ∀ q, (f.validate o q w).Returns) :
    (validateItems o fields path index items).Returns := by
  induction fields generalizing index items with
  | nil => exact Outcome.returns_ok _
  | cons f rest ih =>
    cases items with
    | nil => exact Outcome.returns_ok _
    | cons w more =>
      refine (h f List.mem_cons_self w List.mem_cons_self _).append (ih fun g hg u hu => ?_)
      exact h g (List.mem_cons_of_mem _ hg) u (List.mem_cons_of_mem _ hu)

theorem validateMember_returns {m : Member Field} {entries : List (Key × Value)}
    (h : ∀ w, MemberValue entries m.name w → ∀ q, (m.field.validate o q w).Returns) :
    (validateMember o path entries m).Returns := by
  unfold validateMember
  split
  · next w hw => exact h w (.inl hw) _
  · split
    · exact Outcome.returns_ok _
    · split
      · exact h .missing (.inr rfl) _
      · exact Outcome.returns_ok _

/-! ## Whole trees -/

/-- Something whose parts all have kinds, or nothing at all. -/
def KindedOrMissing (v : Value) : Prop := v = .missing ∨ v.Kinded

omit [Externals] in
theorem KindedOrMissing.kinded (h : KindedOrMissing v) (hne : v ≠ .missing) : v.Kinded :=
  h.resolve_left hne

/-- Validation gives a result on every such value, and where nothing is there. -/
theorem validate_answers {f : Field} (hf : f.Everywhere Answerable) (hv : KindedOrMissing v) :
    (f.validate o path v).Returns := by
  induction f generalizing v path with
  | string low high pattern format =>
    rw [validate_string]
    split
    · exact Outcome.returns_ok _
    · refine validateText_returns.mpr fun p hp => ?_
      obtain ⟨t, rfl⟩ := hf.here.textPattern p hp
      exact matchesText_text t _
    · exact Outcome.returns_ok _
  | number =>
    rw [validate_number]
    split
    · exact Outcome.returns_ok _
    · exact Outcome.returns_ok _
    · exact Outcome.returns_ok _
  | boolean =>
    rw [validate_boolean]
    split
    · exact Outcome.returns_ok _
    · exact Outcome.returns_ok _
    · exact Outcome.returns_ok _
  | null =>
    rw [validate_null]
    split
    · exact Outcome.returns_ok _
    · exact Outcome.returns_ok _
    · exact Outcome.returns_ok _
  | any =>
    rw [validate_any]
    split
    · exact Outcome.returns_ok _
    · exact Outcome.returns_ok _
  | literal =>
    rw [validate_literal]
    split
    · exact Outcome.returns_ok _
    · exact Outcome.returns_ok _
  | array element low high ih =>
    rw [validate_array]
    split
    · exact Outcome.returns_ok _
    · next items =>
      have hitems := Value.hereditary_kinded.array_iff.mp (hv.kinded nofun)
      obtain ⟨n, rfl⟩ := hf.here.leastCount
      exact Outcome.Returns.append (Outcome.returns_ok _)
        (validateEach_returns fun w hw q => ih hf.arrayElement (.inr (hitems w hw)))
    · exact Outcome.returns_ok _
  | tuple fields ih =>
    rw [validate_tuple]
    split
    · exact Outcome.returns_ok _
    · next items =>
      have hitems := Value.hereditary_kinded.array_iff.mp (hv.kinded nofun)
      split
      · exact validateItems_returns fun f hfmem w hw q =>
          ih f hfmem (hf.tupleItem hfmem) (.inr (hitems w hw))
      · exact Outcome.returns_ok _
    · exact Outcome.returns_ok _
  | object members ih =>
    rw [validate_object]
    split
    · exact Outcome.returns_ok _
    · next entries =>
      have hkinded := hv.kinded nofun
      have hentries := Value.hereditary_kinded.object_iff.mp hkinded
      have hdeclared : (validateMembers o members path entries).Returns :=
        validateMembers_returns.mpr fun m hm => validateMember_returns fun w hw q =>
          ih m hm (hf.objectMember hm)
            (hw.elim (fun hw => .inr (Value.hereditary_kinded.find? hkinded hw)) .inl)
      cases o.strict with
      | true =>
        exact hdeclared.append (undeclared_texts fun e he => (hentries e he).1)
      | false => exact hdeclared.append (Outcome.returns_ok _)
    · exact Outcome.returns_ok _
  | optional inner ih =>
    rw [validate_optional]
    split
    · exact Outcome.returns_ok _
    · exact Outcome.returns_ok _
    · exact ih hf.optionalInner hv
  | defaulted inner value ih =>
    rw [validate_defaulted]
    split
    · exact ih hf.defaultedInner (.inr hf.here.checkedDefault.kinded)
    · exact ih hf.defaultedInner hv
  | union variants discriminant ih =>
    rw [validate_union]
    split
    · exact Outcome.returns_ok _
    · next hne =>
      have hvariants : ∀ {q : Path}, ∀ f ∈ variants, (f.validate o q v).Returns :=
        fun f hfmem => ih f hfmem (hf.unionVariant hfmem) hv
      cases discriminant with
      | none => exact (validateVariants_returns.mpr hvariants).bind fun _ _ => Outcome.returns_ok _
      | some key =>
        simp only
        split
        · split
          · rw [validateTagged_eq]
            split
            · next g hg => exact hvariants g (List.mem_of_find?_eq_some hg)
            · exact Outcome.returns_ok _
          · exact Outcome.returns_ok _
        · exact Outcome.returns_ok _
  | custom check name => exact hf.here.notCustom.elim

end Field
end Lineage
