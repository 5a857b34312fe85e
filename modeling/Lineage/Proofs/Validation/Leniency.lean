import Lineage.Proofs.Validation.Total

/-
Lenient validation forgives undeclared keys and nothing else.

Without unions, lenient validation finds what strict validation finds, less the mismatches
about undeclared keys, in the same order.  In a union one more variant may match once such
keys are forgiven; that this makes no union ambiguous is due to the analysis of overlaps,
which holds for lenient variants.  So with unions, too, what strict validation accepts
lenient validation accepts, and it does not matter how ambiguous unions are judged.
-/

namespace Lineage
namespace Validation

/-! ## Forgiving -/

/-- What remains if undeclared keys are forgiven. -/
def forgiven (violations : List Violation) : List Violation :=
  violations.filter fun d => d.kind != .unexpectedField

/-- The second result is the first, less what is forgiven. -/
def Forgives (strict lenient : Result) : Prop := lenient = strict.map forgiven

theorem compositional_forgives : Compositional Forgives where
  basic {r} h := by
    cases r with
    | error e => rfl
    | ok vs =>
      have hall : forgiven vs = vs :=
        List.filter_eq_self.mpr fun d hd => bne_iff_ne.mpr (h vs rfl d hd).2.1
      exact congrArg Except.ok hall.symm
  append {x _ y _} := by
    rintro rfl rfl
    cases x with
    | error e => rfl
    | ok a =>
      cases y with
      | error e => rfl
      | ok b => exact congrArg Except.ok (List.filter_append a b).symm

theorem forgiven_undeclared {members : List (Member Field)} {path : Path}
    {entries : List (Key × Value)} {vs : List Violation}
    (h : undeclared members path entries = .ok vs) : forgiven vs = [] := by
  induction entries generalizing vs with
  | nil =>
    cases h
    rfl
  | cons e rest ih =>
    obtain ⟨key, v⟩ := e
    unfold undeclared at h
    split at h
    · exact ih h
    · obtain ⟨here, -, h⟩ := Outcome.bind_eq_ok.mp h
      obtain ⟨later, hlater, h⟩ := Outcome.bind_eq_ok.mp h
      cases h
      have hrest : forgiven later = [] := ih hlater
      exact hrest

/-! ## Relaxing -/

/-- The second result is there where the first is, and empty where the first is empty. -/
structure Relaxes (strict lenient : Result) : Prop where
  returns : strict.Returns → lenient.Returns
  empty : strict = .ok [] → lenient = .ok []

theorem compositional_relaxes : Compositional Relaxes where
  basic _ := ⟨id, id⟩
  append hx hy :=
    { returns := fun h =>
        let ⟨hleft, hright⟩ := Outcome.returns_append.mp h
        (hx.returns hleft).append (hy.returns hright)
      empty := fun h =>
        let ⟨hleft, hright⟩ := Outcome.append_eq_nil.mp h
        Outcome.append_eq_nil.mpr ⟨hx.empty hleft, hy.empty hright⟩ }

end Validation

namespace Field

open Validation

variable {o o' : Options} {path : Path} {v : Value}

/-! ## Trees without unions -/

/-- Not a union. -/
def NotUnion : Field → Prop
  | union _ _ => False
  | _ => True

/-- What forgiving needs at one field. -/
structure Forgivable (f : Field) : Prop where
  notUnion : f.NotUnion
  checkedDefault : f.HasCheckedDefault

variable [Externals]

theorem sensitive_forgives (hstrict : o.strict = true) (hlenient : o'.strict = false) :
    Sensitive Forgives Forgivable o o' where
  toCompositional := compositional_forgives
  extra {members path entries} h := by
    have hkeys := Value.hereditary_kinded.object_iff.mp h.kinded
    obtain ⟨vs, hvs⟩ := @undeclared_texts path members entries fun e he => (hkeys e he).1
    unfold undeclaredIf
    rw [hstrict, hlenient, if_pos rfl, hvs, if_neg Bool.false_ne_true]
    exact congrArg Except.ok (forgiven_undeclared hvs).symm
  variants hP := hP.here.notUnion.elim

/-- Lenient validation finds what strict validation finds, less what it forgives. -/
theorem validate_forgiven {f : Field} (hf : f.Everywhere Forgivable) (hv : CheckedOrMissing v)
    (hstrict : o.strict = true) (hlenient : o'.strict = false) :
    f.validate o' path v = (f.validate o path v).map forgiven :=
  (sensitive_forgives hstrict hlenient).validate (fun h => h.checkedDefault) hf hv

/-! ## Trees with unions -/

theorem sensitive_relaxes (hexclusive : Format.Exclusive)
    (hlax : o'.strict = true → o.strict = true) : Sensitive Relaxes Analysable o o' where
  toCompositional := compositional_relaxes
  extra {members path entries} _ := by
    unfold undeclaredIf
    by_cases hstrict : o'.strict = true
    · rw [if_pos hstrict, if_pos (hlax hstrict)]
      exact ⟨id, id⟩
    · rw [if_neg hstrict]
      exact ⟨fun _ => Outcome.returns_ok _, fun _ => rfl⟩
  variants {fs path v} hf hv h := by
    have hne := hv.ne_missing
    have hreturns : ∀ {results},
        List.Forall₂ (fun f r => f.validate o path v = .ok r) fs results →
        ∃ others, List.Forall₂ (fun f r => f.validate o' path v = .ok r) fs others := by
      intro results hall
      have hvariants : (validateVariants o fs path v).Returns :=
        ⟨results, validateVariants_eq_ok.mpr hall⟩
      obtain ⟨others, hothers⟩ := validateVariants_returns.mpr fun f hfmem =>
        (h f hfmem).returns (validateVariants_returns.mp hvariants f hfmem)
      exact ⟨others, validateVariants_eq_ok.mp hothers⟩
    constructor
    · rintro ⟨vs, hvs⟩
      obtain ⟨results, hall, -⟩ := (validate_union_eq_ok hne).mp hvs
      obtain ⟨others, hothers⟩ := hreturns hall
      exact ⟨_, (validate_union_eq_ok hne).mpr ⟨others, hothers, rfl⟩⟩
    · intro hnil
      obtain ⟨results, hall, hjudged⟩ := (validate_union_eq_ok hne).mp hnil
      obtain ⟨others, hothers⟩ := hreturns hall
      -- The variant that matched still matches, and no other one can.
      obtain ⟨f, hfmem, hmatch⟩ := Alongside.exists_left hall (mem_of_judgeUnion hjudged)
      obtain ⟨r, hr, hlenient⟩ := Alongside.exists_right hothers hfmem
      rw [(h f hfmem).empty hmatch] at hlenient
      cases hlenient
      have hone := atMostOneEmpty_of_variants hexclusive (fun f hfmem => hf.unionVariant hfmem)
        hf.here.sound.2 hv hothers
      exact (validate_union_eq_ok hne).mpr ⟨others, hothers, (judgeUnion_eq_nil hone).mpr hr⟩

/-- What is accepted is accepted under options that are not stricter, however either judges
ambiguous unions. -/
theorem accepts_of_laxer (hexclusive : Format.Exclusive) {f : Field} (hf : f.Everywhere Analysable)
    (hv : CheckedOrMissing v) (hlax : o'.strict = true → o.strict = true)
    (h : f.validate o path v = .ok []) :
    f.validate o' path v = .ok [] :=
  ((sensitive_relaxes hexclusive hlax).validate Analysable.checkedDefault hf hv).empty h

end Field
end Lineage
