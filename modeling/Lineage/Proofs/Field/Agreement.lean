import Lineage.Proofs.Field.Matching
import Lineage.Proofs.Field.Meaning
import Lineage.Proofs.Value.Equality

/-
Fields between which the comparison finds nothing stand for the same values.

Bounds are compared by value and texts letter by letter, members under their names in
any order, and items and variants side by side.
-/

namespace Lineage
namespace Field

open Validation

/-! ## Attributes -/

theorem inBounds_of_position {low high low' high' : Option Number} {n : Number}
    (hlow : low.map Number.position = low'.map Number.position)
    (hhigh : high.map Number.position = high'.map Number.position)
    (h : InBounds low' high' n) : InBounds low high n := by
  refine ⟨?_, ?_⟩
  · rintro b rfl
    obtain ⟨b', rfl, hposition⟩ := Option.map_eq_some_iff.mp hlow.symm
    rw [Number.atMost_congr_left hposition.symm]
    exact h.1 b' rfl
  · rintro b rfl
    obtain ⟨b', rfl, hposition⟩ := Option.map_eq_some_iff.mp hhigh.symm
    rw [Number.atMost_congr_right hposition.symm]
    exact h.2 b' rfl

theorem eq_of_sameBy_bool {a b : Bool} (h : (Value.bool a).sameBy Number.same (.bool b) = true) :
    a = b := by
  have hsame : (Number.int (if a then 1 else 0)).same (.int (if b then 1 else 0)) = true := h
  exact Number.bool_inj (Number.position_eq_of_same hsame)

/-! ## Whole trees -/

variable {strict : Bool}

variable [Externals]

theorem means_object_of_matches {expected actual : List (Member Field)}
    (hmembers : ∀ m ∈ expected, ∃ n, Member.find? m.name actual = some n ∧
      m.required = n.required ∧ ∀ v, Means strict n.field v → Means strict m.field v)
    (hdeclared : ∀ m ∈ actual, Member.declares expected m.name = true) {v : Value}
    (h : Means strict (.object actual) v) : Means strict (.object expected) v := by
  obtain ⟨entries, rfl, hmeans, hkeys⟩ := means_object.mp h
  refine means_object.mpr ⟨entries, rfl, fun m hm => ?_, fun hstrict e he => ?_⟩
  · obtain ⟨n, hn, hrequired, hfield⟩ := hmembers m hm
    have hname := Member.name_of_find? hn
    have hmember := hmeans n (Member.mem_of_find? hn)
    cases hentry : Entries.find? (.text m.name) entries with
    | none =>
      rw [meansMember_of_none hentry, hrequired]
      exact (meansMember_of_none (hname ▸ hentry)).mp hmember
    | some w =>
      rw [meansMember_of_some hentry]
      exact hfield w ((meansMember_of_some (hname ▸ hentry)).mp hmember)
  · have hkey := hkeys hstrict e he
    unfold isDeclared at hkey ⊢
    cases htext : e.1.text? with
    | none =>
      rw [htext] at hkey
      cases hkey
    | some name =>
      rw [htext, Option.any_some] at hkey
      obtain ⟨n, hn⟩ := Option.isSome_iff_exists.mp hkey
      rw [Option.any_some, ← Member.name_of_find? hn]
      exact hdeclared n (Member.mem_of_find? hn)

/-- A value that a field stands for is one that every field stands for between which and it
the comparison finds nothing. -/
theorem means_of_matches {expected actual : Field} (hcustom : expected.Everywhere NotCustom)
    (hexpected : expected.Everywhere HasDeclaredTypes) (hactual : actual.Everywhere HasDeclaredTypes)
    (hmatches : Matches expected actual) {v : Value} (h : Means strict actual v) :
    Means strict expected v := by
  induction expected using childInduction generalizing actual v with
  | h expected ih =>
    cases matches_iff.mp hmatches with
    | string pattern format hlow hhigh =>
      simp only [Means] at h ⊢
      obtain ⟨s, rfl, hbounds, hrest⟩ := h
      exact ⟨s, rfl, inBounds_of_position (position_of_boundDiffers hlow)
        (position_of_boundDiffers hhigh) hbounds, hrest⟩
    | number hlow hhigh hflag =>
      obtain ⟨a, rfl⟩ := hexpected.here
      obtain ⟨b, rfl⟩ := hactual.here
      obtain rfl := eq_of_sameBy_bool hflag.1
      simp only [Means] at h ⊢
      obtain ⟨n, rfl, hwhole, hbounds⟩ := h
      exact ⟨n, rfl, hwhole, inBounds_of_position (position_of_boundDiffers hlow)
        (position_of_boundDiffers hhigh) hbounds⟩
    | boolean => exact h
    | null => exact h
    | any => exact h
    | literal hequal =>
      simp only [Means] at h ⊢
      obtain ⟨s, rfl, hs⟩ := h
      exact ⟨s, rfl, Scalar.equal_trans hequal hs⟩
    | array hlow hhigh hmatch =>
      simp only [Means] at h ⊢
      obtain ⟨items, rfl, -, hbounds, hitems⟩ := h
      obtain ⟨least, rfl⟩ := hexpected.here
      refine ⟨items, rfl, rfl, inBounds_of_position (position_of_boundDiffers hlow)
        (position_of_boundDiffers hhigh) hbounds, fun w hw => ?_⟩
      exact ih _ List.mem_cons_self hcustom.arrayElement hexpected.arrayElement
        hactual.arrayElement hmatch (hitems w hw)
    | tuple hsides =>
      obtain ⟨items, rfl, hitems⟩ := means_tuple.mp h
      refine means_tuple.mpr ⟨items, rfl, Alongside.meet hsides (List.Forall₂.flip hitems) ?_⟩
      intro f hf w _ g hg hmatch hw
      exact ih f hf (hcustom.tupleItem hf) (hexpected.tupleItem hf) (hactual.tupleItem hg) hmatch hw
    | object hmembers hdeclared =>
      refine means_object_of_matches (fun m hm => ?_) hdeclared h
      obtain ⟨n, hn, hrequired, hmatch⟩ := hmembers m hm
      refine ⟨n, hn, hrequired, fun w hw => ?_⟩
      exact ih m.field (List.mem_map_of_mem hm) (hcustom.objectMember hm)
        (hexpected.objectMember hm) (hactual.objectMember (Member.mem_of_find? hn)) hmatch hw
    | optional hmatch =>
      simp only [Means] at h ⊢
      exact h.imp_right (ih _ List.mem_cons_self hcustom.optionalInner hexpected.optionalInner
        hactual.optionalInner hmatch)
    | defaulted _ hmatch =>
      simp only [Means] at h ⊢
      exact ih _ List.mem_cons_self hcustom.defaultedInner hexpected.defaultedInner
        hactual.defaultedInner hmatch h
    | union key hsides =>
      obtain ⟨g, hg, hmeans⟩ := means_union.mp h
      obtain ⟨f, hf, hmatch⟩ := Alongside.exists_left hsides hg
      exact means_union.mpr ⟨f, hf, ih f hf (hcustom.unionVariant hf) (hexpected.unionVariant hf)
        (hactual.unionVariant hg) hmatch hmeans⟩
    | custom _ _ => exact hcustom.here.elim

end Field
end Lineage
