import Lineage.Proofs.Field.Constructed
import Lineage.Proofs.Field.Members
import Lineage.Proofs.Validation.Acceptance
import Lineage.Proofs.Value.Equality

/-
Tags of variants.

A discriminant is followed by identity, and no two tags of a union are identical, so a tag
leads to the one variant that has it.
-/

namespace Lineage
namespace Field

open Validation

variable {o : Options} {path : Path} {v : Value} {key : String} {variants : List Field}
variable {f : Field} {tag s : Scalar}

/-- The one element of a list that satisfies a condition is the first. -/
theorem find?_of_pairwise {α : Type} {p : α → Bool} {l : List α} {a : α} (ha : a ∈ l)
    (hp : p a = true) (hone : l.Pairwise fun b c => ¬(p b = true ∧ p c = true)) :
    l.find? p = some a := by
  induction l with
  | nil => cases ha
  | cons b rest ih =>
    obtain ⟨hb, hrest⟩ := List.pairwise_cons.mp hone
    rcases List.mem_cons.mp ha with rfl | ha
    · rw [List.find?_cons, hp]
    · have hpb : p b = false := Bool.not_eq_true _ |>.mp fun h => hb a ha ⟨h, hp⟩
      rw [List.find?_cons, hpb]
      exact ih ha hrest

theorem tagOf?_eq_some (h : f.tagOf? key = some tag) :
    ∃ members, f = .object members ∧
      Member.find? key members = some ⟨key, true, .literal tag⟩ := by
  unfold tagOf? at h
  split at h
  · next members =>
    split at h
    · next name value hfind =>
      cases h
      obtain rfl : name = key := Member.name_of_find? hfind
      exact ⟨members, rfl, hfind⟩
    · cases h
  · cases h

theorem hasTag_iff :
    hasTag key (.scalar s) f = true ↔ ∃ tag, f.tagOf? key = some tag ∧ tag.identical s = true := by
  unfold hasTag
  cases f.tagOf? key with
  | none => simp
  | some tag => simp

/-- A scalar that is identical to the tag of a variant leads to that variant. -/
theorem find?_hasTag (hdistinct : TagsDistinct key variants) (hf : f ∈ variants)
    (htag : f.tagOf? key = some tag) (hs : tag.identical s = true) :
    variants.find? (hasTag key (.scalar s)) = some f := by
  refine find?_of_pairwise hf (hasTag_iff.mpr ⟨tag, htag, hs⟩)
    (hdistinct.distinct.imp fun {g k} hgk => ?_)
  rintro ⟨hg, hk⟩
  obtain ⟨a, ha, has⟩ := hasTag_iff.mp hg
  obtain ⟨b, hb, hbs⟩ := hasTag_iff.mp hk
  have hidentical := Scalar.identical_trans hbs (Scalar.identical_comm a s ▸ has)
  rw [hgk a b ha hb] at hidentical
  cases hidentical

variable [Externals]

/-- A value that a tagged variant accepts carries an equal of the variant's tag. -/
theorem tag_of_validate (htag : f.tagOf? key = some tag) (h : f.validate o path v = .ok []) :
    ∃ entries s, v = .object entries ∧ Entries.find? (.text key) entries = some (.scalar s) ∧
      tag.equal s = true := by
  obtain ⟨members, rfl, hfind⟩ := tagOf?_eq_some htag
  obtain ⟨entries, rfl, hmembers, -⟩ := validate_object_eq_nil.mp h
  have hmember := hmembers _ (Member.mem_of_find? hfind)
  unfold validateMember at hmember
  refine ⟨entries, ?_⟩
  cases hentry : Entries.find? (.text key) entries with
  | none =>
    simp only [hentry, if_true] at hmember
    cases hmember
  | some w =>
    simp only [hentry] at hmember
    obtain ⟨s, rfl, hs⟩ := validate_literal_eq_nil.mp hmember
    exact ⟨s, rfl, rfl, hs⟩

end Field
end Lineage
