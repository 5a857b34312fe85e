import Lineage.Proofs.Field.Tree
import Lineage.Proofs.Validation.Parts

/-
Two validations of one value side by side.

A relation between results that is kept when results are put together, and that a result
about a value by itself bears to itself, is carried through a field tree from the leaves up.
What is left to be shown about two sets of options are the places where options count: the
undeclared keys of an object and the variants of a union.
-/

namespace Lineage
namespace Validation

/-- A relation that is kept when results are put together. -/
structure Compositional (R : Result → Result → Prop) : Prop where
  basic {r : Result} (h : BasicResult r) : R r r
  append {x x' y y' : Result} (hx : R x x') (hy : R y y') :
    R (do let a ← x; let b ← y; return a ++ b) (do let a ← x'; let b ← y'; return a ++ b)

/-- What is found about undeclared keys, where they count. -/
def undeclaredIf (o : Options) (members : List (Member Field)) (path : Path)
    (entries : List (Key × Value)) : Result :=
  if o.strict then undeclared members path entries else .ok []

variable {R : Result → Result → Prop}

theorem Compositional.found (hR : Compositional R) {vs : List Violation} (h : Basic vs) :
    R (.ok vs) (.ok vs) :=
  hR.basic (basicResult_ok h)

theorem Compositional.each (hR : Compositional R) {item item' : Path → Value → Result}
    {path : Path} {index : Nat} {items : List Value}
    (h : ∀ v ∈ items, ∀ q, R (item q v) (item' q v)) :
    R (validateEach item path index items) (validateEach item' path index items) := by
  induction items generalizing index with
  | nil => exact hR.found basic_nil
  | cons v rest ih =>
    obtain ⟨hv, hrest⟩ := List.forall_mem_cons.mp h
    exact hR.append (hv _) (ih hrest)

theorem compositional_eq : Compositional Eq where
  basic _ := rfl
  append := by
    rintro x _ y _ rfl rfl
    rfl

theorem validateEach_congr {item item' : Path → Value → Result} {path : Path} {index : Nat}
    {items : List Value} (h : ∀ v ∈ items, ∀ q, item q v = item' q v) :
    validateEach item path index items = validateEach item' path index items :=
  compositional_eq.each h

end Validation

namespace Field

open Validation

variable {R : Result → Result → Prop} {P : Field → Prop} {o o' : Options} {path : Path} {v : Value}

/-! ## Values at the places of a value -/

/-- What a member is validated against: its entry, or the lack of one. -/
def MemberValue (entries : List (Key × Value)) (name : String) (v : Value) : Prop :=
  Entries.find? (.text name) entries = some v ∨ v = .missing

/-- What stands at a place of a value: a JSON value, or nothing at all. -/
def CheckedOrMissing (v : Value) : Prop := v = .missing ∨ v.Checked

theorem CheckedOrMissing.checked (h : CheckedOrMissing v) (hne : v ≠ .missing) : v.Checked :=
  h.resolve_left hne

theorem CheckedOrMissing.array {items : List Value} (h : CheckedOrMissing (.array items)) :
    (Value.array items).Checked :=
  h.checked fun hmissing => by cases hmissing

theorem CheckedOrMissing.object {entries : List (Key × Value)}
    (h : CheckedOrMissing (.object entries)) : (Value.object entries).Checked :=
  h.checked fun hmissing => by cases hmissing

theorem checkedOrMissing_item {items : List Value} (h : (Value.array items).Checked) {w : Value}
    (hw : w ∈ items) : CheckedOrMissing w :=
  .inr (Value.checked_array.mp h w hw)

theorem checkedOrMissing_member {entries : List (Key × Value)} (h : (Value.object entries).Checked)
    {name : String} {w : Value} (hw : MemberValue entries name w) : CheckedOrMissing w :=
  hw.elim (fun hw => .inr (h.find? hw)) .inl

/-! ## Parts -/

variable [Externals]

theorem related_items (hR : Compositional R) {fields : List Field} {index : Nat}
    {items : List Value} (h : ∀ f ∈ fields, ∀ w ∈ items, ∀ q,
      R (f.validate o q w) (f.validate o' q w)) :
    R (validateItems o fields path index items) (validateItems o' fields path index items) := by
  induction fields generalizing index items with
  | nil => exact hR.found basic_nil
  | cons f rest ih =>
    cases items with
    | nil => exact hR.found basic_nil
    | cons w more =>
      refine hR.append (h f List.mem_cons_self w List.mem_cons_self _) (ih fun g hg u hu => ?_)
      exact h g (List.mem_cons_of_mem _ hg) u (List.mem_cons_of_mem _ hu)

theorem related_members (hR : Compositional R) {members : List (Member Field)}
    {entries : List (Key × Value)} (h : ∀ m ∈ members, ∀ w, MemberValue entries m.name w → ∀ q,
      R (m.field.validate o q w) (m.field.validate o' q w)) :
    R (validateMembers o members path entries) (validateMembers o' members path entries) := by
  induction members with
  | nil => exact hR.found basic_nil
  | cons m rest ih =>
    obtain ⟨hm, hrest⟩ := List.forall_mem_cons.mp h
    rw [validateMembers_cons, validateMembers_cons]
    refine hR.append ?_ (ih hrest)
    unfold validateMember
    split
    · next w hw => exact hm w (.inl hw) _
    · split
      · exact hR.found (basic_violation (by decide))
      · split
        · exact hm .missing (.inr rfl) _
        · exact hR.found basic_nil

theorem validate_object_entries {members : List (Member Field)} {entries : List (Key × Value)} :
    (object members).validate o path (.object entries) = (do
      let declared ← validateMembers o members path entries
      let extra ← undeclaredIf o members path entries
      return declared ++ extra) := by
  rw [validate_object]
  unfold undeclaredIf
  cases o.strict with
  | true => rfl
  | false => rfl

/-! ## Whole trees -/

/-- What a relation has to satisfy where options count. -/
structure Sensitive (R : Result → Result → Prop) (P : Field → Prop) (o o' : Options) : Prop
    extends Compositional R where
  extra {members : List (Member Field)} {path : Path} {entries : List (Key × Value)}
    (h : (Value.object entries).Checked) :
    R (undeclaredIf o members path entries) (undeclaredIf o' members path entries)
  variants {fs : List Field} {path : Path} {v : Value} (hP : (union fs none).Everywhere P)
    (hv : v.Checked) (h : ∀ f ∈ fs, R (f.validate o path v) (f.validate o' path v)) :
    R ((union fs none).validate o path v) ((union fs none).validate o' path v)

/-- The two validations are related on every tree whose defaults are JSON values. -/
theorem Sensitive.validate (hR : Sensitive R P o o')
    (hdefault : ∀ {inner value}, P (.defaulted inner value) → value.Checked) {f : Field}
    (hf : f.Everywhere P) (hv : CheckedOrMissing v) :
    R (f.validate o path v) (f.validate o' path v) := by
  have hbasic : ∀ {r : Result}, BasicResult r → R r r := hR.toCompositional.basic
  induction f generalizing v path with
  | string | number | boolean | null | any | literal | custom =>
    exact hbasic (basic_validate trivial)
  | array element low high ih =>
    rw [validate_array, validate_array]
    split
    · exact hbasic basic_absent
    · exact hR.append (hbasic own_validateItemCount.basic) (hR.each fun w hw q =>
        ih hf.arrayElement (checkedOrMissing_item hv.array hw))
    · exact hbasic own_typeMismatch.basic
  | tuple fields ih =>
    rw [validate_tuple, validate_tuple]
    split
    · exact hbasic basic_absent
    · split
      · exact related_items hR.toCompositional fun f hfmem w hw q =>
          ih f hfmem (hf.tupleItem hfmem) (checkedOrMissing_item hv.array hw)
      · exact hR.found (basic_violation (by decide))
    · exact hbasic own_typeMismatch.basic
  | object members ih =>
    by_cases hentries : ∃ entries, v = .object entries
    · obtain ⟨entries, rfl⟩ := hentries
      rw [validate_object_entries, validate_object_entries]
      refine hR.append (related_members hR.toCompositional fun m hm w hw q => ?_)
        (hR.extra hv.object)
      exact ih m hm (hf.objectMember hm) (checkedOrMissing_member hv.object hw)
    · rw [validate_object, validate_object]
      split
      · exact hbasic basic_absent
      · next entries => exact absurd ⟨entries, rfl⟩ hentries
      · exact hbasic own_typeMismatch.basic
  | optional inner ih =>
    rw [validate_optional, validate_optional]
    split
    · exact hR.found basic_nil
    · exact hR.found basic_nil
    · exact ih hf.optionalInner hv
  | defaulted inner value ih =>
    rw [validate_defaulted, validate_defaulted]
    split
    · exact ih hf.defaultedInner (.inr (hdefault hf.here))
    · exact ih hf.defaultedInner hv
  | union variants discriminant ih =>
    have hvariants : ∀ {q : Path}, ∀ f ∈ variants,
        R (f.validate o q v) (f.validate o' q v) :=
      fun f hfmem => ih f hfmem (hf.unionVariant hfmem) hv
    by_cases hmissing : v = .missing
    · subst hmissing
      exact hbasic basic_absent
    cases discriminant with
    | none => exact hR.variants hf (hv.checked hmissing) hvariants
    | some key =>
      have hnone : R (.ok (noDiscriminant path key)) (.ok (noDiscriminant path key)) :=
        hR.found (basic_violation (by decide))
      rw [validate_union, validate_union]
      split
      · exact absurd rfl hmissing
      · simp only
        split
        · split
          · rw [validateTagged_eq, validateTagged_eq]
            split
            · next g hg => exact hvariants g (List.mem_of_find?_eq_some hg)
            · exact hR.found (basic_violation (by decide))
          · exact hnone
        · exact hnone

end Field
end Lineage
