import Lineage.Proofs.Field.Editing
import Lineage.Proofs.Field.Rebuilding
import Lineage.Proofs.Validation.Complete

/-
Typed fields and the values that fit them.

An object fits its field when under every name there is a member with an entry that
fits it, a member that need not be there, or nothing at all.  Edits of members and of
entries that agree under every name keep an object fitting, whatever the order of
either.
-/

namespace Lineage
namespace Field

variable [Externals]

/-- What a migration relies on at one field. -/
structure Typed (f : Field) : Prop extends Regular f where
  omitsOnlyAbsent : f.OmitsOnlyAbsent

/-- A field tree that a migration can be written over: it is built by checked construction
with attributes of their declared types, holds no check of an author's, no NaN and no tag
that is a number, and its objects leave out only what accepts absence. -/
structure Admissible (f : Field) : Prop where
  constructed : f.Constructed
  notCustom : f.Everywhere NotCustom
  declaredTypes : f.Everywhere HasDeclaredTypes
  realBounds : f.Everywhere HasRealBounds
  plainTags : f.Everywhere HasPlainTags
  omitsOnlyAbsent : f.Everywhere OmitsOnlyAbsent

theorem Admissible.typed {f : Field} (h : f.Admissible) : f.Everywhere Typed := fun g hg =>
  { toAnalysable := h.constructed.analysable h.notCustom h.realBounds g hg
    declaredTypes := h.declaredTypes g hg
    plainTags := h.plainTags g hg
    omitsOnlyAbsent := h.omitsOnlyAbsent g hg }

theorem admissible_boolean : boolean.Admissible :=
  ⟨.boolean, everywhere_leaf trivial rfl, everywhere_leaf trivial rfl, everywhere_leaf trivial rfl,
    everywhere_leaf trivial rfl, everywhere_leaf trivial rfl⟩

theorem admissible_null : null.Admissible :=
  ⟨.null, everywhere_leaf trivial rfl, everywhere_leaf trivial rfl, everywhere_leaf trivial rfl,
    everywhere_leaf trivial rfl, everywhere_leaf trivial rfl⟩

theorem Admissible.optional {f : Field} (h : f.Admissible) : (optional f).Admissible :=
  ⟨.optional h.constructed rfl, everywhere_optional trivial h.notCustom,
    everywhere_optional trivial h.declaredTypes, everywhere_optional trivial h.realBounds,
    everywhere_optional trivial h.plainTags, everywhere_optional trivial h.omitsOnlyAbsent⟩

/-- Admissible fields under names that differ make an admissible object. -/
theorem admissible_derived {named : List (String × Field)} (hnodup : (named.map Prod.fst).Nodup)
    (h : ∀ e ∈ named, e.2.Admissible) : (object (Member.derived named)).Admissible := by
  have hmember : ∀ m ∈ Member.derived named, m.field.Admissible := by
    intro m hm
    obtain ⟨e, he, rfl⟩ := List.mem_map.mp hm
    exact h e he
  have hconstructed : (object (Member.derived named)).Constructed := by
    refine @Constructed.object _ (named.map fun e => (Key.text e.1, e.2)) .null _ (fun d hd => ?_) ?_
    · obtain ⟨e, he, rfl⟩ := List.mem_map.mp hd
      exact (h e he).constructed
    · rw [List.map_map]
      exact makeObject_derived hnodup
  refine ⟨hconstructed, everywhere_object trivial fun m hm => (hmember m hm).notCustom,
    everywhere_object trivial fun m hm => (hmember m hm).declaredTypes,
    everywhere_object trivial fun m hm => (hmember m hm).realBounds,
    everywhere_object trivial fun m hm => (hmember m hm).plainTags,
    everywhere_object (fun m hm hrequired => ?_) fun m hm => (hmember m hm).omitsOnlyAbsent⟩
  obtain ⟨e, -, rfl⟩ := List.mem_map.mp hm
  simpa using hrequired

/-- A JSON value that a field stands for, objects being strict. -/
structure Fits (f : Field) (v : Value) : Prop where
  json : v.IsJson
  means : Means true f v

/-- A JSON value that passes validation under the usual options. -/
structure Accepted (f : Field) (v : Value) : Prop where
  json : v.IsJson
  check : f.check {} v = .ok []

theorem accepted_iff (hexclusive : Format.Exclusive) {f : Field} (hf : f.Everywhere Typed)
    {v : Value} : f.Accepted v ↔ f.Fits v := by
  have hreal : f.Everywhere HasRealBounds := fun g hg => (hf g hg).realBounds
  constructor
  · rintro ⟨hjson, hcheck⟩
    exact ⟨hjson, means_of_validate hreal hjson.checked hcheck⟩
  · rintro ⟨hjson, hmeans⟩
    have hregular : f.Everywhere Regular := fun g hg => (hf g hg).toRegular
    exact ⟨hjson, validate_of_means hexclusive hregular hjson.checked hmeans⟩

/-! ## Wrappers -/

theorem Fits.inner_of_ne_null {inner : Field} {v : Value} (h : (optional inner).Fits v)
    (hv : v ≠ .null) : inner.Fits v := by
  obtain ⟨hjson, hmeans⟩ := h
  simp only [Means] at hmeans
  exact ⟨hjson, hmeans.resolve_left hv⟩

theorem fits_defaulted {inner : Field} {value v : Value} :
    (defaulted inner value).Fits v ↔ inner.Fits v := by
  constructor
  · rintro ⟨hjson, hmeans⟩
    simp only [Means] at hmeans
    exact ⟨hjson, hmeans⟩
  · rintro ⟨hjson, hmeans⟩
    refine ⟨hjson, ?_⟩
    simp only [Means]
    exact hmeans

theorem fits_optional_null (inner : Field) : (optional inner).Fits .null := by
  refine ⟨Value.isJson_scalar rfl, ?_⟩
  rw [Means]
  exact .inl rfl

theorem Fits.optional {inner : Field} {v : Value} (h : inner.Fits v) : (optional inner).Fits v := by
  refine ⟨h.json, ?_⟩
  simp only [Means]
  exact .inr h.means

theorem typed_optional {inner : Field} (h : inner.Everywhere Typed) :
    (optional inner).Everywhere Typed :=
  everywhere_optional ⟨⟨⟨trivial, trivial, trivial⟩, trivial, trivial⟩, trivial⟩ h

theorem typed_defaulted {inner : Field} {value : Value} (hvalue : inner.Accepted value)
    (h : inner.Everywhere Typed) : (defaulted inner value).Everywhere Typed :=
  everywhere_defaulted
    ⟨⟨⟨trivial, trivial, ⟨hvalue.json, hvalue.check⟩⟩, trivial, trivial⟩, trivial⟩ h

/-! ## Arrays -/

theorem fits_tuple {fields : List Field} {v : Value} :
    (tuple fields).Fits v ↔ ∃ items, v = .array items ∧ List.Forall₂ Fits fields items := by
  constructor
  · rintro ⟨hjson, hmeans⟩
    obtain ⟨items, rfl, hitems⟩ := means_tuple.mp hmeans
    exact ⟨items, rfl, Alongside.imp_mem hitems fun f _ w hw hmeant =>
      ⟨Value.isJson_array.mp hjson w hw, hmeant⟩⟩
  · rintro ⟨items, rfl, hitems⟩
    refine ⟨Value.isJson_array.mpr fun w hw => ?_, means_tuple.mpr ⟨items, rfl, ?_⟩⟩
    · obtain ⟨f, -, hfits⟩ := Alongside.exists_left hitems hw
      exact hfits.json
    · exact hitems.imp fun _ _ hfits => hfits.means

theorem not_fits_null_tuple {fields : List Field} : ¬(tuple fields).Fits .null := by
  intro h
  obtain ⟨items, hitems, -⟩ := fits_tuple.mp h
  cases hitems

theorem typed_tuple {fields : List Field} (h : ∀ f ∈ fields, f.Everywhere Typed) :
    (tuple fields).Everywhere Typed :=
  everywhere_of ⟨⟨⟨trivial, trivial, trivial⟩, trivial, trivial⟩, trivial⟩ h

theorem fits_array {element : Field} {low high : Option Number} {v : Value} :
    (array element low high).Fits v ↔
      ∃ items, v = .array items ∧ low.isSome = true ∧
        InBounds low high (Validation.count items.length) ∧ ∀ w ∈ items, element.Fits w := by
  constructor
  · rintro ⟨hjson, hmeans⟩
    simp only [Means] at hmeans
    obtain ⟨items, rfl, hleast, hcount, hitems⟩ := hmeans
    exact ⟨items, rfl, hleast, hcount, fun w hw =>
      ⟨Value.isJson_array.mp hjson w hw, hitems w hw⟩⟩
  · rintro ⟨items, rfl, hleast, hcount, hitems⟩
    refine ⟨Value.isJson_array.mpr fun w hw => (hitems w hw).json, ?_⟩
    simp only [Means]
    exact ⟨items, rfl, hleast, hcount, fun w hw => (hitems w hw).means⟩

theorem not_fits_null_array {element : Field} {low high : Option Number} :
    ¬(array element low high).Fits .null := by
  intro h
  obtain ⟨items, hitems, -⟩ := fits_array.mp h
  cases hitems

/-! ## Objects -/

/-- What stands under one name of an object and of its field. -/
def Agree : Option (Member Field) → Option Value → Prop
  | some m, some v => m.field.Fits v
  | some m, none => m.required = false
  | none, some _ => False
  | none, none => True

structure Describes (members : List (Member Field)) (entries : List (Key × Value)) : Prop where
  named : Entries.Named entries
  agree : ∀ name, Agree (Member.find? name members) (Entries.find? (.text name) entries)

variable {members : List (Member Field)} {entries : List (Key × Value)}
variable {name : String} {m : Member Field} {child : Field} {v : Value}

omit [Externals] in
theorem isDeclared_text : Validation.isDeclared members
    (.text name) = Member.declares members name :=
  rfl

theorem fits_object (hnodup : (Member.names members).Nodup) :
    (object members).Fits v ↔ ∃ entries, v = .object entries ∧ Describes members entries := by
  constructor
  · rintro ⟨hjson, hmeans⟩
    obtain ⟨entries, rfl, hmembers, hdeclared⟩ := means_object.mp hmeans
    obtain ⟨hdistinct, hentries⟩ := Value.isJson_object.mp hjson
    have hnamed : Entries.Named entries := ⟨hdistinct, fun e he => (hentries e he).1⟩
    refine ⟨entries, rfl, hnamed, fun name => ?_⟩
    cases hentry : Entries.find? (.text name) entries with
    | none =>
      cases hmember : Member.find? name members with
      | none => trivial
      | some m =>
        obtain rfl := Member.name_of_find? hmember
        exact (meansMember_of_none hentry).mp (hmembers m (Member.mem_of_find? hmember))
    | some w =>
      have hmem := Entries.mem_of_find?_text hentry
      cases hmember : Member.find? name members with
      | none =>
        have hname := hdeclared rfl _ hmem
        rw [isDeclared_text, Member.declares, hmember] at hname
        cases hname
      | some m =>
        obtain rfl := Member.name_of_find? hmember
        exact ⟨(hentries _ hmem).2,
          (meansMember_of_some hentry).mp (hmembers m (Member.mem_of_find? hmember))⟩
  · rintro ⟨entries, rfl, hnamed, hagree⟩
    have hfound : ∀ e ∈ entries, ∃ name m, e.1 = .text name ∧
        Member.find? name members = some m ∧ m.field.Fits e.2 := by
      intro e he
      obtain ⟨name, hname, hfind⟩ := hnamed.find?_of_mem he
      have h := hagree name
      rw [hfind] at h
      cases hmember : Member.find? name members with
      | none =>
        rw [hmember] at h
        cases h
      | some m =>
        rw [hmember] at h
        exact ⟨name, m, hname, hmember, h⟩
    refine ⟨Value.isJson_object.mpr ⟨hnamed.distinct, fun e he => ?_⟩,
      means_object.mpr ⟨entries, rfl, fun m hm => ?_, fun _ e he => ?_⟩⟩
    · obtain ⟨name, m, hname, -, hfits⟩ := hfound e he
      exact ⟨⟨name, hname⟩, hfits.json⟩
    · have h := hagree m.name
      rw [Member.find?_of_mem hnodup hm] at h
      cases hentry : Entries.find? (.text m.name) entries with
      | none =>
        rw [hentry] at h
        exact (meansMember_of_none hentry).mpr h
      | some w =>
        rw [hentry] at h
        exact (meansMember_of_some hentry).mpr h.means
    · obtain ⟨name, m, hname, hmember, -⟩ := hfound e he
      rw [hname, isDeclared_text, Member.declares, hmember]
      rfl

theorem not_fits_null : ¬(object members).Fits .null := by
  rintro ⟨-, hmeans⟩
  obtain ⟨entries, h, -⟩ := means_object.mp hmeans
  cases h

namespace Describes

theorem entry_of_none (h : Describes members entries) (hnone : Member.find? name members = none) :
    Entries.find? (.text name) entries = none := by
  have hagree := h.agree name
  rw [hnone] at hagree
  cases hentry : Entries.find? (.text name) entries with
  | none => rfl
  | some v =>
    rw [hentry] at hagree
    cases hagree

theorem fits_of_some (h : Describes members entries) (hm : Member.find? name members = some m)
    (hv : Entries.find? (.text name) entries = some v) : m.field.Fits v := by
  have hagree := h.agree name
  rw [hm, hv] at hagree
  exact hagree

theorem not_required_of_none (h : Describes members entries)
    (hm : Member.find? name members = some m)
    (hnone : Entries.find? (.text name) entries = none) : m.required = false := by
  have hagree := h.agree name
  rw [hm, hnone] at hagree
  exact hagree

end Describes

/-- A member whose field is typed throughout and which is left out only where its field
accepts absence. -/
structure SettledMember (m : Member Field) : Prop where
  typed : m.field.Everywhere Typed
  absence : m.required = false → m.field.acceptsAbsence = true

structure Settled (members : List (Member Field)) : Prop where
  nodup : (Member.names members).Nodup
  member : ∀ name m, Member.find? name members = some m → SettledMember m

/-- What stands under a declared name fits, or nothing is there and nothing has to be. -/
theorem Describes.present_or_absent (h : Describes members entries) (hsettled : Settled members)
    (hm : Member.find? name members = some m) :
    (∃ v, Entries.find? (.text name) entries = some v ∧ m.field.Fits v) ∨
      Entries.find? (.text name) entries = none ∧ m.field.acceptsAbsence = true := by
  cases hentry : Entries.find? (.text name) entries with
  | some v => exact .inl ⟨v, rfl, h.fits_of_some hm hentry⟩
  | none =>
    exact .inr ⟨rfl, (hsettled.member name m hm).absence (h.not_required_of_none hm hentry)⟩

theorem typed_object : (object members).Everywhere Typed ↔ Settled members := by
  constructor
  · intro h
    refine ⟨h.here.sound, fun name m hm => ?_⟩
    have hmem := Member.mem_of_find? hm
    exact ⟨h.objectMember hmem, h.here.omitsOnlyAbsent m hmem⟩
  · intro h
    have hmember : ∀ m ∈ members, SettledMember m := fun m hm =>
      h.member m.name m (Member.find?_of_mem h.nodup hm)
    refine everywhere_object ?_ fun m hm => (hmember m hm).typed
    exact { notCustom := trivial, realBounds := trivial, sound := h.nodup, declaredTypes := trivial,
            plainTags := trivial, omitsOnlyAbsent := fun m hm => (hmember m hm).absence }

/-! ## Edits -/

theorem Settled.put (h : Settled members) (hm : SettledMember m) :
    Settled (Member.put m members) := by
  refine ⟨Member.nodup_put h.nodup, fun other n hn => ?_⟩
  rw [Member.find?_put] at hn
  by_cases hname : m.name = other
  · rw [if_pos hname] at hn
    cases hn
    exact hm
  · rw [if_neg hname] at hn
    exact h.member other n hn

theorem Describes.put (h : Describes members entries) (hv : m.field.Fits v) :
    Describes (Member.put m members) (Entries.put (.text m.name) v entries) := by
  refine ⟨h.named.put m.name v, fun other => ?_⟩
  rw [Member.find?_put, Entries.find?_put]
  by_cases hname : m.name = other
  · rw [if_pos hname, if_pos hname]
    exact hv
  · rw [if_neg hname, if_neg hname]
    exact h.agree other

/-- A member that need not be there, where nothing is. -/
theorem Describes.put_absent (h : Describes members entries) (hm : m.required = false)
    (hnone : Entries.find? (.text m.name) entries = none) :
    Describes (Member.put m members) entries := by
  refine ⟨h.named, fun other => ?_⟩
  rw [Member.find?_put]
  by_cases hname : m.name = other
  · rw [if_pos hname, ← hname, hnone]
    exact hm
  · rw [if_neg hname]
    exact h.agree other

theorem Settled.withField (h : Settled members) (hnew : Member.find? name members = none)
    (hchild : child.Everywhere Typed) : Settled (Member.withField name child members) := by
  rw [Member.withField_of_new hnew]
  exact h.put ⟨hchild, fun hrequired => by simpa using hrequired⟩

/-- A new name with a value that fits its field. -/
theorem Describes.withField (h : Describes members entries)
    (hnew : Member.find? name members = none) (hv : child.Fits v) :
    Describes (Member.withField name child members) (Entries.put (.text name) v entries) := by
  rw [Member.withField_of_new hnew]
  exact h.put hv

/-- A new name that may be absent. -/
theorem Describes.withAbsent (h : Describes members entries)
    (hnew : Member.find? name members = none) (hchild : child.acceptsAbsence = true) :
    Describes (Member.withField name child members) entries := by
  rw [Member.withField_of_new hnew]
  exact h.put_absent (by rw [hchild]; rfl) (h.entry_of_none hnew)

theorem Settled.withoutField (h : Settled members) :
    Settled (Member.withoutField name members) := by
  refine ⟨Member.nodup_withoutField h.nodup, fun other n hn => ?_⟩
  rw [Member.find?_withoutField] at hn
  by_cases hname : name = other
  · rw [if_pos hname] at hn
    cases hn
  · rw [if_neg hname] at hn
    exact h.member other n hn

theorem Describes.withoutField (h : Describes members entries) :
    Describes (Member.withoutField name members) (Entries.erase (.text name) entries) := by
  refine ⟨h.named.filter _, fun other => ?_⟩
  rw [Member.find?_withoutField, Entries.find?_erase]
  by_cases hname : name = other
  · rw [if_pos hname, if_pos hname]
    trivial
  · rw [if_neg hname, if_neg hname]
    exact h.agree other

theorem Settled.renamed {old new : String} (h : Settled members)
    (hold : Member.find? old members = some m) (hnew : Member.find? new members = none) :
    Settled (Member.renamed old new members) := by
  refine ⟨Member.nodup_renamed h.nodup hnew, fun other n hn => ?_⟩
  rw [Member.find?_renamed h.nodup hold hnew] at hn
  by_cases hother : new = other
  · rw [if_pos hother] at hn
    cases hn
    exact ⟨(h.member old m hold).typed, (h.member old m hold).absence⟩
  · rw [if_neg hother] at hn
    by_cases hgone : old = other
    · rw [if_pos hgone] at hn
      cases hn
    · rw [if_neg hgone] at hn
      exact h.member other n hn

theorem Describes.renamed {old new : String} (h : Describes members entries)
    (hnodup : (Member.names members).Nodup) (hold : Member.find? old members = some m)
    (hnew : Member.find? new members = none) :
    Describes (Member.renamed old new members)
      (Entries.rename (.text old) (.text new) entries) := by
  have habsent := h.entry_of_none hnew
  rw [Entries.rename_of_new h.named.distinct habsent]
  refine ⟨h.named.map_underKey habsent, fun other => ?_⟩
  rw [Member.find?_renamed hnodup hold hnew, Entries.find?_map_underKey habsent]
  by_cases hother : new = other
  · rw [if_pos hother, if_pos hother]
    have hagree := h.agree old
    rw [hold] at hagree
    cases hentry : Entries.find? (.text old) entries with
    | none => rwa [hentry] at hagree
    | some v => rwa [hentry] at hagree
  · rw [if_neg hother, if_neg hother]
    by_cases hgone : old = other
    · rw [if_pos hgone, if_pos hgone]
      trivial
    · rw [if_neg hgone, if_neg hgone]
      exact h.agree other

/-! ## Another field under a name -/

section Replaced

variable (hkeeps : m.field.acceptsAbsence = true → child.acceptsAbsence = true)
include hkeeps

theorem Settled.replaced (h : Settled members) (hm : Member.find? name members = some m)
    (hchild : child.Everywhere Typed) : Settled (Member.replaced m child members) := by
  refine h.put ⟨hchild, fun hrequired => ?_⟩
  by_cases hafter : child.acceptsAbsence = true
  · exact hafter
  · have hbefore : ¬m.field.acceptsAbsence = true := fun h => hafter (hkeeps h)
    simp only [if_neg hafter, if_neg hbefore] at hrequired
    exact absurd ((h.member name m hm).absence hrequired) hbefore

theorem Describes.replaced_absent (h : Describes members entries) (hsettled : SettledMember m)
    (hm : Member.find? m.name members = some m)
    (hnone : Entries.find? (.text m.name) entries = none) :
    Describes (Member.replaced m child members) entries := by
  have hbefore := hsettled.absence (h.not_required_of_none hm hnone)
  exact h.put_absent (if_pos (hkeeps hbefore)) hnone

end Replaced

theorem Describes.replaced (h : Describes members entries) (hv : child.Fits v) :
    Describes (Member.replaced m child members) (Entries.put (.text m.name) v entries) :=
  @Describes.put _ _ _ ⟨m.name, _, child⟩ _ h hv

end Field
end Lineage
