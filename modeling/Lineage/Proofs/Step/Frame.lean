import Lineage.Format.Email
import Lineage.Proofs.Change.Frame
import Lineage.Proofs.Field.Constructed
import Lineage.Proofs.Step.Fields

/-
Steps on keys change the object fields at the end of their path and nothing around them.

An object field becomes an object field, so no child of an object on the way starts or ceases
to accept absence.  All the same such an object loses the requirement of a name whose field
accepts absence, which the swap of that field takes away as if the old one had not.
-/

namespace Lineage
namespace Step

open Lineage.Field

variable {s : Step} {f f' : Field} {place : Path}

/-- What a step makes of an object field at the end of its path. -/
def Edits (s : Step) (f f' : Field) : Prop :=
  ∃ members members' place, f = .object members ∧ f' = .object members' ∧
    s.onField f place = .ok f'

theorem Edits.acceptsAbsence (h : s.Edits f f') : f'.acceptsAbsence = f.acceptsAbsence := by
  obtain ⟨members, members', place, rfl, rfl, -⟩ := h
  rfl

/-- A step on keys needs an object field and leaves one. -/
theorem edits_of_onField (hthrough : s.through = true) (h : s.onField f place = .ok f') :
    s.Edits f f' := by
  obtain ⟨members, rfl⟩ := object_of_onField hthrough h
  suffices hobject : ∃ members', f' = .object members' by
    obtain ⟨members', hf'⟩ := hobject
    exact ⟨members, members', place, rfl, hf', h⟩
  cases s with
  | add path name field value =>
    obtain ⟨text, -, -, rfl⟩ := onField_add h
    exact ⟨_, rfl⟩
  | remove path name =>
    obtain ⟨text, m, -, -, rfl⟩ := onField_remove h
    exact ⟨_, rfl⟩
  | rename path old new =>
    obtain ⟨text, newText, m, -, -, -, -, rfl⟩ := onField_rename h
    exact ⟨_, rfl⟩
  | copy path name new =>
    obtain ⟨text, newText, m, -, -, -, -, rfl⟩ := onField_copy h
    exact ⟨_, rfl⟩
  | retype | restructure => cases hthrough
  | split path name targets splitter =>
    obtain ⟨text, m, members', -, -, -, rfl⟩ := onField_split h
    exact ⟨_, rfl⟩
  | merge path names target field merger =>
    obtain ⟨text, rest, -, -, -, rfl⟩ := onField_merge h
    exact ⟨_, rfl⟩

section

variable [Externals]

/-- A step on keys edits the object fields at the end of its path and, besides, only the
defaults on the way and what objects on the way require: of the names on the path those stay
required whose fields do not accept absence.  Where objects require no others, they require
what they did. -/
theorem transformField_edits_target (hthrough : s.through = true)
    (h : s.transformField f = .ok f') :
    EditedAt Member.staysRequired s.Edits s.path.segments f f' ∧
      (f.Everywhere RequiresOnlyPresent →
        EditedAt Member.required s.Edits s.path.segments f f') := by
  have hedits : ∀ kept, f.Everywhere (KeepsRequired kept) →
      EditedAt kept s.Edits s.path.segments f f' := fun kept hkept =>
    Change.onFieldAt_edits hthrough (fun _ _ _ => edits_of_onField hthrough)
      (fun _ _ => Edits.acceptsAbsence) hkept h
  exact ⟨hedits _ fun _ _ => keepsRequired_staysRequired,
    fun hpresent => hedits _ (hpresent.imp fun _ => RequiresOnlyPresent.keepsRequired)⟩

end

/-- Objects that require less than their fields would have them, around the end of the path
and at it. -/
theorem transformField_edits_target_items :
    let around : List (Member Field) → Value → Field := fun members value =>
      .object [⟨"off", false, .boolean⟩,
        ⟨"on", true, .array (.defaulted (.object members) value) (some (.int 0)) none⟩]
    let f := around [⟨"a", false, .any⟩] (.object [])
    let f' := around [⟨"a", false, .any⟩, ⟨"b", true, .any⟩] (.object [(.text "b", .int 1)])
    let s : Step := .add ⟨[.key "on", .wildcard]⟩ (.text "b") .any (.int 1)
    s.transformField f = .ok f' ∧ f.Everywhere RequiresOnlyPresent ∧
      EditedAt Member.required s.Edits s.path.segments f f' := by
  intro around f f' s
  have htransform : s.transformField f = .ok f' := rfl
  have htarget : (Field.object [⟨"a", false, .any⟩]).Everywhere RequiresOnlyPresent :=
    everywhere_object (List.forall_mem_singleton.mpr nofun)
      (List.forall_mem_singleton.mpr (everywhere_leaf trivial rfl))
  have hpresent : f.Everywhere RequiresOnlyPresent := by
    refine everywhere_object
      (List.forall_mem_cons.mpr ⟨nofun, List.forall_mem_singleton.mpr fun _ => rfl⟩)
      (List.forall_mem_cons.mpr ⟨everywhere_leaf trivial rfl, List.forall_mem_singleton.mpr ?_⟩)
    exact everywhere_array trivial (everywhere_defaulted trivial htarget)
  exact ⟨htransform, hpresent, (transformField_edits_target rfl htransform).2 hpresent⟩

/-- An object that requires a name which its field lets be absent no longer requires it after
a step below that name. -/
theorem transformField_drops_required :
    let f : Field := .object [⟨"a", true, .optional (.object [])⟩]
    let f' : Field := .object [⟨"a", false, .optional (.object [⟨"x", true, .any⟩])⟩]
    let s : Step := .add ⟨[.key "a"]⟩ (.text "x") .any (.int 1)
    f.Constructed ∧ s.through = true ∧ s.transformField f = .ok f' ∧
      ¬EditedAt Member.required s.Edits s.path.segments f f' := by
  intro f f' s
  have hinner : (Field.object []).Constructed := @Constructed.object _ [] .null _ nofun rfl
  have hf : f.Constructed :=
    @Constructed.object _ [(.text "a", .optional (.object []))] (.array [.text "a"]) _
      (List.forall_mem_singleton.mpr (.optional hinner rfl)) rfl
  refine ⟨hf, rfl, rfl, fun h => ?_⟩
  have hrequired : ([] : List String) = ["a"] := h.names_eq.2
  cases hrequired

end Step
end Lineage
