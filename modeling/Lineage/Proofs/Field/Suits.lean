import Lineage.Proofs.Field.Places
import Lineage.Proofs.Field.Typed
import Lineage.Proofs.Validation.Alike
import Lineage.Proofs.Value.Edited
import Lineage.Proofs.Value.Places

/-
What a field may have for its default, part by part.

A value suits a container if its parts suit the fields there, wherever they stand.  An object
needs more than that of a name with nothing under it: the name is not required, and if its field
lets it be absent then what stands for it is valid.
-/

namespace Lineage
namespace Field

open Validation

variable {f g inner element : Field} {v u value : Value} {low high : Option Number} {s : Segment}
variable {fields : List Field} {items items' : List Value} {name : String}
variable {members : List (Member Field)} {entries entries' : List (Key × Value)} {m : Member Field}

variable [Externals]

theorem Suits.valid_at (h : f.Suits v) (path : Path) : f.validate {} path v = .ok [] :=
  (validate_elsewhere f v .root path).mp h.valid

theorem suits_of_valid_at {path : Path} (hv : v.Checked) (h : f.validate {} path v = .ok []) :
    f.Suits v :=
  ⟨hv, (validate_elsewhere f v path .root).mp h⟩

/-! ## Wrappers -/

theorem suits_optional : (optional inner).Suits v ↔ v = .null ∨ inner.Suits v := by
  constructor
  · rintro ⟨hv, h⟩
    exact ((validate_optional_eq_nil hv.ne_missing).mp h).imp_right fun h => ⟨hv, h⟩
  · rintro (rfl | ⟨hv, h⟩)
    · exact ⟨Value.checked_null, rfl⟩
    · exact ⟨hv, (validate_optional_eq_nil hv.ne_missing).mpr (.inr h)⟩

theorem suits_defaulted : (defaulted inner value).Suits v ↔ inner.Suits v := by
  constructor
  · rintro ⟨hv, h⟩
    exact ⟨hv, (validate_defaulted_present hv.ne_missing).symm.trans h⟩
  · rintro ⟨hv, h⟩
    exact ⟨hv, (validate_defaulted_present hv.ne_missing).trans h⟩

/-! ## Arrays -/

theorem suits_array : (array element low high).Suits (.array items) ↔
    validateItemCount low high .root items.length = .ok [] ∧ ∀ u ∈ items, element.Suits u := by
  constructor
  · rintro ⟨hv, h⟩
    obtain ⟨_, ⟨⟩, hcount, hitems⟩ := validate_array_eq_nil.mp h
    refine ⟨validateItemCount_eq_nil.mpr hcount, fun u hu => ?_⟩
    obtain ⟨path, hvalid⟩ := exists_of_validateEach hitems u hu
    exact suits_of_valid_at (Value.checked_array.mp hv u hu) hvalid
  · rintro ⟨hcount, hitems⟩
    refine ⟨Value.checked_array.mpr fun u hu => (hitems u hu).checked, ?_⟩
    refine validate_array_eq_nil.mpr ⟨items, rfl, validateItemCount_eq_nil.mp hcount, ?_⟩
    exact validateEach_eq_nil fun u hu => (hitems u hu).valid_at

theorem suits_tuple :
    (tuple fields).Suits (.array items) ↔ List.Forall₂ Suits fields items := by
  constructor
  · rintro ⟨hv, h⟩
    obtain ⟨_, ⟨⟩, hlength, hitems⟩ := validate_tuple_eq_nil.mp h
    refine Alongside.imp_mem (forall₂_of_validateItems hlength hitems) fun g _ u hu hvalid => ?_
    obtain ⟨path, hvalid⟩ := hvalid
    exact suits_of_valid_at (Value.checked_array.mp hv u hu) hvalid
  · intro h
    refine ⟨Value.checked_array.mpr fun u hu => ?_, ?_⟩
    · obtain ⟨g, -, hsuits⟩ := Alongside.exists_left h hu
      exact hsuits.checked
    · exact validate_tuple_eq_nil.mpr ⟨items, rfl, h.length_eq.symm,
        validateItems_eq_nil (h.imp fun _ _ => Suits.valid_at)⟩

/-! ## Objects -/

/-- What is under the name of a member suits it, or may be absent. -/
def SuitsMember (m : Member Field) : Option Value → Prop
  | some u => m.field.Suits u
  | none => m.required = false ∧
      (m.field.acceptsAbsence = true → m.field.validate {} .root .missing = .ok [])

theorem validateMember_eq_nil (hv : (Value.object entries).Checked) {path : Path} :
    validateMember {} path entries m = .ok [] ↔
      SuitsMember m (Entries.find? (.text m.name) entries) := by
  unfold validateMember
  cases hfind : Entries.find? (.text m.name) entries with
  | some u => exact ⟨suits_of_valid_at (hv.find? hfind), fun h => Suits.valid_at h _⟩
  | none =>
    cases hrequired : m.required with
    | true =>
      refine iff_of_false nofun fun h => ?_
      exact absurd (hrequired.symm.trans h.1) nofun
    | false =>
      cases habsence : m.field.acceptsAbsence with
      | true =>
        refine Iff.trans (validate_elsewhere _ _ _ .root) ⟨fun h => ⟨hrequired, fun _ => h⟩, ?_⟩
        exact fun h => h.2 habsence
      | false =>
        refine iff_of_true rfl ⟨hrequired, fun h => ?_⟩
        exact absurd (habsence.symm.trans h) nofun

theorem suits_object : (object members).Suits v ↔ ∃ entries, v = .object entries ∧
    (Value.object entries).Checked ∧
    (∀ m ∈ members, SuitsMember m (Entries.find? (.text m.name) entries)) ∧
    ∀ e ∈ entries, isDeclared members e.1 = true := by
  constructor
  · rintro ⟨hv, h⟩
    obtain ⟨entries, rfl, hmembers, hdeclared⟩ := validate_object_eq_nil.mp h
    exact ⟨entries, rfl, hv, fun m hm => (validateMember_eq_nil hv).mp (hmembers m hm),
      hdeclared rfl⟩
  · rintro ⟨entries, rfl, hv, hmembers, hdeclared⟩
    exact ⟨hv, validate_object_eq_nil.mpr ⟨entries, rfl,
      fun m hm => (validateMember_eq_nil hv).mpr (hmembers m hm), fun _ => hdeclared⟩⟩

theorem Suits.member (h : (object members).Suits (.object entries))
    (hm : Member.find? name members = some m) :
    SuitsMember m (Entries.find? (.text name) entries) := by
  obtain ⟨_, ⟨⟩, -, hmembers, -⟩ := suits_object.mp h
  rw [← Member.name_of_find? hm]
  exact hmembers m (Member.mem_of_find? hm)

/-- What suits an object suits it with another member in place of one, too, if what is under the
name of that member does, which may have been put there. -/
theorem Suits.put (h : (object members).Suits (.object entries))
    (hnodup : (Member.names members).Nodup)
    (hentries : entries' = entries ∨ ∃ u, entries' = Entries.put (.text m.name) u entries)
    (hm : SuitsMember m (Entries.find? (.text m.name) entries')) :
    (object (Member.put m members)).Suits (.object entries') := by
  obtain ⟨_, ⟨⟩, hv, hmembers, hdeclared⟩ := suits_object.mp h
  have hdeclares : ∀ name, Member.declares members name = true →
      Member.declares (Member.put m members) name = true := by
    intro name hname
    unfold Member.declares at hname ⊢
    rw [Member.find?_put]
    split
    · rfl
    · exact hname
  have hstill : ∀ e ∈ entries, isDeclared (Member.put m members) e.1 = true := by
    intro e he
    obtain ⟨name, hname⟩ := (Value.checked_object.mp hv e he).1
    have hdeclaredHere := hdeclared e he
    rw [hname, isDeclared_text] at hdeclaredHere ⊢
    exact hdeclares name hdeclaredHere
  have hother : ∀ name, m.name ≠ name →
      Entries.find? (.text name) entries' = Entries.find? (.text name) entries := by
    intro name hne
    rcases hentries with rfl | ⟨u, rfl⟩
    · rfl
    · rw [Entries.find?_put, if_neg hne]
  refine suits_object.mpr ⟨entries', rfl, ?_, fun n hn => ?_, ?_⟩
  · rcases hentries with rfl | ⟨u, rfl⟩
    · exact hv
    · rw [Entries.find?_put, if_pos rfl] at hm
      exact Value.hereditary_checked.put hv ⟨m.name, rfl⟩ hm.checked
  · have hfind := Member.find?_of_mem (Member.nodup_put hnodup) hn
    rw [Member.find?_put] at hfind
    split at hfind
    · next hname =>
      cases hfind
      exact hm
    · next hne =>
      rw [hother n.name hne]
      exact hmembers n (Member.mem_of_find? hfind)
  · rcases hentries with rfl | ⟨u, rfl⟩
    · exact hstill
    · intro e he
      rcases Entries.key_mem_put he with hkey | ⟨d, hd, hkey⟩
      · rw [hkey, isDeclared_text, Member.declares, Member.find?_put, if_pos rfl]
        rfl
      · rw [← hkey]
        exact hstill d hd

/-! ## Parts -/

/-- A part of a value suits the field beside it. -/
theorem Suits.part (h : f.Suits v) (hg : Change.partField (some f) s = some g)
    (hu : v.part? s = some u) : g.Suits u := by
  cases s with
  | key name =>
    cases f with
    | object members =>
      obtain ⟨m, hm, rfl⟩ := Option.map_eq_some_iff.mp hg
      obtain ⟨entries, rfl, -⟩ := suits_object.mp h
      have hadmits := h.member hm
      rwa [show Entries.find? (.text name) entries = some u from hu] at hadmits
    | _ => cases hg
  | index i =>
    cases f with
    | array element low high =>
      cases hg
      obtain ⟨items, rfl, -⟩ := validate_array_eq_nil.mp h.valid
      exact (suits_array.mp h).2 u (List.mem_of_getElem? hu)
    | tuple fields =>
      obtain ⟨items, rfl, -⟩ := validate_tuple_eq_nil.mp h.valid
      obtain ⟨u', hu', hsuits⟩ := Alongside.getElem?_right (suits_tuple.mp h) hg
      obtain rfl := Option.some.inj (hu'.symm.trans hu)
      exact hsuits
    | _ => cases hg

end Field
end Lineage
