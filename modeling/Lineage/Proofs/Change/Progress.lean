import Lineage.Proofs.Change.Walk
import Lineage.Proofs.Field.Typed

/-
Changes of values and of field trees stay in step.

Where a change turns a field tree into another, it turns every value that fits the one
into a value that fits the other, provided that it does so for the fields at the end of
its path.  Wrappers on the way skip what is null or absent on both sides alike, and a
default that is rewritten with its field is itself such a value.
-/

namespace Lineage
namespace Change

open Lineage.Field

/-! ## Parts of containers -/

section Parts

variable {α : Type} {update : Nat → α → Outcome α}

/-- Items that are all updated well are updated together. -/
theorem updateEach_ok {P : α → Prop} {items : List α}
    (h : ∀ i, ∀ a ∈ items, ∃ b, update i a = .ok b ∧ P b) (index : Nat) :
    ∃ bs, updateEach update index items = .ok bs ∧ bs.length = items.length ∧ ∀ b ∈ bs, P b := by
  induction items generalizing index with
  | nil => exact ⟨[], rfl, rfl, nofun⟩
  | cons a rest ih =>
    obtain ⟨b, hb, hP⟩ := h index a List.mem_cons_self
    obtain ⟨bs, hbs, hlength, hall⟩ :=
      ih (fun i c hc => h i c (List.mem_cons_of_mem _ hc)) (index + 1)
    refine ⟨b :: bs, ?_, congrArg Nat.succ hlength, List.forall_mem_cons.mpr ⟨hP, hall⟩⟩
    rw [updateEach, hb, Outcome.ok_bind, hbs]
    rfl

end Parts

/-! ## Advances -/

variable [Externals]

/-- A change takes a field at the end of a path to another, and each value that fits the
one to a value that fits the other. -/
structure Advances (c : Change) (segments : List Segment) (f f' : Field) : Prop where
  value : ∀ v path, f.Fits v → ∃ w, c.onValueAt segments (some f) path v = .ok w ∧ f'.Fits w
  typed : f'.Everywhere Typed
  absence : f.acceptsAbsence = true → f'.acceptsAbsence = true

/-- What a change has to do at the end of its path.  Null must not reach a change that
looks through wrappers. -/
structure Converts (c : Change) (f f' : Field) : Prop where
  value : ∀ v path, f.Fits v → ∃ w, c.onValue v (some f) path = .ok w ∧ f'.Fits w
  typed : f'.Everywhere Typed
  absence : f.acceptsAbsence = true → f'.acceptsAbsence = true
  notNull : c.through = true → ¬f.Fits .null

variable {c : Change} {segment : Segment} {segments rest : List Segment} {f f' : Field}
variable {path : Path} {v : Value}

/-! ## Wrappers -/

/-- Null that fits a field inside a default fits what the field becomes: it is skipped
there too, or else it would have reached the change. -/
theorem fits_null_of_advances (hlook : c.LooksThrough segments)
    (hbare : f.acceptsAbsence = false → ¬f.Fits .null) (h : Advances c segments f f')
    (hv : f.Fits .null) : f'.Fits .null := by
  cases habsence : f.acceptsAbsence with
  | false => exact absurd hv (hbare habsence)
  | true =>
    obtain ⟨w, hw, hfits⟩ := h.value .null .root hv
    have hskipped : isSkipped (some f) .null = true := habsence
    rw [onValueAt_of_skipped hlook hskipped] at hw
    cases hw
    exact hfits

/-- What is known of the field inside all wrappers is known of a field without any. -/
theorem advances_of_bare {core : Field → Outcome Field} {onDefault : Field → Value → Outcome Value}
    (hcore : ∀ u', core f.unwrapped = .ok u' →
      Advances c segments f.unwrapped u' ∧ ¬f.unwrapped.Fits .null)
    (habsence : f.acceptsAbsence = false)
    (h : throughWrappers core onDefault path f = .ok f') :
    Advances c segments f f' ∧ ¬f.Fits .null := by
  rw [throughWrappers_of_bare habsence] at h
  rw [unwrapped_of_not_acceptsAbsence habsence] at hcore
  exact hcore f' h

/-- A change that advances the field inside all wrappers, where null does not fit,
advances the wrapped field. -/
theorem throughWrappers_advances (hexclusive : Format.Exclusive) {core : Field → Outcome Field}
    (hlook : c.LooksThrough segments) (hf : f.Everywhere Typed)
    (hcore : ∀ u', core f.unwrapped = .ok u' →
      Advances c segments f.unwrapped u' ∧ ¬f.unwrapped.Fits .null)
    (h : throughWrappers core (fun inner v => c.onValueAt segments (some inner) path v) path f =
      .ok f') : Advances c segments f f' := by
  induction f generalizing f' with
  | optional inner ih =>
    obtain ⟨changed, hchanged, h⟩ := Outcome.bind_eq_ok.mp h
    cases h
    have hinner := ih hf.optionalInner hcore hchanged
    refine ⟨fun v place hv => ?_, typed_optional hinner.typed, fun _ => rfl⟩
    by_cases hnull : v = .null
    · subst hnull
      exact ⟨.null, onValueAt_of_skipped hlook rfl, fits_optional_null changed⟩
    · obtain ⟨w, hw, hfits⟩ := hinner.value v place (hv.inner_of_ne_null hnull)
      exact ⟨w, (onValueAt_inner hlook (.optional inner) inner rfl hnull).trans hw, hfits.optional⟩
  | defaulted inner value ih =>
    obtain ⟨changed, changedValue, hchanged, hvalue, hsuits, rfl⟩ := throughWrappers_defaulted h
    have hinner := ih hf.defaultedInner hcore hchanged
    have hjson : changedValue.IsJson := by
      obtain ⟨hdefault, hconforms⟩ := hf.here.sound
      obtain ⟨w, hw, hfits⟩ := hinner.value value path
        ((accepted_iff hexclusive hf.defaultedInner).mp ⟨hdefault, hconforms⟩)
      have hsame : changedValue = w := Except.ok.inj (hvalue.symm.trans hw)
      exact hsame ▸ hfits.json
    refine ⟨fun v place hv => ?_, typed_defaulted ⟨hjson, hsuits.valid⟩ hinner.typed, fun _ => rfl⟩
    have hinnerFits := fits_defaulted.mp hv
    by_cases hnull : v = .null
    · subst hnull
      refine ⟨.null, onValueAt_of_skipped hlook rfl, fits_defaulted.mpr ?_⟩
      exact fits_null_of_advances hlook
        (fun habsence => (advances_of_bare (f := inner) hcore habsence hchanged).2) hinner hinnerFits
    · obtain ⟨w, hw, hfits⟩ := hinner.value v place hinnerFits
      exact ⟨w, (onValueAt_inner hlook (.defaulted inner value) inner rfl hnull).trans hw,
        fits_defaulted.mpr hfits⟩
  | string | number | boolean | null | any | literal | array | tuple | object | union | custom =>
    exact (advances_of_bare hcore rfl h).1

/-! ## One segment down -/

section Descend

variable {members : List (Member Field)} {entries : List (Key × Value)} {m : Member Field}
variable {element child : Field} {fields fields' : List Field} {items : List Value}
variable {low high : Option Number}

theorem object_advances (hf : (object members).Everywhere Typed)
    (hm : Member.find? segment.text members = some m) (hchild : Advances c rest m.field child) :
    Advances c (segment :: rest) (.object members) (.object (Member.replaced m child members)) := by
  have hsettled := typed_object.mp hf
  have hmember := hsettled.member segment.text m hm
  have hname := Member.name_of_find? hm
  have hafter := hsettled.replaced hchild.absence hm hchild.typed
  refine ⟨fun v place hv => ?_, typed_object.mpr hafter, nofun⟩
  obtain ⟨entries, rfl, hdescribes⟩ := (fits_object hsettled.nodup).mp hv
  cases hentry : Entries.find? (.text segment.text) entries with
  | some u =>
    obtain ⟨w, hw, hfits⟩ := hchild.value u (place.key segment.text)
      (hdescribes.fits_of_some hm hentry)
    refine ⟨.object (Entries.put (.text segment.text) w entries), ?_,
      (fits_object hafter.nodup).mpr ⟨_, rfl, hname ▸ hdescribes.replaced hfits⟩⟩
    rw [onValueAt_present hm hentry, hw]
    rfl
  | none =>
    have hskips := hmember.absence (hdescribes.not_required_of_none hm hentry)
    refine ⟨.object entries, onValueAt_absent hm hentry hskips, ?_⟩
    rw [← hname] at hm hentry
    exact (fits_object hafter.nodup).mpr
      ⟨entries, rfl, hdescribes.replaced_absent hchild.absence hmember hm hentry⟩

theorem array_advances (hf : (array element low high).Everywhere Typed)
    (hchild : Advances c rest element child) :
    Advances c (.wildcard :: rest) (.array element low high) (.array child low high) := by
  have hhere : Typed (.array child low high) :=
    { notCustom := trivial, realBounds := hf.here.realBounds, sound := hf.here.sound,
      declaredTypes := hf.here.declaredTypes, plainTags := trivial, omitsOnlyAbsent := trivial }
  refine ⟨fun v place hv => ?_, everywhere_array hhere hchild.typed, nofun⟩
  obtain ⟨items, rfl, hleast, hcount, hitems⟩ := fits_array.mp hv
  obtain ⟨ws, hws, hlength, hfits⟩ := updateEach_ok (P := child.Fits)
    (fun i u hu => hchild.value u (place.index i) (hitems u hu)) 0
  refine ⟨.array ws, ?_, fits_array.mpr ⟨ws, rfl, hleast, hlength ▸ hcount, hfits⟩⟩
  rw [onValueAt_wildcard rfl]
  show (updateEach (fun i item => c.onValueAt rest (some element) (place.index i) item) 0 items >>=
    _) = _
  rw [hws]
  rfl

/-- Advances of the tuple items side by side carry over to the items of a value. -/
theorem updateEach_items {field? : Nat → Option Field} {index : Nat} (path : Path)
    (hadvances : List.Forall₂ (Advances c rest) fields fields')
    (hfits : List.Forall₂ Fits fields items) (hfield : ∀ i, field? (index + i) = fields[i]?) :
    ∃ items', updateEach (fun i item => c.onValueAt rest (field? i) (path.index i) item) index
      items = .ok items' ∧ List.Forall₂ Fits fields' items' := by
  induction hadvances generalizing items index with
  | nil =>
    cases hfits
    exact ⟨[], rfl, .nil⟩
  | @cons g g' _ _ hg _ ih =>
    cases hfits with
    | @cons _ v _ _ hv hmore =>
      obtain ⟨w, hw, hwfits⟩ := hg.value v (path.index index) hv
      obtain ⟨ws, hws, hwsfits⟩ := ih hmore fun i => by
        rw [Nat.add_assoc, Nat.add_comm 1 i]
        exact hfield (i + 1)
      have hhead : field? index = some g := hfield 0
      refine ⟨w :: ws, ?_, .cons hwfits hwsfits⟩
      rw [updateEach, hhead, hw, Outcome.ok_bind, hws]
      rfl

theorem tuple_advances_each (hadvances : List.Forall₂ (Advances c rest) fields fields') :
    Advances c (.wildcard :: rest) (.tuple fields) (.tuple fields') := by
  refine ⟨fun v place hv => ?_, typed_tuple fun g hg => ?_, nofun⟩
  · obtain ⟨items, rfl, hitems⟩ := fits_tuple.mp hv
    have hfield : ∀ i, itemField (some (.tuple fields)) (0 + i) = fields[i]? := fun i => by
      rw [Nat.zero_add]
      rfl
    obtain ⟨ws, hws, hfits⟩ := updateEach_items place hadvances hitems hfield
    refine ⟨.array ws, ?_, fits_tuple.mpr ⟨ws, rfl, hfits⟩⟩
    rw [onValueAt_wildcard rfl, hws]
    rfl
  · obtain ⟨f, -, hadvance⟩ := Alongside.exists_left hadvances hg
    exact hadvance.typed

/-- The value of a tuple has as many items as the tuple, so a segment selects alike in
both. -/
theorem tuple_advances_item (hf : (tuple fields).Everywhere Typed) (hsegment : segment ≠ .wildcard)
    {i : Nat} (hi : segment.resolve fields.length = .ok (some i)) (hg : fields[i]? = some f)
    (hadvance : Advances c rest f f') :
    Advances c (segment :: rest) (.tuple fields) (.tuple (fields.set i f')) := by
  refine ⟨fun v place hv => ?_, typed_tuple fun g hg => ?_, nofun⟩
  · obtain ⟨items, rfl, hitems⟩ := fits_tuple.mp hv
    have hlength : fields.length = items.length := hitems.length_eq
    obtain ⟨u, hu, hfits⟩ := Alongside.getElem?_right hitems hg
    obtain ⟨w, hw, hwfits⟩ := hadvance.value u (place.index i) hfits
    refine ⟨.array (items.set i w), ?_, fits_tuple.mpr ⟨_, rfl, Alongside.set hitems i hwfits⟩⟩
    have hitem : itemField (some (.tuple fields)) i = some f := hg
    have hupdate := (updateItem_eq_ok hu).mpr ⟨w, hw, rfl⟩
    rw [onValueAt_item rfl hsegment (hlength ▸ hi), hitem, hupdate]
    rfl
  · rcases List.mem_or_eq_of_mem_set hg with hmem | rfl
    · exact hf.tupleItem hmem
    · exact hadvance.typed

/-- One segment down: a change that advances what the segment selects advances the field
around it, which null does not fit. -/
theorem descend_advances (hf : f.Everywhere Typed)
    (hchild : ∀ g ∈ f.inside segment, ∀ place g', c.onFieldAt rest place g = .ok g' →
      Advances c rest g g')
    (h : descend (fun place child => c.onFieldAt rest place child) segment path f = .ok f') :
    Advances c (segment :: rest) f f' ∧ ¬f.Fits .null := by
  cases descend_eq_ok.mp h with
  | @member members m child hm hchanged =>
    exact ⟨object_advances hf hm (hchild m.field (mem_inside_object hm) _ child hchanged),
      not_fits_null⟩
  | @element element child low high hsegment hchanged =>
    subst hsegment
    have hadvance := hchild element (List.mem_singleton.mpr rfl) _ child hchanged
    exact ⟨array_advances hf hadvance, not_fits_null_array⟩
  | @items fields fields' hsegment hlength hchanged =>
    subst hsegment
    have hadvances := Alongside.of_getElem? hlength fun i g g' hg hg' =>
      hchild g (List.mem_of_getElem? hg) _ g' (hchanged i g g' hg hg')
    exact ⟨tuple_advances_each hadvances, not_fits_null_tuple⟩
  | @item fields i g g' hsegment hi hg hg' =>
    have hadvance := hchild g (mem_inside_tuple hsegment hi hg) _ g' hg'
    exact ⟨tuple_advances_item hf hsegment hi hg hadvance, not_fits_null_tuple⟩

end Descend

/-! ## Whole paths -/

/-- The field that a change sees of one at the end of its path. -/
def facing (c : Change) (f : Field) : Field := if c.through then f.unwrapped else f

theorem Converts.advances (h : Converts c f f') (hbare : c.through = true → f.unwrapped = f) :
    Advances c [] f f' := by
  refine ⟨fun v place hv => ?_, h.typed, h.absence⟩
  obtain ⟨w, hw, hfits⟩ := h.value v place hv
  refine ⟨w, ?_, hfits⟩
  rw [onValueAt]
  cases hthrough : c.through with
  | false => exact hw
  | true =>
    have hskipped : isSkipped (some f) v = false := hbare hthrough ▸ isSkipped_unwrapped f v
    rw [hskipped, Option.map_some, hbare hthrough]
    exact hw

/-- A change of field trees and of values at the end of one path: where it gives a new
tree, every value that fits the old one is changed into a value that fits the new one. -/
theorem onFieldAt_advances (hexclusive : Format.Exclusive) (hf : f.Everywhere Typed)
    (hend : ∀ t ∈ f.targets segments, t.Everywhere Typed → ∀ place t',
      c.onField (c.facing t) place = .ok t' → Converts c (c.facing t) t')
    (h : c.onFieldAt segments path f = .ok f') : Advances c segments f f' := by
  induction segments generalizing f f' path with
  | nil =>
    have hconverts := hend f (List.mem_singleton.mpr rfl) hf path
    unfold onFieldAt at h
    unfold facing at hconverts
    cases hthrough : c.through with
    | false =>
      rw [hthrough, if_neg Bool.false_ne_true] at h hconverts
      exact (hconverts f' h).advances fun htrue => nomatch hthrough.symm.trans htrue
    | true =>
      rw [hthrough, if_pos rfl] at h hconverts
      refine throughWrappers_advances hexclusive (.inr hthrough) hf (fun u hu => ?_) h
      have hu := hconverts u hu
      exact ⟨hu.advances fun _ => unwrapped_unwrapped f, hu.notNull hthrough⟩
  | cons segment rest ih =>
    have hinside : ∀ g ∈ f.unwrapped.inside segment, g.Everywhere Typed := fun g hg =>
      hf.unwrapped.child (child_of_mem_inside hg)
    refine throughWrappers_advances hexclusive (.inl (List.cons_ne_nil _ _)) hf (fun u hu => ?_) h
    refine descend_advances hf.unwrapped (fun g hg place g' hg' => ?_) hu
    exact ih (hinside g hg)
      (fun t ht => hend t (List.mem_flatMap.mpr ⟨g, hg, ht⟩)) hg'

end Change
end Lineage
