import Lineage.Proofs.Change.Places
import Lineage.Proofs.Value.Edited

/-
Conditions on the fields of a tree that outlast a change along a path.

The walk over a field tree makes containers anew around what it changes, and defaults around
fields.  A condition on single fields is left standing if of an object it asks no more than that
names differ, of a default no more than that it suits its field, and if it looks at nothing
inside an array, a tuple or an option.
-/

namespace Lineage
namespace Change

open Lineage.Field Outcome

variable [Externals]

/-- Conditions on single fields that do not depend on what containers hold. -/
structure Lasting (Q : Field → Prop) : Prop where
  object_iff : ∀ {members}, Q (.object members) ↔ (Member.names members).Nodup
  array : ∀ {f g low high}, Q (.array f low high) → Q (.array g low high)
  tuple : ∀ items, Q (.tuple items)
  optional : ∀ f, Q (.optional f)
  defaulted_iff : ∀ {f v}, Q (.defaulted f v) ↔ f.Suits v ∧ v.KeysDistinct

theorem lasting_soundHere : Lasting SoundHere where
  object_iff := Iff.rfl
  array := id
  tuple _ := trivial
  optional _ := trivial
  defaulted_iff :=
    ⟨fun ⟨hjson, hvalid⟩ => ⟨⟨hjson.checked, hvalid⟩, hjson.distinct⟩,
      fun ⟨hsuits, hdistinct⟩ => ⟨⟨hsuits.checked, hdistinct⟩, hsuits.valid⟩⟩

variable {c : Change} {Q : Field → Prop} {segment : Segment} {segments : List Segment}
variable {f f' : Field} {field : Option Field} {place : Path} {v w : Value}

/-! ## Values -/

/-- A change of values leaves them with objects that hold each key once. -/
def KeepsKeys (c : Change) : Prop :=
  ∀ v field place w, v.KeysDistinct → c.onValue v field place = .ok w → w.KeysDistinct

omit [Externals] in
theorem Enters.keysDistinct {R : Segment → Value → Value → Prop} (h : Enters segment R v w)
    (hv : v.KeysDistinct)
    (hR : ∀ s u u', v.Selects segment s u → R s u u' → u'.KeysDistinct) : w.KeysDistinct := by
  cases h with
  | @entry entries u u' hfind h => exact hv.put (hR _ u u' (.entry hfind) h)
  | @each items items' hsegment hlength h =>
    refine .array fun u' hmem => ?_
    obtain ⟨i, hlt, rfl⟩ := List.mem_iff_getElem.mp hmem
    have hu := List.getElem?_eq_getElem (hlength ▸ hlt : i < items.length)
    exact hR _ _ _ (.each hsegment hu) (h i _ _ hu (List.getElem?_eq_getElem hlt))
  | @item items i u u' hsegment hi hu h =>
    cases hv with
    | array hitems =>
      refine .array fun x hmem => ?_
      rcases List.mem_or_eq_of_mem_set hmem with hmem | rfl
      · exact hitems x hmem
      · exact hR _ u x (.item hsegment hi hu) h

omit [Externals] in
theorem onValueAt_keysDistinct (hc : c.KeepsKeys) (hv : v.KeysDistinct)
    (h : c.onValueAt segments field place v = .ok w) : w.KeysDistinct := by
  induction segments generalizing field place v w with
  | nil =>
    rw [onValueAt] at h
    split at h
    · exact hc _ _ _ _ hv h
    · split at h
      · cases h
        exact hv
      · exact hc _ _ _ _ hv h
  | cons segment rest ih =>
    rcases onValueAt_cons_eq_ok.mp h with ⟨-, rfl⟩ | henters
    · exact hv
    · exact henters.keysDistinct hv fun s u u' hu hu' => ih (hv.selected hu) hu'

/-! ## Field trees -/

section Fields

variable (hQ : Lasting Q)

include hQ

theorem everywhere_of_throughWrappers {core : Field → Outcome Field}
    {onDefault : Field → Value → Outcome Value}
    (hcore : ∀ u, core f.unwrapped = .ok u → u.Everywhere Q)
    (hdefault : ∀ inner value value', value.KeysDistinct → onDefault inner value = .ok value' →
      value'.KeysDistinct)
    (hf : f.Everywhere Q) (h : throughWrappers core onDefault place f = .ok f') :
    f'.Everywhere Q := by
  induction f generalizing f' with
  | optional inner ih =>
    obtain ⟨inner', hinner, h⟩ := bind_eq_ok.mp h
    cases h
    exact everywhere_optional (hQ.optional _) (ih hcore hf.optionalInner hinner)
  | defaulted inner value ih =>
    obtain ⟨inner', value', hinner, hvalue, hsuits, rfl⟩ := throughWrappers_defaulted h
    have hdistinct := (hQ.defaulted_iff.mp hf.here).2
    exact everywhere_defaulted (hQ.defaulted_iff.mpr ⟨hsuits, hdefault _ _ _ hdistinct hvalue⟩)
      (ih hcore hf.defaultedInner hinner)
  | _ => exact hcore f' h

theorem Descends.everywhere {update : Path → Field → Outcome Field}
    (h : Descends update segment place f f') (hf : f.Everywhere Q)
    (hchild : ∀ g ∈ f.inside segment, ∀ p g', update p g = .ok g' → g'.Everywhere Q) :
    f'.Everywhere Q := by
  cases h with
  | @member members m child hm h =>
    have hnodup := hQ.object_iff.mp hf.here
    refine everywhere_object (hQ.object_iff.mpr (Member.nodup_put hnodup)) fun n hn => ?_
    rcases Member.mem_put hn with rfl | hn
    · exact hchild m.field (mem_inside_object hm) _ child h
    · exact hf.objectMember hn
  | element hsegment h =>
    exact everywhere_array (hQ.array hf.here)
      (hchild _ (Selects.element 0 hsegment).mem_inside _ _ h)
  | @items items items' hsegment hlength h =>
    refine everywhere_of (hQ.tuple items') fun g' hmem => ?_
    obtain ⟨i, hlt, rfl⟩ := List.mem_iff_getElem.mp hmem
    have hg := List.getElem?_eq_getElem (hlength ▸ hlt : i < items.length)
    exact hchild _ (Selects.each hsegment hg).mem_inside _ _
      (h i _ _ hg (List.getElem?_eq_getElem hlt))
  | @item items i g g' hsegment hi hg h =>
    refine everywhere_of (hQ.tuple _) fun k hmem => ?_
    rcases List.mem_or_eq_of_mem_set hmem with hmem | rfl
    · exact hf.tupleItem hmem
    · exact hchild g (mem_inside_tuple hsegment hi hg) _ k h

/-- A change along a path leaves a tree with what held at every field of it, if it does so at
the end of the path. -/
theorem onFieldAt_everywhere (hkeys : c.KeepsKeys)
    (hend : ∀ g p g', g.Everywhere Q → c.onField g p = .ok g' → g'.Everywhere Q)
    (hf : f.Everywhere Q) (h : c.onFieldAt segments place f = .ok f') : f'.Everywhere Q := by
  induction segments generalizing f f' place with
  | nil =>
    unfold onFieldAt at h
    split at h
    · exact everywhere_of_throughWrappers hQ (fun u hu => hend _ _ u hf.unwrapped hu)
        (fun _ _ _ hv hw => onValueAt_keysDistinct hkeys hv hw) hf h
    · exact hend f place f' hf h
  | cons segment rest ih =>
    refine everywhere_of_throughWrappers hQ (fun u hu => ?_)
      (fun _ _ _ hv hw => onValueAt_keysDistinct hkeys hv hw) hf h
    refine (descend_eq_ok.mp hu).everywhere hQ hf.unwrapped fun g hg p g' hg' => ?_
    exact ih (hf.unwrapped.child (child_of_mem_inside hg)) hg'

end Fields

end Change
end Lineage
