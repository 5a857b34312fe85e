import Lineage.Proofs.Change.Frame
import Lineage.Proofs.Change.Omission
import Lineage.Proofs.Change.Places
import Lineage.Proofs.Field.Rebuilding

/-
A change that another one undoes at the end of a path it undoes along the whole path.

Going back, the walk comes through the containers that the first walk left behind, where it
finds the same parts to enter and the same ones to pass over.  A default is changed beside the
field that it is for; that it conforms to that field is what makes the two agree about the
indices that a selector stands for, and about the keys that are not there.
-/

namespace Lineage

namespace Member

variable {name : String} {members : List (Member Field)} {m : Member Field} {child : Field}

/-- A field that is swapped and swapped back is required as before, if it was required only
where it does not accept absence. -/
theorem replaced_replaced (hm : find? name members = some m)
    (habsence : child.acceptsAbsence = m.field.acceptsAbsence)
    (hrequired : m.required = true → m.field.acceptsAbsence = false) :
    ∃ m', find? name (replaced m child members) = some m' ∧ m'.field = child ∧
      replaced m' m.field (replaced m child members) = members := by
  have hkept : m.staysRequired = m.required := by
    unfold staysRequired
    cases hcase : m.required with
    | false => rfl
    | true => rw [hrequired hcase]; rfl
  rw [replaced_of_same_absence habsence, hkept]
  refine ⟨⟨m.name, m.required, child⟩, ?_, rfl, ?_⟩
  · rw [find?_put, if_pos (name_of_find? hm)]
  · have hkept' : (⟨m.name, m.required, child⟩ : Member Field).staysRequired = m.required := by
      unfold staysRequired at hkept ⊢
      rw [habsence]
      exact hkept
    rw [replaced_of_same_absence (m := ⟨m.name, m.required, child⟩) habsence.symm, hkept']
    have hback : put m (put ⟨m.name, m.required, child⟩ members) = put m members :=
      put_put (m := m) (n := ⟨m.name, m.required, child⟩) rfl members
    exact hback.trans (put_found (name_of_find? hm ▸ hm))

end Member

namespace Field

/-- What holds of each container that a path leads through. -/
def OnTheWay (P : Field → Prop) : List Segment → Field → Prop
  | [], _ => True
  | segment :: rest, f => P f.unwrapped ∧ ∀ g ∈ f.unwrapped.inside segment, g.OnTheWay P rest

end Field

namespace Change

open Lineage.Field Outcome

variable {c c' : Change} {segment s : Segment} {segments rest : List Segment}
variable {f f' g : Field} {v w u : Value} {place inside : Path}
variable {R R' : Segment → Value → Value → Prop}

/-! ## One container -/

/-- What is undone in every part selected is undone in the container. -/
theorem Enters.reverse (h : Enters segment R v w)
    (hR : ∀ s u u', v.Selects segment s u → R s u u' → R' s u' u) : Enters segment R' w v := by
  cases h with
  | @entry entries u u' hfind h =>
    have hfind' : Entries.find? (.text segment.text)
        (Entries.put (.text segment.text) u' entries) = some u' := by
      rw [Entries.find?_put, if_pos rfl]
    have hback := Enters.entry hfind' (hR _ u u' (.entry hfind) h)
    rwa [Entries.put_put hfind, Entries.put_found hfind] at hback
  | each hsegment hlength h =>
    exact .each hsegment hlength.symm fun i u' u hu' hu =>
      hR _ u u' (.each hsegment hu) (h i u u' hu hu')
  | @item items i u u' hsegment hi hu h =>
    have hset : (items.set i u')[i]? = some u' := List.getElem?_set_self (resolve_lt hi)
    have hresolve : segment.resolve (items.set i u').length = .ok (some i) := by
      rwa [List.length_set]
    have hback := Enters.item (R := R') hsegment hresolve hset (hR _ u u' (.item hsegment hi hu) h)
    obtain ⟨hlt, rfl⟩ := List.getElem?_eq_some_iff.mp hu
    rwa [List.set_set, List.set_getElem_self] at hback

variable [Externals]

/-- Beside a field that a value conforms to, a segment selects a part together with the field
that the part conforms to. -/
theorem Descends.selects {update : Path → Field → Outcome Field}
    (h : Descends update segment place f f') (hv : f.Conforms v) (hu : v.Selects segment s u) :
    ∃ g, f.Selects segment s g ∧ g.Conforms u := by
  cases h with
  | @member members m child hm h =>
    obtain ⟨entries, rfl, -, hparts⟩ := conforms_entries hv
    cases hu with
    | entry hu => exact ⟨m.field, .member hm, hparts _ m u hm hu⟩
  | element hsegment h =>
    obtain ⟨items, rfl, hitems⟩ := conforms_array hv
    cases hu with
    | each _ hu => exact ⟨_, .element _ hsegment, hitems u (List.mem_of_getElem? hu)⟩
    | item hne _ _ => exact absurd hsegment hne
  | items hsegment _ h =>
    obtain ⟨items, rfl, hitems⟩ := conforms_tuple hv
    cases hu with
    | each _ hu =>
      obtain ⟨g, hg, hconforms⟩ := Alongside.getElem?_right hitems.flip hu
      exact ⟨g, .each hsegment hg, hconforms⟩
    | item hne _ _ => exact absurd hsegment hne
  | @item fields i x x' hsegment hi hx h =>
    obtain ⟨items, rfl, hitems⟩ := conforms_tuple hv
    cases hu with
    | each hwildcard _ => exact absurd hwildcard hsegment
    | item _ hj hu =>
      rw [← hitems.length_eq, hi] at hj
      obtain rfl := Option.some.inj (Except.ok.inj hj)
      obtain ⟨u', hu', hconforms⟩ := Alongside.getElem?_right hitems hx
      obtain rfl := Option.some.inj (hu.symm.trans hu')
      exact ⟨x, .item hsegment hi hx, hconforms⟩

omit [Externals] in
/-- The field under the name on the path lets it be absent as before. -/
theorem Descends.absence {update : Path → Field → Outcome Field}
    (h : Descends update segment place f f')
    (hupdate : ∀ place g g', update place g = .ok g' → g'.acceptsAbsence = g.acceptsAbsence) :
    (memberField (some f') segment.text).any acceptsAbsence =
      (memberField (some f) segment.text).any acceptsAbsence := by
  cases h with
  | @member members m child hm h =>
    have hchanged : memberField (some (.object (Member.replaced m child members))) segment.text =
        some child := partField_replaced hm child
    rw [hchanged]
    simp only [memberField, hm, Option.map_some, Option.any_some, hupdate _ _ _ h]
  | _ => rfl

/-- A change that looks through wrappers leaves each field as absent as it was. -/
theorem onFieldAt_acceptsAbsence (hthrough : c.through = true)
    (hend : ∀ u place u', c.onField u place = .ok u' → u'.acceptsAbsence = u.acceptsAbsence)
    (h : c.onFieldAt segments place f = .ok f') : f'.acceptsAbsence = f.acceptsAbsence :=
  (onFieldAt_edits hthrough hend (fun _ _ h => h)
    (fun _ _ => keepsRequired_staysRequired) h).acceptsAbsence fun _ _ h => h

/-! ## Whole paths -/

/-- What is asked of a change and of one that undoes it: at the end of the path, on a value
alone, on a field, and on a value beside a field that it conforms to. -/
structure Undoes (c' c : Change) : Prop where
  looks : c.through = true
  looksBack : c'.through = true
  object : ∀ v field place w, c.onValue v field place = .ok w → ∃ entries, w = .object entries
  bare : ∀ u place u', c.onField u place = .ok u' →
    u.acceptsAbsence = false ∧ u'.acceptsAbsence = false
  value : ∀ v place w, v.KeysDistinct → c.onValue v none place = .ok w →
    ∀ place', c'.onValue w none place' = .ok v
  field : ∀ u place u', u.Sound → c.onField u place = .ok u' →
    ∀ place', c'.onField u' place' = .ok u
  beside : ∀ u inside u' v place w, u.Sound → v.KeysDistinct → u.Conforms v →
    c.onField u inside = .ok u' → c.onValue v (some u) place = .ok w →
    ∀ place', c'.onValue w (some u') place' = .ok v

variable (hundo : Undoes c' c)

include hundo

theorem Undoes.acceptsAbsence (h : c.onFieldAt segments place f = .ok f') :
    f'.acceptsAbsence = f.acceptsAbsence := by
  refine onFieldAt_acceptsAbsence hundo.looks (fun u place u' hu => ?_) h
  obtain ⟨hbefore, hafter⟩ := hundo.bare u place u' hu
  exact hafter.trans hbefore.symm

/-- A value alone is restored. -/
theorem Undoes.onValueAt (hv : v.KeysDistinct) (h : c.onValueAt segments none place v = .ok w)
    (place' : Path) : c'.onValueAt segments none place' w = .ok v := by
  induction segments generalizing v w place place' with
  | nil =>
    rw [onValueAt_nil_none] at h ⊢
    exact hundo.value v place w hv h place'
  | cons segment rest ih =>
    refine onValueAt_cons_none_eq_ok.mpr ((onValueAt_cons_none_eq_ok.mp h).reverse ?_)
    exact fun s u u' hu hu' => ih (hv.selected hu) hu' _

omit [Externals] hundo in
theorem onValueAt_nil_unwrapped (hthrough : c.through = true) :
    c.onValueAt [] (some f.unwrapped) place v = c.onValue v (some f.unwrapped) place := by
  rw [Change.onValueAt, hthrough, isSkipped_unwrapped, Option.map_some, unwrapped_unwrapped]
  rfl

/-- Wrappers let both walks pass over null, and are looked through by both otherwise. -/
theorem Undoes.beside_wrappers (hf : c.onFieldAt segments inside f = .ok f') (hv : v.IsJson)
    (hconforms : f.Conforms v) (h : c.onValueAt segments (some f) place v = .ok w) (place' : Path)
    (hinner : f.unwrapped.Conforms v →
      c.onValueAt segments (some f.unwrapped) place v = .ok w →
        w ≠ .null ∧ c'.onValueAt segments (some f'.unwrapped) place' w = .ok v) :
    c'.onValueAt segments (some f') place' w = .ok v := by
  have hlook : c.LooksThrough segments := .inr hundo.looks
  have hlook' : c'.LooksThrough segments := .inr hundo.looksBack
  cases hskipped : isSkipped (some f) v with
  | true =>
    rw [onValueAt_of_skipped hlook hskipped] at h
    cases h
    obtain rfl := eq_null_of_isSkipped hskipped
    exact onValueAt_of_skipped hlook' ((hundo.acceptsAbsence hf).trans hskipped)
  | false =>
    rw [onValueAt_unwrapped hlook hskipped] at h
    obtain ⟨hw, hback⟩ := hinner (hconforms.unwrapped hv.checked hskipped) h
    rw [onValueAt_unwrapped hlook' (isSkipped_of_ne_null hw _)]
    exact hback

/-- A value beside a field that it conforms to is restored beside what that became. -/
theorem Undoes.onValueAt_beside (hsound : f.Sound) (hv : v.IsJson) (hconforms : f.Conforms v)
    (hf : c.onFieldAt segments inside f = .ok f')
    (h : c.onValueAt segments (some f) place v = .ok w) (place' : Path) :
    c'.onValueAt segments (some f') place' w = .ok v := by
  induction segments generalizing f f' v w inside place place' with
  | nil =>
    refine hundo.beside_wrappers hf hv hconforms h place' fun hinner h => ?_
    rw [onFieldAt, if_pos hundo.looks] at hf
    obtain ⟨u, hu, hunwrapped⟩ := core_of_throughWrappers hf
    rw [unwrapped_of_not_acceptsAbsence (hundo.bare _ _ u hu).2] at hunwrapped
    rw [onValueAt_nil_unwrapped hundo.looks] at h
    obtain ⟨entries, rfl⟩ := hundo.object _ _ _ _ h
    refine ⟨nofun, ?_⟩
    rw [onValueAt_nil_unwrapped hundo.looksBack, hunwrapped]
    exact hundo.beside _ _ _ _ _ _ hsound.unwrapped hv.distinct hinner hu h place'
  | cons segment rest ih =>
    refine hundo.beside_wrappers hf hv hconforms h place' fun hinner h => ?_
    obtain ⟨u, hu, hunwrapped⟩ := core_of_throughWrappers hf
    have hdown := descend_eq_ok.mp hu
    rw [hdown.unwrapped] at hunwrapped
    rw [hunwrapped]
    rcases onValueAt_cons_eq_ok.mp h with ⟨hskipped | ⟨entries, rfl, hnone, habsent⟩, rfl⟩ | henters
    · exact absurd ((isSkipped_unwrapped f w).symm.trans hskipped) nofun
    · refine ⟨nofun, onValueAt_cons_eq_ok.mpr (.inl ⟨.inr ⟨entries, rfl, hnone, ?_⟩, rfl⟩)⟩
      rw [Option.map_some, unwrapped_unwrapped] at habsent
      rw [Option.map_some, hdown.unwrapped, hdown.absence fun _ _ _ => hundo.acceptsAbsence,
        habsent]
    · refine ⟨?_, onValueAt_cons_eq_ok.mpr (.inr (henters.reverse fun s x x' hx hx' => ?_))⟩
      · rintro rfl
        cases henters
      obtain ⟨g, hg, hgx⟩ := hdown.selects hinner hx
      obtain ⟨inside', g', hg', hpart⟩ := hdown.part hg
      rw [Option.map_some, unwrapped_unwrapped, hg.partField] at hx'
      rw [Option.map_some, hpart]
      exact ih (hsound.unwrapped.child (child_of_mem_inside hg.mem_inside)) (hv.selected hx) hgx hg'
        hx' _

/-! ## Field trees -/

omit hundo in
theorem throughWrappers_undo {core core' : Field → Outcome Field}
    {onDefault onDefault' : Field → Value → Outcome Value} (hsound : f.Sound)
    (hcore : ∀ u, core f.unwrapped = .ok u →
      u.acceptsAbsence = false ∧ core' u = .ok f.unwrapped)
    (hdefault : ∀ inner inner' value value', inner.Sound → value.IsJson → inner.Conforms value →
      throughWrappers core onDefault place inner = .ok inner' →
      onDefault inner value = .ok value' → onDefault' inner' value' = .ok value)
    (h : throughWrappers core onDefault place f = .ok f') (place' : Path) :
    throughWrappers core' onDefault' place' f' = .ok f := by
  induction f generalizing f' with
  | optional inner ih =>
    obtain ⟨changed, hchanged, h⟩ := bind_eq_ok.mp h
    cases h
    exact bind_eq_ok.mpr ⟨inner, ih hsound.optionalInner hcore hchanged, rfl⟩
  | defaulted inner value ih =>
    obtain ⟨changed, value', hchanged, hvalue, -, rfl⟩ := throughWrappers_defaulted h
    obtain ⟨hjson, hcheck⟩ := hsound.here
    have hconforms : inner.Conforms value := ⟨{}, .root, rfl, hcheck⟩
    have hback := hdefault _ _ _ _ hsound.defaultedInner hjson hconforms hchanged hvalue
    refine bind_eq_ok.mpr ⟨inner, ih hsound.defaultedInner hcore hchanged,
      bind_eq_ok.mpr ⟨value, hback, ?_⟩⟩
    rw [refit, makeDefaulted_of hjson.checked hcheck]
  | _ =>
    obtain ⟨hbare, hback⟩ := hcore _ h
    rw [throughWrappers_of_bare hbare]
    exact hback

omit [Externals] hundo in
/-- One segment down, what is undone in the parts selected is undone in the container. -/
theorem Descends.reverse {update update' : Path → Field → Outcome Field}
    (h : Descends update segment place f f') (hpresent : f.RequiresOnlyPresent)
    (hback : ∀ g ∈ f.inside segment, ∀ inside g', update inside g = .ok g' →
      g'.acceptsAbsence = g.acceptsAbsence ∧ ∀ inside', update' inside' g' = .ok g)
    (place' : Path) : Descends update' segment place' f' f := by
  cases h with
  | @member members m child hm h =>
    obtain ⟨habsence, hback⟩ := hback m.field (mem_inside_object hm) _ child h
    obtain ⟨m', hm', rfl, hmembers⟩ := Member.replaced_replaced hm habsence
      (hpresent m (Member.mem_of_find? hm))
    have hreversed := Descends.member hm' (hback (place'.key segment.text))
    rwa [hmembers] at hreversed
  | element hsegment h =>
    exact .element hsegment ((hback _ (Selects.element 0 hsegment).mem_inside _ _ h).2 _)
  | items hsegment hlength h =>
    exact .items hsegment hlength.symm fun i g' g hg' hg =>
      (hback g (Selects.each hsegment hg).mem_inside _ g' (h i g g' hg hg')).2 _
  | @item items i g g' hsegment hi hg h =>
    have hset : (items.set i g')[i]? = some g' := List.getElem?_set_self (resolve_lt hi)
    have hresolve : segment.resolve (items.set i g').length = .ok (some i) := by
      rwa [List.length_set]
    obtain ⟨-, hback⟩ := hback g (mem_inside_tuple hsegment hi hg) _ g' h
    have hreversed := Descends.item hsegment hresolve hset (hback (place'.index i))
    obtain ⟨hlt, rfl⟩ := List.getElem?_eq_some_iff.mp hg
    rwa [List.set_set, List.set_getElem_self] at hreversed

/-- A field tree is restored, with its defaults, unless an object on the way required a name
that it lets be absent. -/
theorem Undoes.onFieldAt (hsound : f.Sound)
    (hpresent : f.OnTheWay RequiresOnlyPresent segments)
    (h : c.onFieldAt segments place f = .ok f') (place' : Path) :
    c'.onFieldAt segments place' f' = .ok f := by
  induction segments generalizing f f' place place' with
  | nil =>
    rw [Change.onFieldAt, if_pos hundo.looks] at h
    rw [Change.onFieldAt, if_pos hundo.looksBack]
    refine throughWrappers_undo hsound (fun u hu => ?_) ?_ h place'
    · exact ⟨(hundo.bare _ _ u hu).2, hundo.field _ _ u hsound.unwrapped hu place'⟩
    · intro inner inner' value value' hinner hjson hconforms hchanged hvalue
      have hchanged : c.onFieldAt [] place inner = .ok inner' := by
        rw [Change.onFieldAt, if_pos hundo.looks]
        exact hchanged
      exact hundo.onValueAt_beside hinner hjson hconforms hchanged hvalue place'
  | cons segment rest ih =>
    obtain ⟨hhere, hbelow⟩ := hpresent
    refine throughWrappers_undo hsound (fun u hu => ?_) ?_ h place'
    · have hdown := descend_eq_ok.mp hu
      refine ⟨hdown.bare, descend_eq_ok.mpr (hdown.reverse hhere ?_ place')⟩
      intro g hg inside g' hg'
      exact ⟨hundo.acceptsAbsence hg', fun inside' =>
        ih (hsound.unwrapped.child (child_of_mem_inside hg)) (hbelow g hg) hg' inside'⟩
    · intro inner inner' value value' hinner hjson hconforms hchanged hvalue
      have hchanged : c.onFieldAt (segment :: rest) place inner = .ok inner' := hchanged
      exact hundo.onValueAt_beside hinner hjson hconforms hchanged hvalue place'

end Change
end Lineage
