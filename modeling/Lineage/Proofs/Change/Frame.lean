import Lineage.Proofs.Change.Walk

/-
A change of a field tree leaves alone what is not on its path.

The walk rebuilds every container on the way.  A tree that comes out of it differs from the
one that went in at the end of the path, in the defaults around fields on the way, and in one
more point: an object on the way no longer requires the name that the path goes through if the
field there accepts absence.  It keeps the names that it requires where it requires only such
as do not accept absence.
-/

namespace Lineage

/-! ## Edited trees -/

namespace Member

/-- Whether a name is still required after the field under it was swapped for one that
accepts absence just as the old one does. -/
def staysRequired (m : Member Field) : Bool := m.required && !m.field.acceptsAbsence

theorem replaced_of_same_absence {m : Member Field} {members : List (Member Field)}
    {child : Field} (h : child.acceptsAbsence = m.field.acceptsAbsence) :
    replaced m child members = put ⟨m.name, m.staysRequired, child⟩ members := by
  unfold replaced staysRequired
  rw [h]
  cases m.field.acceptsAbsence with
  | false => simp
  | true => simp

end Member

namespace Field

/-- Related fields inside the same wrappers, of which the defaults may differ. -/
inductive Around (R : Field → Field → Prop) : Field → Field → Prop
  | bare {f f' : Field} (h : R f f') : Around R f f'
  | optional {inner inner' : Field} (h : Around R inner inner') :
    Around R (.optional inner) (.optional inner')
  | defaulted {inner inner' : Field} (value value' : Value) (h : Around R inner inner') :
    Around R (.defaulted inner value) (.defaulted inner' value')

/-- Containers that differ only in what a segment selects.  Parts selected are related, and
`kept` says of a member whether its name is required afterwards. -/
inductive Beneath (kept : Member Field → Bool) (R : Field → Field → Prop) (segment : Segment) :
    Field → Field → Prop
  | member {before after : List (Member Field)} {m : Member Field} {child : Field}
    (hname : m.name = segment.text) (h : R m.field child) :
    Beneath kept R segment (.object (before ++ m :: after))
      (.object (before ++ ⟨m.name, kept m, child⟩ :: after))
  | element {element element' : Field} {low high : Option Number} (hsegment : segment = .wildcard)
    (h : R element element') :
    Beneath kept R segment (.array element low high) (.array element' low high)
  | items {items items' : List Field} (hsegment : segment = .wildcard)
    (h : List.Forall₂ R items items') : Beneath kept R segment (.tuple items) (.tuple items')
  | item {items : List Field} {i : Nat} {g g' : Field}
    (hsegment : segment.resolve items.length = .ok (some i)) (hg : items[i]? = some g)
    (h : R g g') : Beneath kept R segment (.tuple items) (.tuple (items.set i g'))

/-- Trees that differ only at the ends of a path, where fields inside wrappers are related, and
in the defaults on the way. -/
def EditedAt (kept : Member Field → Bool) (R : Field → Field → Prop) :
    List Segment → Field → Field → Prop
  | [] => Around R
  | segment :: rest => Around (Beneath kept (EditedAt kept R rest) segment)

/-- What `kept` has to say of the members of an object. -/
def KeepsRequired (kept : Member Field → Bool) : Field → Prop
  | object members => ∀ m ∈ members, kept m = m.staysRequired
  | _ => True

variable {kept : Member Field → Bool} {R : Field → Field → Prop} {segment : Segment}
variable {segments rest : List Segment} {f f' : Field} {members members' : List (Member Field)}

theorem keepsRequired_staysRequired : f.KeepsRequired Member.staysRequired := by
  cases f with
  | object members => exact fun _ _ => rfl
  | _ => exact trivial

theorem RequiresOnlyPresent.keepsRequired (h : f.RequiresOnlyPresent) :
    f.KeepsRequired Member.required := by
  cases f with
  | object members =>
    intro m hm
    unfold Member.staysRequired
    cases hrequired : m.required with
    | false => rfl
    | true => rw [h m hm hrequired]; rfl
  | _ => exact trivial

theorem Around.acceptsAbsence (h : Around R f f')
    (hR : ∀ u u', R u u' → u'.acceptsAbsence = u.acceptsAbsence) :
    f'.acceptsAbsence = f.acceptsAbsence := by
  cases h with
  | bare h => exact hR f f' h
  | optional _ => rfl
  | defaulted _ _ _ => rfl

theorem Beneath.acceptsAbsence (h : Beneath kept R segment f f') :
    f'.acceptsAbsence = f.acceptsAbsence := by
  cases h with
  | member | element | items | item => rfl

/-- An edited tree accepts absence just as the one before, whatever happens at the ends. -/
theorem EditedAt.acceptsAbsence (h : EditedAt kept R segments f f')
    (hR : ∀ u u', R u u' → u'.acceptsAbsence = u.acceptsAbsence) :
    f'.acceptsAbsence = f.acceptsAbsence := by
  cases segments with
  | nil => exact Around.acceptsAbsence h hR
  | cons segment rest => exact Around.acceptsAbsence h fun _ _ hu => hu.acceptsAbsence

/-- Where `kept` keeps what is required, an object on the way has the same names in the same
order, and requires the same of them. -/
theorem EditedAt.names_eq
    (h : EditedAt Member.required R (segment :: rest) (.object members) (.object members')) :
    Member.names members' = Member.names members ∧
      Member.requiredNames members' = Member.requiredNames members := by
  cases h with
  | bare h =>
    cases h with
    | @member before after m child _ _ =>
      refine ⟨by simp [Member.names], ?_⟩
      cases hrequired : m.required with
      | false => simp [Member.requiredNames, Member.names, hrequired]
      | true => simp [Member.requiredNames, Member.names, hrequired]

end Field

/-! ## Changes -/

namespace Change

open Lineage.Field

variable {c : Change} {kept : Member Field → Bool} {R : Field → Field → Prop}
variable {segment : Segment} {segments : List Segment} {f f' : Field} {path : Path}

variable [Externals]

theorem around_of_throughWrappers {core : Field → Outcome Field}
    {onDefault : Field → Value → Outcome Value} (hcore : ∀ u', core f.unwrapped = .ok u' →
      R f.unwrapped u') (h : throughWrappers core onDefault path f = .ok f') : Around R f f' := by
  induction f generalizing f' with
  | optional inner ih =>
    obtain ⟨changed, hchanged, h⟩ := Outcome.bind_eq_ok.mp h
    cases h
    exact .optional (ih hcore hchanged)
  | defaulted inner value ih =>
    obtain ⟨changed, changedValue, hchanged, -, -, rfl⟩ := throughWrappers_defaulted h
    exact .defaulted value changedValue (ih hcore hchanged)
  | _ => exact .bare (hcore f' h)

omit [Externals] in
/-- One segment down, all parts but those selected stay as they are. -/
theorem beneath_of_descend {update : Path → Field → Outcome Field} (hkept : f.KeepsRequired kept)
    (hchild : ∀ g ∈ f.inside segment, ∀ place g', update place g = .ok g' →
      R g g' ∧ g'.acceptsAbsence = g.acceptsAbsence)
    (h : descend update segment path f = .ok f') : Beneath kept R segment f f' := by
  cases descend_eq_ok.mp h with
  | @member members m child hm hchanged =>
    obtain ⟨hrelated, habsence⟩ := hchild m.field (mem_inside_object hm) _ child hchanged
    have hname := Member.name_of_find? hm
    have hstays := hkept m (Member.mem_of_find? hm)
    obtain ⟨before, after, rfl, hput⟩ := Member.put_of_find? hm
    rw [Member.replaced_of_same_absence habsence, ← hstays, hput ⟨m.name, kept m, child⟩ hname]
    exact .member hname hrelated
  | @element element child low high hsegment hchanged =>
    subst hsegment
    exact .element rfl (hchild element (List.mem_singleton.mpr rfl) _ child hchanged).1
  | @items items items' hsegment hlength hchanged =>
    subst hsegment
    exact .items rfl (Alongside.of_getElem? hlength fun i g g' hg hg' =>
      (hchild g (List.mem_of_getElem? hg) _ g' (hchanged i g g' hg hg')).1)
  | @item items i g g' hsegment hi hg hg' =>
    exact .item hi hg (hchild g (mem_inside_tuple hsegment hi hg) _ g' hg').1

/-- A change that looks through wrappers edits the field inside them at the end of its path,
and nothing else but defaults and what is required on the way. -/
theorem onFieldAt_edits (hthrough : c.through = true)
    (hend : ∀ u place u', c.onField u place = .ok u' → R u u')
    (hR : ∀ u u', R u u' → u'.acceptsAbsence = u.acceptsAbsence)
    (hkept : f.Everywhere (KeepsRequired kept)) (h : c.onFieldAt segments path f = .ok f') :
    EditedAt kept R segments f f' := by
  induction segments generalizing f f' path with
  | nil =>
    unfold onFieldAt at h
    rw [if_pos hthrough] at h
    exact around_of_throughWrappers (fun u' hu => hend _ path u' hu) h
  | cons segment rest ih =>
    refine around_of_throughWrappers (fun u' hu => ?_) h
    refine beneath_of_descend hkept.unwrapped.here (fun g hg place g' hg' => ?_) hu
    have hedited := ih (hkept.unwrapped.child (child_of_mem_inside hg)) hg'
    exact ⟨hedited, hedited.acceptsAbsence hR⟩

end Change
end Lineage
