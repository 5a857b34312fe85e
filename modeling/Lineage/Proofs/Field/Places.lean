import Lineage.Proofs.Change.Walk

/-
The fields beside the places of a value.

A value is walked together with a field, and each place in the value has the field beside it
that the walk has when it comes there.  All items of an array share one field, so that a
wildcard in a path ends at one field and at many places.
-/

namespace Lineage

namespace Change

/-- The field beside a part of a value. -/
def partField (field : Option Field) : Segment → Option Field
  | .key name => memberField field name
  | .index i => itemField field i

/-- The field beside a place in a value. -/
def fieldAt : List Segment → Option Field → Option Field
  | [], field => field
  | s :: t, field => fieldAt t (partField (field.map Field.unwrapped) s)

theorem partField_none (s : Segment) : partField none s = none := by
  cases s <;> rfl

theorem fieldAt_none (t : List Segment) : fieldAt t none = none := by
  induction t with
  | nil => rfl
  | cons s t ih => rw [fieldAt, Option.map_none, partField_none, ih]

theorem partField_replaced {name : String} {members : List (Member Field)} {m : Member Field}
    (hm : Member.find? name members = some m) (child : Field) :
    partField (some (.object (Member.replaced m child members))) (.key name) = some child := by
  show (Member.find? name (Member.replaced m child members)).map Member.field = some child
  rw [Member.replaced, Member.find?_put, if_pos (Member.name_of_find? hm)]
  rfl

end Change

namespace Field

/-- A field that a segment selects inside a field without wrappers, and a place in the value
that it is beside. -/
inductive Selects (segment : Segment) : Field → Segment → Field → Prop
  | member {members : List (Member Field)} {m : Member Field}
    (hm : Member.find? segment.text members = some m) :
    Selects segment (object members) (.key segment.text) m.field
  | element {element : Field} {low high : Option Number} (i : Nat)
    (hsegment : segment = .wildcard) : Selects segment (array element low high) (.index i) element
  | each {items : List Field} {i : Nat} {g : Field} (hsegment : segment = .wildcard)
    (hg : items[i]? = some g) : Selects segment (tuple items) (.index i) g
  | item {items : List Field} {i : Nat} {g : Field} (hsegment : segment ≠ .wildcard)
    (hi : segment.resolve items.length = .ok (some i)) (hg : items[i]? = some g) :
    Selects segment (tuple items) (.index i) g

/-- A field at the end of a path, with the wrappers around it, and a place that it is beside. -/
inductive Ends : List Segment → Field → List Segment → Field → Prop
  | nil (f : Field) : Ends [] f [] f
  | cons {segment s : Segment} {rest t : List Segment} {f g x : Field}
    (h : f.unwrapped.Selects segment s g) (hrest : g.Ends rest t x) :
    Ends (segment :: rest) f (s :: t) x

variable {segment s : Segment} {segments rest t : List Segment} {f g x : Field}

theorem Selects.partField (h : f.Selects segment s g) : Change.partField (some f) s = some g := by
  cases h with
  | member hm =>
    show (Member.find? _ _).map Member.field = _
    rw [hm]
    rfl
  | element i hsegment => rfl
  | each hsegment hg => exact hg
  | item hsegment hi hg => exact hg

theorem Selects.mem_inside (h : f.Selects segment s g) : g ∈ f.inside segment := by
  cases h with
  | member hm => exact mem_inside_object hm
  | element i hsegment =>
    rw [inside, if_pos hsegment]
    exact List.mem_singleton.mpr rfl
  | each hsegment hg =>
    rw [inside, if_pos hsegment]
    exact List.mem_of_getElem? hg
  | item hsegment hi hg => exact mem_inside_tuple hsegment hi hg

theorem Ends.fieldAt (h : f.Ends segments t x) : Change.fieldAt t (some f) = some x := by
  induction h with
  | nil f => rfl
  | cons h _ ih => rw [Change.fieldAt, Option.map_some, h.partField, ih]

end Field

namespace Change

open Lineage.Field

variable {c : Change} {update : Path → Field → Outcome Field} {segment s : Segment}
variable {segments t : List Segment} {f f' g : Field} {place : Path}

theorem Descends.bare (h : Descends update segment place f f') : f'.acceptsAbsence = false := by
  cases h with
  | _ => rfl

theorem Descends.unwrapped (h : Descends update segment place f f') : f'.unwrapped = f' :=
  unwrapped_of_not_acceptsAbsence h.bare

/-- What one segment down makes of a container it makes of the parts that are selected. -/
theorem Descends.part (h : Descends update segment place f f') (hg : f.Selects segment s g) :
    ∃ inside g', update inside g = .ok g' ∧ partField (some f'.unwrapped) s = some g' := by
  cases h with
  | @member members m child hm h =>
    cases hg with
    | member hn =>
      obtain rfl := Option.some.inj (hm.symm.trans hn)
      refine ⟨_, child, h, ?_⟩
      show (Member.find? segment.text (Member.replaced _ child members)).map Member.field = _
      rw [Member.replaced, Member.find?_put, if_pos (Member.name_of_find? hm)]
      rfl
  | element hsegment h =>
    cases hg with
    | element i _ => exact ⟨_, _, h, rfl⟩
  | items hsegment hlength h =>
    cases hg with
    | each _ hg =>
      have hg' := List.getElem?_eq_getElem (hlength ▸ (List.getElem?_eq_some_iff.mp hg).1)
      exact ⟨_, _, h _ _ _ hg hg', hg'⟩
    | item hne _ _ => exact absurd hsegment hne
  | @item items i x x' hsegment hi hx h =>
    cases hg with
    | each hwildcard _ => exact absurd hwildcard hsegment
    | item _ hj hg =>
      obtain rfl := Option.some.inj (Except.ok.inj (hi.symm.trans hj))
      obtain rfl := Option.some.inj (hx.symm.trans hg)
      exact ⟨_, x', h, List.getElem?_set_self (resolve_lt hi)⟩

variable [Externals]

/-- A field at the end of the path is changed, and stays beside the same places. -/
theorem onFieldAt_at_end (h : c.onFieldAt segments place f = .ok f')
    (hg : f.Ends segments t g) :
    ∃ inside g', c.onFieldAt [] inside g = .ok g' ∧ fieldAt t (some f') = some g' := by
  induction hg generalizing place f' with
  | nil f => exact ⟨place, f', h, rfl⟩
  | cons hselects _ ih =>
    obtain ⟨u, hu, hunwrapped⟩ := core_of_throughWrappers h
    obtain ⟨inside, g', hg', hpart⟩ := (descend_eq_ok.mp hu).part hselects
    obtain ⟨inside, x', hx', hat⟩ := ih hg'
    refine ⟨inside, x', hx', ?_⟩
    rw [fieldAt, Option.map_some, hunwrapped, hpart, hat]

end Change
end Lineage
