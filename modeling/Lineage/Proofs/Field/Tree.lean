import Lineage.Field

/-
Field trees.

A field tree is a field with the trees of its children.  Statements about a tree go
by induction over it, with one case for each kind of field, and a property can be
asked of every field of a tree at once.
-/

namespace Lineage
namespace Field

/-- The fields that a field is made of. -/
def children : Field → List Field
  | array element _ _ => [element]
  | tuple items => items
  | object members => members.map Member.field
  | optional inner => [inner]
  | defaulted inner _ => [inner]
  | union variants _ => variants
  | string _ _ _ _ | number _ _ _ | boolean | null | any | literal _ | custom _ _ => []

theorem sizeOf_member_lt {m : Member Field} {members : List (Member Field)} (h : m ∈ members) :
    sizeOf m.field < sizeOf members := by
  have hm := List.sizeOf_lt_of_mem h
  obtain ⟨name, required, f⟩ := m
  simp only [Member.mk.sizeOf_spec] at hm
  show sizeOf f < _
  omega

/-- Induction over field trees. -/
@[elab_as_elim, induction_eliminator]
theorem treeInduction {motive : Field → Prop}
    (string : ∀ minLen maxLen pattern format, motive (.string minLen maxLen pattern format))
    (number : ∀ min max integerOnly, motive (.number min max integerOnly))
    (boolean : motive .boolean) (null : motive .null) (any : motive .any)
    (literal : ∀ value, motive (.literal value))
    (array : ∀ element minItems maxItems, motive element →
      motive (.array element minItems maxItems))
    (tuple : ∀ items, (∀ f ∈ items, motive f) → motive (.tuple items))
    (object : ∀ members, (∀ m ∈ members, motive m.field) → motive (.object members))
    (optional : ∀ inner, motive inner → motive (.optional inner))
    (defaulted : ∀ inner value, motive inner → motive (.defaulted inner value))
    (union : ∀ variants discriminant, (∀ f ∈ variants, motive f) →
      motive (.union variants discriminant))
    (custom : ∀ check name, motive (.custom check name)) : ∀ f, motive f
  | .string minLen maxLen pattern format => string minLen maxLen pattern format
  | .number min max integerOnly => number min max integerOnly
  | .boolean => boolean
  | .null => null
  | .any => any
  | .literal value => literal value
  | .array element minItems maxItems =>
    array element minItems maxItems (treeInduction string number boolean null any literal array
      tuple object optional defaulted union custom element)
  | .tuple items => tuple items fun f hf =>
    have := List.sizeOf_lt_of_mem hf
    treeInduction string number boolean null any literal array tuple object optional defaulted
      union custom f
  | .object members => object members fun m hm =>
    have := sizeOf_member_lt hm
    treeInduction string number boolean null any literal array tuple object optional defaulted
      union custom m.field
  | .optional inner =>
    optional inner (treeInduction string number boolean null any literal array tuple object
      optional defaulted union custom inner)
  | .defaulted inner value =>
    defaulted inner value (treeInduction string number boolean null any literal array tuple
      object optional defaulted union custom inner)
  | .union variants discriminant => union variants discriminant fun f hf =>
    have := List.sizeOf_lt_of_mem hf
    treeInduction string number boolean null any literal array tuple object optional defaulted
      union custom f
  | .custom check name => custom check name
termination_by f => sizeOf f

/-- Induction by way of children. -/
theorem childInduction {motive : Field → Prop}
    (h : ∀ f : Field, (∀ a ∈ f.children, motive a) → motive f) (f : Field) : motive f := by
  induction f with
  | string | number | boolean | null | any | literal | custom => exact h _ (List.forall_mem_nil _)
  | array element low high ih => exact h _ (List.forall_mem_singleton.mpr ih)
  | tuple items ih => exact h _ ih
  | object members ih => exact h _ (List.forall_mem_map.mpr ih)
  | optional inner ih => exact h _ (List.forall_mem_singleton.mpr ih)
  | defaulted inner value ih => exact h _ (List.forall_mem_singleton.mpr ih)
  | union variants key ih => exact h _ ih

/-! ## Every field of a tree -/

/-- One field is a field of the tree of another. -/
inductive Within (g : Field) : Field → Prop
  | here : Within g g
  | child {f h : Field} (hchild : h ∈ f.children) (hwithin : Within g h) : Within g f

/-- A property of every field of a tree. -/
def Everywhere (P : Field → Prop) (f : Field) : Prop := ∀ g, Within g f → P g

variable {P Q : Field → Prop} {f g : Field}

theorem Everywhere.here (h : Everywhere P f) : P f := h f .here

theorem Everywhere.child (h : Everywhere P f) (hg : g ∈ f.children) : Everywhere P g :=
  fun k hk => h k (.child hg hk)

theorem everywhere_of (hf : P f) (hchildren : ∀ g ∈ f.children, Everywhere P g) :
    Everywhere P f := by
  intro k hk
  cases hk with
  | here => exact hf
  | child hchild hwithin => exact hchildren _ hchild k hwithin

theorem everywhere_leaf (hf : P f) (hleaf : f.children = []) : Everywhere P f :=
  everywhere_of hf (by rw [hleaf]; exact nofun)

theorem Everywhere.imp (h : Everywhere P f) (himp : ∀ g, P g → Q g) : Everywhere Q f :=
  fun k hk => himp k (h k hk)

section Children

variable {element inner : Field} {items variants : List Field} {members : List (Member Field)}
variable {low high : Option Number} {value : Value} {key : Option String}

theorem Everywhere.arrayElement
    (h : Everywhere P (.array element low high)) : Everywhere P element :=
  h.child List.mem_cons_self

theorem Everywhere.tupleItem (h : Everywhere P (.tuple items)) (hg : g ∈ items) : Everywhere P g :=
  h.child hg

theorem Everywhere.objectMember (h : Everywhere P (.object members)) {m : Member Field}
    (hm : m ∈ members) : Everywhere P m.field :=
  h.child (List.mem_map_of_mem hm)

theorem Everywhere.optionalInner (h : Everywhere P (.optional inner)) : Everywhere P inner :=
  h.child List.mem_cons_self

theorem Everywhere.defaultedInner (h : Everywhere P (.defaulted inner value)) :
    Everywhere P inner :=
  h.child List.mem_cons_self

theorem Everywhere.unionVariant (h : Everywhere P (.union variants key)) (hg : g ∈ variants) :
    Everywhere P g :=
  h.child hg

theorem everywhere_array (hf : P (.array element low high)) (h : Everywhere P element) :
    Everywhere P (.array element low high) :=
  everywhere_of hf fun g hg => by rw [List.mem_singleton.mp hg]; exact h

theorem everywhere_optional (hf : P (.optional inner)) (h : Everywhere P inner) :
    Everywhere P (.optional inner) :=
  everywhere_of hf fun g hg => by rw [List.mem_singleton.mp hg]; exact h

theorem everywhere_defaulted (hf : P (.defaulted inner value)) (h : Everywhere P inner) :
    Everywhere P (.defaulted inner value) :=
  everywhere_of hf fun g hg => by rw [List.mem_singleton.mp hg]; exact h

theorem everywhere_object (hf : P (.object members))
    (h : ∀ m ∈ members, Everywhere P m.field) : Everywhere P (.object members) := by
  refine everywhere_of hf fun g hg => ?_
  obtain ⟨m, hm, rfl⟩ := List.mem_map.mp hg
  exact h m hm

end Children

/-! ## Wrappers -/

theorem unwrapped_of_not_acceptsAbsence {f : Field} (h : f.acceptsAbsence = false) :
    f.unwrapped = f := by
  cases f with
  | optional inner => cases h
  | defaulted inner value => cases h
  | _ => rfl

theorem acceptsAbsence_unwrapped (f : Field) : f.unwrapped.acceptsAbsence = false := by
  induction f with
  | optional inner ih => exact ih
  | defaulted inner value ih => exact ih
  | string | number | boolean | null | any | literal | array | tuple | object | union | custom =>
    rfl

theorem unwrapped_unwrapped (f : Field) : f.unwrapped.unwrapped = f.unwrapped :=
  unwrapped_of_not_acceptsAbsence (acceptsAbsence_unwrapped f)

theorem Everywhere.unwrapped {P : Field → Prop} {f : Field} (h : f.Everywhere P) :
    f.unwrapped.Everywhere P := by
  induction f with
  | optional inner ih => exact ih h.optionalInner
  | defaulted inner value ih => exact ih h.defaultedInner
  | string | number | boolean | null | any | literal | array | tuple | object | union | custom =>
    exact h

end Field
end Lineage
