import Lineage.Proofs.Field.Document
import Lineage.Proofs.Field.Matching

/-
Comparison of fields with what is read back for them.

The comparison finds nothing between a field and the field that is read back from its
document, and both list the names of their objects in the same order at every depth.
-/

namespace Lineage
namespace Field

/-! ## Attributes -/

/-- A truth value is loosely equal to itself. -/
theorem sameBy_bool (b : Bool) : (Value.bool b).sameBy Number.same (.bool b) = true := by
  show Number.same (.int (if b then 1 else 0)) (.int (if b then 1 else 0)) = true
  exact Number.same_refl rfl

theorem compareFlag_bool (path : Path) (name : String) (b : Bool) :
    compareFlag path name (.bool b) (.bool b) = [] :=
  compareFlag_eq_nil.mpr ⟨sameBy_bool b, rfl⟩

/-! ## Key order -/

/-- The names of an object in their order, nothing for other fields. -/
def keyNames (f : Field) : Option (List String) := f.members?.map Member.names

/-- Two fields list the same names in the same order, and so do their children side by
side. -/
inductive SameKeyOrder : Field → Field → Prop
  | intro {f g : Field} (hnames : f.keyNames = g.keyNames)
      (hchildren : List.Forall₂ SameKeyOrder f.children g.children) : SameKeyOrder f g

theorem forall₂_readBackAll {R : Field → Field → Prop} {fields : List Field}
    (h : ∀ f ∈ fields, R f f.readBack) : List.Forall₂ R fields (readBackAll fields) := by
  induction fields with
  | nil => exact .nil
  | cons f rest ih =>
    obtain ⟨hf, hrest⟩ := List.forall_mem_cons.mp h
    exact .cons hf (ih hrest)

theorem sameKeyOrder_readBack (f : Field) : SameKeyOrder f f.readBack := by
  induction f with
  | string | number | boolean | null | any | literal | custom => exact .intro rfl .nil
  | array element low high ih => exact .intro rfl (.cons ih .nil)
  | tuple fields ih => exact .intro rfl (forall₂_readBackAll ih)
  | object members ih =>
    have hnames : Member.names members = Member.names (readBackMembers members) := by
      unfold Member.names
      rw [readBackMembers_eq, List.map_map]
      rfl
    have hchildren : ∀ ms : List (Member Field), (∀ m ∈ ms, SameKeyOrder m.field m.field.readBack) →
        List.Forall₂ SameKeyOrder (ms.map Member.field) ((readBackMembers ms).map Member.field) := by
      intro ms
      induction ms with
      | nil => exact fun _ => .nil
      | cons m rest hrest =>
        intro h
        obtain ⟨hm, hmore⟩ := List.forall_mem_cons.mp h
        exact .cons hm (hrest hmore)
    exact .intro (congrArg some hnames) (hchildren members ih)
  | optional inner ih => exact .intro rfl (.cons ih .nil)
  | defaulted inner value ih => exact .intro rfl (.cons ih .nil)
  | union variants discriminant ih => exact .intro rfl (forall₂_readBackAll ih)

/-! ## Comparison -/

variable [Externals]

/-- The comparison finds nothing between a field and what is read back for it. -/
theorem compareAt_readBack {f : Field} (hf : f.Everywhere Documentable) (path : Path) :
    compareAt path f f.readBack = [] := by
  induction f using childInduction generalizing path with
  | h f ih =>
    refine compareAt_of_levelMatches ?_ path
    have hbound : ∀ {a b : Option Number}, FiniteBound a →
        a.map Number.position = b.map Number.position → boundDiffers a b = false :=
      fun ha => boundDiffers_eq_false (realBound_of_finite ha)
    cases f with
    | string low high pattern format =>
      obtain ⟨hlow, hhigh⟩ := hf.here.finite
      exact .string pattern format (hbound hlow rfl) (hbound hhigh rfl)
    | number low high integerOnly =>
      obtain ⟨hlow, hhigh⟩ := hf.here.finite
      obtain ⟨b, rfl⟩ := hf.here.flag
      exact .number (hbound hlow rfl) (hbound hhigh rfl) ⟨sameBy_bool b, rfl⟩
    | boolean => exact .boolean
    | null => exact .null
    | any => exact .any
    | literal value => exact .literal (Scalar.equal_self (checked_literal hf.here.finite))
    | array element low high =>
      obtain ⟨hlow, hhigh⟩ := hf.here.finite
      exact .array (hbound hlow (position_readLeast low high).symm) (hbound hhigh rfl)
        (ih element List.mem_cons_self hf.arrayElement)
    | tuple fields =>
      exact .tuple (forall₂_readBackAll fun g hg => ih g hg (hf.tupleItem hg))
    | object members =>
      refine .object (fun m hm => ?_) fun n hn => ?_
      · refine ⟨⟨m.name, m.required, m.field.readBack⟩, ?_, rfl,
          ih m.field (List.mem_map_of_mem hm) (hf.objectMember hm)⟩
        rw [readBackMembers_eq, Member.find?_map, Member.find?_of_mem hf.here.sound hm]
        rfl
      · rw [← declares_readBack, Member.declares_of_mem hn]
    | optional inner => exact .optional (ih inner List.mem_cons_self hf.optionalInner)
    | defaulted inner value =>
      exact .defaulted (Value.equal_self hf.here.sound.1)
        (ih inner List.mem_cons_self hf.defaultedInner)
    | union variants key =>
      exact .union key (forall₂_readBackAll fun g hg => ih g hg (hf.unionVariant hg))
    | custom check name => exact hf.here.notCustom.elim

end Field
end Lineage
