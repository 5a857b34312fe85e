import Lineage.Format.Email
import Lineage.Proofs.Validation.Undrifted

/-
Equal values are validated alike.

On JSON values structural equality always has an answer and is an equivalence.  It
identifies numbers of one value and objects with their keys in another order, and no
validator looks at more of a number than its value or at the order of keys.  The one
exception is a number as a tag, which is looked up by its type as well.
-/

namespace Lineage
namespace Value

/-! ## Equality has an answer -/

/-- Two values are found to be equal or to differ. -/
def Compared (v w : Value) : Prop := ∃ same, v.equal w = .ok same

theorem compared_items {items others : List Value}
    (h : ∀ v ∈ items, ∀ w ∈ others, Compared v w) : ∃ same, equalItems items others = .ok same := by
  induction items generalizing others with
  | nil => exact ⟨true, by cases others <;> rfl⟩
  | cons v rest ih =>
    cases others with
    | nil => exact ⟨true, rfl⟩
    | cons w more =>
      obtain ⟨same, hvw⟩ := h v List.mem_cons_self w List.mem_cons_self
      rw [equalItems, hvw]
      cases same with
      | false => exact ⟨false, rfl⟩
      | true =>
        exact ih fun a ha b hb => h a (List.mem_cons_of_mem _ ha) b (List.mem_cons_of_mem _ hb)

theorem compared_entries {entries others : List (Key × Value)}
    (h : ∀ e ∈ entries, ∀ w, Entries.find? e.1 others = some w → Compared e.2 w) :
    ∃ same, equalEntries entries others = .ok same := by
  induction entries with
  | nil => exact ⟨true, rfl⟩
  | cons e rest ih =>
    obtain ⟨hfirst, hrest⟩ := List.forall_mem_cons.mp h
    rw [equalEntries]
    cases hw : Entries.find? e.1 others with
    | none => exact ⟨false, rfl⟩
    | some w =>
      obtain ⟨same, hvw⟩ := hfirst w hw
      simp only [hvw]
      cases same with
      | false => exact ⟨false, rfl⟩
      | true => exact ih hrest

theorem compared {v w : Value} (hv : v.Checked) (hw : w.Checked) : Compared v w := by
  induction v using treeInduction generalizing w with
  | scalar a =>
    cases w with
    | scalar | array | object => exact ⟨_, rfl⟩
    | _ => cases hw
  | array items ih =>
    cases w with
    | array others =>
      unfold Compared
      rw [equal]
      split
      · exact compared_items fun a ha b hb =>
          ih a ha (checked_array.mp hv a ha) (checked_array.mp hw b hb)
      · exact ⟨false, rfl⟩
    | scalar | object => exact ⟨_, rfl⟩
    | _ => cases hw
  | object entries ih =>
    cases w with
    | object others =>
      unfold Compared
      rw [equal]
      split
      · refine compared_entries fun e he u hu => ?_
        obtain ⟨⟨name, hname⟩, hvalue⟩ := checked_object.mp hv e he
        rw [hname] at hu
        exact ih e he hvalue (hw.find? hu)
      · exact ⟨false, rfl⟩
    | scalar | array => exact ⟨_, rfl⟩
    | _ => cases hw
  | _ => cases hv

/-- Which of two JSON values is compared with which makes no difference. -/
theorem equal_comm {v w : Value} (hv : v.IsJson) (hw : w.IsJson) : v.equal w = w.equal v := by
  obtain ⟨a, ha⟩ := compared hv.checked hw.checked
  obtain ⟨b, hb⟩ := compared hw.checked hv.checked
  have hsame : a = true ↔ b = true := by
    constructor
    · rintro rfl
      exact Except.ok.inj (hb.symm.trans (equal_symm hv.distinct hw.distinct ha))
    · rintro rfl
      exact Except.ok.inj (ha.symm.trans (equal_symm hw.distinct hv.distinct hb))
  rw [ha, hb, Bool.eq_iff_iff.mpr hsame]

theorem equal_of_perm {es ds : List (Key × Value)} (h : (object es).IsJson) (hperm : es.Perm ds) :
    (object es).equal (object ds) = .ok true := by
  obtain ⟨hdistinct, hentries⟩ := isJson_object.mp h
  have hothers : Entries.Distinct ds := by
    refine (hperm.pairwise_iff ?_).mp hdistinct
    intro a b hab
    rw [Key.same_comm, hab]
  refine equal_object.mpr ⟨hperm.length_eq, fun e he => ?_⟩
  obtain ⟨⟨name, hname⟩, hvalue⟩ := hentries e he
  refine ⟨e.2, ?_, equal_self hvalue⟩
  rw [hname]
  exact Entries.find?_of_mem hothers (hname ▸ hperm.mem_iff.mp he)

end Value

namespace Field

open Validation

/-! ## Validation respects equality -/

section

variable [Externals]

/-- A field beside itself, of which validation asks nothing that could tell equal values
apart. -/
def Respects (f g : Field) : Prop := f = g ∧ f.Everywhere Comparable

theorem respects_all {fs : List Field} (h : ∀ f ∈ fs, f.Everywhere Comparable) :
    List.Forall₂ Respects fs fs :=
  List.forall₂_same.mpr fun f hf => ⟨rfl, h f hf⟩

theorem Respects.parts {f g : Field} (h : Respects f g) : PartsAlike Respects Value.Same f g := by
  obtain ⟨rfl, hf⟩ := h
  cases f with
  | string => exact .string rfl rfl
  | number => exact .number rfl rfl rfl
  | boolean => exact .boolean
  | null => exact .null
  | any => exact .any
  | literal value => exact .literal (.refl value)
  | array => exact .array ⟨rfl, hf.arrayElement⟩ rfl rfl
  | tuple items => exact .tuple (respects_all fun g hg => hf.tupleItem hg)
  | object members =>
    have hmember : ∀ m ∈ members, ∃ n ∈ members, m.name = n.name ∧ m.required = n.required ∧
        Respects m.field n.field := fun m hm => ⟨m, hm, rfl, rfl, rfl, hf.objectMember hm⟩
    exact .object ⟨hmember, fun m hm => ⟨m, hm, rfl, rfl, rfl, hf.objectMember hm⟩⟩
  | optional => exact .optional ⟨rfl, hf.optionalInner⟩
  | defaulted => exact .defaulted ⟨rfl, hf.defaultedInner⟩ (Value.same_self hf.here.sound.1)
  | union variants discriminant =>
    have hsides := respects_all fun g hg => hf.unionVariant hg
    cases discriminant with
    | none => exact .union hsides
    | some key =>
      have htags : TagsDistinct key variants := hf.here.sound.2
      refine .tagged hsides fun v w hvw => ?_
      refine Alongside.findIdx?_congr hsides ?_
      rintro k hk _ - ⟨rfl, -⟩
      obtain ⟨a, ha⟩ := htags.tagged k hk
      exact hasTag_of_same ha (fun n hn => hf.here.plainTags k hk n (hn ▸ ha)) hvw
  | custom => exact hf.here.notCustom.elim

/-- Structural equality of JSON values always has an answer and is an equivalence, under
which the order of keys and the spelling of numbers do not count and truth values are no
numbers.  A constructed field without custom checks and without numbers as tags accepts a
JSON value exactly when it accepts every equal one, under all options. -/
theorem equality_respected :
    (∀ v : Value, v.IsJson → v.equal v = .ok true) ∧
    (∀ v w : Value, v.IsJson → w.IsJson →
      (∃ same, v.equal w = .ok same) ∧ v.equal w = w.equal v) ∧
    (∀ u v w : Value, u.IsJson → v.IsJson → w.IsJson →
      u.equal v = .ok true → v.equal w = .ok true → u.equal w = .ok true) ∧
    (∀ es ds : List (Key × Value), (Value.object es).IsJson → es.Perm ds →
      (Value.object es).equal (.object ds) = .ok true) ∧
    (∀ m n : Number, (Value.number m).equal (.number n) = .ok true ↔
      ∃ p, m.position = some p ∧ n.position = some p) ∧
    (∀ (b : Bool) (n : Number), (Value.bool b).equal (.number n) = .ok false ∧
      (Value.number n).equal (.bool b) = .ok false) ∧
    ∀ f : Field, f.Constructed → f.Everywhere NotCustom → f.Everywhere HasPlainTags →
      ∀ v w : Value, v.IsJson → w.IsJson → v.equal w = .ok true → ∀ (o : Options) (path : Path),
        f.validate o path v = .ok [] ↔ f.validate o path w = .ok [] := by
  refine ⟨fun v hv => Value.equal_self hv,
    fun v w hv hw => ⟨Value.compared hv.checked hw.checked, Value.equal_comm hv hw⟩,
    fun u v w _ _ _ huv hvw => Value.equal_trans huv hvw,
    fun es ds hes hperm => Value.equal_of_perm hes hperm, fun m n => ?_,
    fun b n => ⟨rfl, rfl⟩, fun f hf hcustom htags v w hv hw hvw o path => ?_⟩
  · rw [← Number.same_iff]
    exact ⟨Except.ok.inj, congrArg Except.ok⟩
  · have hrespects : Respects f f :=
      ⟨rfl, fun k hk => ⟨hcustom k hk, hf.sound k hk, htags k hk⟩⟩
    have hagree : Validation.Agree (f.validate o path v) (f.validate o path w) :=
      validate_agree Value.correspondence_same (fun _ _ => Respects.parts) hrespects
        (.json hv hw hvw)
    exact (agree_iff.mp hagree).2

end

/-- A whole number of at least one, and two objects with their keys in different order of
which the second spells it `1.0`. -/
theorem equality_respected_spelled :
    let one : Number := .float (.units (1 * unitsPerOne))
    let f : Field := .object [⟨"a", true, .number (some (.int 1)) none (.bool true)⟩,
      ⟨"b", true, .any⟩]
    let v : Value := .object [(.text "a", .int 1), (.text "b", .null)]
    let w : Value := .object [(.text "b", .null), (.text "a", .number one)]
    v.equal v = .ok true ∧ v.equal w = w.equal v ∧ v.equal w = .ok true ∧
      (f.check {} v = .ok [] ↔ f.check {} w = .ok []) := by
  intro one f v w
  have hdistinct : ∀ {a b : String} {x y : Value}, a ≠ b →
      Entries.Distinct [(Key.text a, x), (Key.text b, y)] := fun hne =>
    List.pairwise_cons.mpr ⟨List.forall_mem_singleton.mpr (by simpa using hne),
      List.pairwise_singleton _ _⟩
  have hv : v.IsJson := Value.isJson_object.mpr ⟨hdistinct (by decide), List.forall_mem_cons.mpr
    ⟨⟨⟨"a", rfl⟩, rfl, .scalar _⟩, List.forall_mem_singleton.mpr ⟨⟨"b", rfl⟩, rfl, .scalar _⟩⟩⟩
  have hw : w.IsJson := Value.isJson_object.mpr ⟨hdistinct (by decide), List.forall_mem_cons.mpr
    ⟨⟨⟨"b", rfl⟩, rfl, .scalar _⟩, List.forall_mem_singleton.mpr ⟨⟨"a", rfl⟩, rfl, .scalar _⟩⟩⟩
  obtain ⟨hrefl, hcomm, htrans, hperm, hnumber, -, hrespects⟩ := equality_respected
  have hone : (Value.int 1).equal (.number one) = .ok true := (hnumber _ _).mpr ⟨_, rfl, rfl⟩
  have hvw : v.equal w = .ok true := Value.equal_object.mpr ⟨rfl, List.forall_mem_cons.mpr
    ⟨⟨_, rfl, hone⟩, List.forall_mem_singleton.mpr ⟨_, rfl, rfl⟩⟩⟩
  have hf : f.Constructed :=
    @Constructed.object _ [(.text "a", .number (some (.int 1)) none (.bool true)), (.text "b", .any)]
      .null _ (List.forall_mem_cons.mpr ⟨@Constructed.number _ (.int 1) .null (.bool true) _ rfl,
        List.forall_mem_singleton.mpr .any⟩) rfl
  have hall : ∀ {P : Field → Prop}, P f → P (.number (some (.int 1)) none (.bool true)) →
      P .any → f.Everywhere P := fun hP hnumber hany => everywhere_object hP
    (List.forall_mem_cons.mpr ⟨everywhere_leaf hnumber rfl,
      List.forall_mem_singleton.mpr (everywhere_leaf hany rfl)⟩)
  exact ⟨hrefl v hv, (hcomm v w hv hw).2, hvw, hrespects f hf (hall trivial trivial trivial)
    (hall trivial trivial trivial) v w hv hw hvw {} .root⟩

end Field
end Lineage
