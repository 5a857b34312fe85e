import Lineage.Proofs.Change.Walk
import Lineage.Proofs.Field.Typed

/-
Changes walk over what a document leaves out.

Where objects omit only what accepts absence, a document that conforms to a field tree has
a place for every segment of a path that the tree has, or may pass it over.  So a change
that can be made to the field tree is refused for the document, if at all, by what stands at
the end of its path.
-/

namespace Lineage

namespace Outcome

variable {α β : Type}

/-- If a step is refused, then by an author function. -/
def Unhindered (x : Outcome α) : Prop := ∀ e, x = .error (.step e) → e.kind = .converterFailed

theorem unhindered_ok (a : α) : Unhindered (.ok a) := nofun

theorem Unhindered.bind {x : Outcome α} {next : α → Outcome β} (hx : x.Unhindered)
    (hnext : ∀ a, x = .ok a → (next a).Unhindered) : (x >>= next).Unhindered := by
  cases x with
  | ok a => exact hnext a rfl
  | error e =>
    intro f hf
    cases hf
    exact hx f rfl

theorem unhindered_mapError {ε : Type} {x : Except ε α} {toError : ε → Error}
    (h : ∀ e f, toError e ≠ .step f) : Unhindered (x.mapError toError) := by
  cases x with
  | ok a => exact unhindered_ok a
  | error e =>
    intro f hf
    exact absurd (Except.error.inj hf) (h e f)

end Outcome

namespace Field

open Validation

variable [Externals]

/-- A value about which strict validation finds nothing, at some place. -/
def Conforms (f : Field) (v : Value) : Prop :=
  ∃ (o : Options) (path : Path), o.strict = true ∧ f.validate o path v = .ok []

variable {f : Field} {v : Value} {members : List (Member Field)} {entries : List (Key × Value)}
variable {name : String} {m : Member Field}

/-- Inside wrappers a value that is not null conforms to the field itself. -/
theorem Conforms.unwrapped (h : f.Conforms v) (hv : v.Checked)
    (hskipped : Change.isSkipped (some f) v = false) : f.unwrapped.Conforms v := by
  obtain ⟨o, path, hstrict, hvalid⟩ := h
  refine ⟨o, path, hstrict, ?_⟩
  have hinner : ∀ g : Field, v ≠ .null → g.validate o path v = .ok [] →
      g.unwrapped.validate o path v = .ok [] := by
    intro g hnull hg
    induction g with
    | optional inner ih =>
      exact ih (((validate_optional_eq_nil hv.ne_missing).mp hg).resolve_left hnull)
    | defaulted inner value ih =>
      rw [validate_defaulted_present hv.ne_missing] at hg
      exact ih hg
    | _ => exact hg
  cases habsence : f.acceptsAbsence with
  | false => rwa [unwrapped_of_not_acceptsAbsence habsence]
  | true =>
    refine hinner f ?_ hvalid
    rintro rfl
    exact absurd (habsence.symm.trans hskipped) nofun

/-- An object of entries whose names are all declared, each declared name being there unless
it accepts absence. -/
structure Covers (members : List (Member Field)) (entries : List (Key × Value)) : Prop where
  undeclared : ∀ name, Member.find? name members = none →
    Entries.find? (.text name) entries = none
  omitted : ∀ name m, Member.find? name members = some m →
    Entries.find? (.text name) entries = none → m.field.acceptsAbsence = true

/-- An object that conforms has no entries but under names that are declared, and they conform. -/
theorem conforms_entries (h : (object members).Conforms v) : ∃ entries, v = .object entries ∧
    (∀ name, Member.find? name members = none → Entries.find? (.text name) entries = none) ∧
      ∀ name m u, Member.find? name members = some m →
        Entries.find? (.text name) entries = some u → m.field.Conforms u := by
  obtain ⟨o, path, hstrict, hvalid⟩ := h
  obtain ⟨entries, rfl, hmembers, hdeclared⟩ := validate_object_eq_nil.mp hvalid
  refine ⟨entries, rfl, fun name hnone => ?_, fun name m u hm hu => ?_⟩
  · refine Entries.find?_eq_none.mpr fun e he hkey => ?_
    have hdeclares := hdeclared hstrict e he
    rw [hkey, isDeclared_text, Member.declares, hnone] at hdeclares
    cases hdeclares
  · have hmember := hmembers m (Member.mem_of_find? hm)
    obtain rfl := Member.name_of_find? hm
    unfold validateMember at hmember
    rw [hu] at hmember
    exact ⟨o, _, hstrict, hmember⟩

theorem conforms_object (homits : OmitsOnlyAbsent (.object members))
    (h : (object members).Conforms v) : ∃ entries, v = .object entries ∧ Covers members entries ∧
      ∀ name m u, Member.find? name members = some m →
        Entries.find? (.text name) entries = some u → m.field.Conforms u := by
  obtain ⟨entries, rfl, hundeclared, hparts⟩ := conforms_entries h
  refine ⟨entries, rfl, ⟨hundeclared, fun name m hm habsent => ?_⟩, hparts⟩
  obtain ⟨o, path, -, hvalid⟩ := h
  obtain ⟨_, ⟨⟩, hmembers, -⟩ := validate_object_eq_nil.mp hvalid
  have hmember := hmembers m (Member.mem_of_find? hm)
  obtain rfl := Member.name_of_find? hm
  unfold validateMember at hmember
  rw [habsent] at hmember
  cases hrequired : m.required with
  | false => exact homits m (Member.mem_of_find? hm) hrequired
  | true =>
    rw [hrequired] at hmember
    cases hmember

theorem conforms_array {element : Field} {low high : Option Number}
    (h : (array element low high).Conforms v) :
    ∃ items, v = .array items ∧ ∀ u ∈ items, element.Conforms u := by
  obtain ⟨o, path, hstrict, hvalid⟩ := h
  obtain ⟨items, rfl, -, hitems⟩ := validate_array_eq_nil.mp hvalid
  refine ⟨items, rfl, fun u hu => ?_⟩
  obtain ⟨q, hq⟩ := exists_of_validateEach hitems u hu
  exact ⟨o, q, hstrict, hq⟩

theorem conforms_tuple {fields : List Field} (h : (tuple fields).Conforms v) :
    ∃ items, v = .array items ∧ List.Forall₂ Conforms fields items := by
  obtain ⟨o, path, hstrict, hvalid⟩ := h
  obtain ⟨items, rfl, hlength, hitems⟩ := validate_tuple_eq_nil.mp hvalid
  refine ⟨items, rfl, (forall₂_of_validateItems hlength hitems).imp fun f u hu => ?_⟩
  obtain ⟨q, hq⟩ := hu
  exact ⟨o, q, hstrict, hq⟩

end Field

namespace Change

open Lineage.Field

variable {c : Change} {segment : Segment} {segments rest : List Segment} {f f' : Field}
variable {path : Path} {v : Value}

variable [Externals]

/-- What is asked of a change at the end of its path: if it can be made to the field there,
no value that conforms to that field keeps it from being made. -/
def Unhindered (c : Change) : Prop :=
  ∀ f place f', f.Sound → f.Everywhere OmitsOnlyAbsent → c.onField f place = .ok f' →
    ∀ v at_, v.Checked → f.Conforms v → (c.onValue v (some f) at_).Unhindered

/-! ## Parts of containers -/

omit [Externals] in
theorem updateEach_unhindered {α : Type} {update : Nat → α → Outcome α} {index : Nat}
    {as : List α} (h : ∀ i a, as[i]? = some a → (update (index + i) a).Unhindered) :
    (updateEach update index as).Unhindered := by
  induction as generalizing index with
  | nil => exact Outcome.unhindered_ok _
  | cons a rest ih =>
    refine Outcome.Unhindered.bind (h 0 a rfl) fun _ _ => ?_
    refine Outcome.Unhindered.bind (ih fun i b hb => ?_) fun _ _ => Outcome.unhindered_ok _
    rw [Nat.add_assoc, Nat.add_comm 1 i]
    exact h (i + 1) b hb

omit [Externals] in
theorem updateItem_unhindered {α : Type} {update : α → Outcome α} {i : Nat} {as : List α}
    (h : ∀ a, as[i]? = some a → (update a).Unhindered) : (updateItem update i as).Unhindered := by
  induction as generalizing i with
  | nil =>
    cases i with
    | zero => exact Outcome.unhindered_ok []
    | succ i => exact Outcome.unhindered_ok []
  | cons a rest ih =>
    cases i with
    | zero => exact Outcome.Unhindered.bind (h a rfl) fun _ _ => Outcome.unhindered_ok _
    | succ i => exact Outcome.Unhindered.bind (ih h) fun _ _ => Outcome.unhindered_ok _

/-! ## One segment down -/

/-- What is known of the fields that a segment selects, at the values there. -/
def UnhinderedAt (c : Change) (rest : List Segment) (f : Field) : Prop :=
  (∃ place f', c.onFieldAt rest place f = .ok f') →
    ∀ v at_, v.Checked → f.Conforms v → (c.onValueAt rest (some f) at_ v).Unhindered

/-- One segment down a field without wrappers. -/
theorem descend_unhindered (homits : f.Everywhere OmitsOnlyAbsent) (hbare : f.unwrapped = f)
    (hchild : ∀ g ∈ f.inside segment, c.UnhinderedAt rest g)
    (h : descend (fun place child => c.onFieldAt rest place child) segment path f = .ok f')
    (hv : v.Checked) (hconforms : f.Conforms v) (at_ : Path) :
    (c.onValueAt (segment :: rest) (some f) at_ v).Unhindered := by
  cases descend_eq_ok.mp h with
  | @member members m child hm hchanged =>
    obtain ⟨entries, rfl, hcovers, hmembers⟩ := conforms_object homits.here hconforms
    cases hentry : Entries.find? (.text segment.text) entries with
    | some u =>
      rw [onValueAt_present hm hentry]
      refine Outcome.Unhindered.bind ?_ fun _ _ => Outcome.unhindered_ok _
      exact hchild m.field (mem_inside_object hm) ⟨_, child, hchanged⟩ u _ (hv.find? hentry)
        (hmembers _ m u hm hentry)
    | none =>
      rw [onValueAt_absent hm hentry (hcovers.omitted _ m hm hentry)]
      exact Outcome.unhindered_ok _
  | @element element child low high hsegment hchanged =>
    subst hsegment
    obtain ⟨items, rfl, hitems⟩ := conforms_array hconforms
    rw [onValueAt_wildcard rfl]
    refine Outcome.Unhindered.bind (updateEach_unhindered fun i u hu => ?_)
      fun _ _ => Outcome.unhindered_ok _
    have hmem := List.mem_of_getElem? hu
    exact hchild element (List.mem_singleton.mpr rfl) ⟨_, child, hchanged⟩ u _
      (Value.checked_array.mp hv u hmem) (hitems u hmem)
  | @items fields fields' hsegment hlength hchanged =>
    subst hsegment
    obtain ⟨items, rfl, hitems⟩ := conforms_tuple hconforms
    rw [onValueAt_wildcard rfl]
    refine Outcome.Unhindered.bind (updateEach_unhindered fun i u hu => ?_)
      fun _ _ => Outcome.unhindered_ok _
    obtain ⟨g, hg, hconformsItem⟩ := Alongside.getElem?_right hitems.flip hu
    have hfield : itemField (some (.tuple fields)) (0 + i) = some g := by
      rw [Nat.zero_add]
      exact hg
    have hmem := List.mem_of_getElem? hg
    obtain ⟨g', hg'⟩ : ∃ g', fields'[i]? = some g' :=
      ⟨_, List.getElem?_eq_getElem (hlength ▸ (List.getElem?_eq_some_iff.mp hg).1)⟩
    rw [hfield]
    exact hchild g hmem ⟨_, g', hchanged i g g' hg hg'⟩ u _
      (Value.checked_array.mp hv u (List.mem_of_getElem? hu))
      hconformsItem
  | @item fields i g g' hsegment hi hg hg' =>
    obtain ⟨items, rfl, hitems⟩ := conforms_tuple hconforms
    have hfield : itemField (some (.tuple fields)) i = some g := hg
    rw [onValueAt_item rfl hsegment (hitems.length_eq ▸ hi), hfield]
    refine Outcome.Unhindered.bind (updateItem_unhindered fun u hu => ?_)
      fun _ _ => Outcome.unhindered_ok _
    obtain ⟨u', hu', hconformsItem⟩ := Alongside.getElem?_right hitems hg
    obtain rfl : u' = u := Option.some.inj (hu'.symm.trans hu)
    exact hchild g (mem_inside_tuple hsegment hi hg) ⟨_, g', hg'⟩ u' _
      (Value.checked_array.mp hv u' (List.mem_of_getElem? hu)) hconformsItem

/-! ## Whole paths -/

/-- A change that can be made to a field tree is not kept from a document that conforms to
it by anything on the way. -/
theorem onValueAt_unhindered (hc : c.Unhindered) (hf : f.Sound)
    (homits : f.Everywhere OmitsOnlyAbsent) : c.UnhinderedAt segments f := by
  induction segments generalizing f with
  | nil =>
    rintro ⟨place, f', h⟩ v at_ hv hconforms
    unfold onFieldAt at h
    unfold onValueAt
    cases hthrough : c.through with
    | false =>
      rw [hthrough, if_neg Bool.false_ne_true] at h
      exact hc f place f' hf homits h v at_ hv hconforms
    | true =>
      rw [hthrough, if_pos rfl] at h
      obtain ⟨u, hu, -⟩ := core_of_throughWrappers h
      cases hskipped : isSkipped (some f) v with
      | true => exact Outcome.unhindered_ok _
      | false =>
        exact hc f.unwrapped place u hf.unwrapped homits.unwrapped hu v at_ hv
          (hconforms.unwrapped hv hskipped)
  | cons segment rest ih =>
    rintro ⟨place, f', h⟩ v at_ hv hconforms
    have hlook : c.LooksThrough (segment :: rest) := .inl (List.cons_ne_nil _ _)
    obtain ⟨u, hu, -⟩ := core_of_throughWrappers h
    cases hskipped : isSkipped (some f) v with
    | true =>
      rw [onValueAt_of_skipped hlook hskipped]
      exact Outcome.unhindered_ok _
    | false =>
      rw [onValueAt_unwrapped hlook hskipped]
      refine descend_unhindered homits.unwrapped (unwrapped_unwrapped f) (fun g hg => ?_) hu hv
        (hconforms.unwrapped hv hskipped) at_
      have hg := child_of_mem_inside hg
      exact ih (hf.unwrapped.child hg) (homits.unwrapped.child hg)

end Change
end Lineage
