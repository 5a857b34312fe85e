import Lineage.Format.Email
import Lineage.Proofs.Format.Exclusive
import Lineage.Proofs.Validation.Alike
import Lineage.Proofs.Validation.Leniency
import Lineage.Proofs.Value.Places

/-
Mismatches point at places of the value.

A path grows only by the key of an entry that is there or by the index of an item, so it
leads to something inside the value.  The exception is a required name that is missing: its
path ends in the key that an object lacks.  What stands for an absent member is validated as
well, but nothing is found in it, since a default that passed once passes under all options.
-/

namespace Lineage

/-- A mismatch is at something that is there or, if it says that something required is
missing, at a key that an object which is there lacks. -/
structure Violation.Points (root : Value) (d : Violation) : Prop where
  there : d.kind ≠ .missingRequiredField → ∃ u, root.at? d.path.segments = some u
  lacking : d.kind = .missingRequiredField → ∃ place name entries,
    d.path.segments = place ++ [.key name] ∧ root.at? place = some (.object entries) ∧
      Entries.find? (.text name) entries = none

namespace Value

theorem at?_append (a b : List Segment) (v : Value) :
    v.at? (a ++ b) = (v.at? a).bind (at? b) := by
  induction a generalizing v with
  | nil => rfl
  | cons s rest ih =>
    rw [List.cons_append, at?, at?, Option.bind_assoc]
    exact congrArg _ (funext ih)

/-- A place leads on to a part of the value it leads to. -/
theorem at?_child {root v u : Value} {path : Path} {s : Segment}
    (h : root.at? path.segments = some v) (hu : v.part? s = some u) :
    root.at? (path.child s).segments = some u := by
  show root.at? (path.segments ++ [s]) = some u
  rw [at?_append, h, Option.bind_some, at?, hu]
  rfl

theorem at?_index {root : Value} {path : Path} {items : List Value} {i : Nat} {w : Value}
    (h : root.at? path.segments = some (array items)) (hw : items[i]? = some w) :
    root.at? (path.index i).segments = some w := at?_child h hw

theorem at?_key {root : Value} {path : Path} {entries : List (Key × Value)} {name : String}
    {w : Value} (h : root.at? path.segments = some (object entries))
    (hw : Entries.find? (.text name) entries = some w) :
    root.at? (path.key name).segments = some w := at?_child h hw

end Value

namespace Validation

variable {root v : Value} {path : Path}

abbrev Located (root : Value) (r : Result) : Prop := ThroughoutResult (Violation.Points root) r

theorem points_there {d : Violation} (h : root.at? d.path.segments = some v)
    (hkind : d.kind ≠ .missingRequiredField) : d.Points root :=
  ⟨fun _ => ⟨v, h⟩, fun hmissing => (hkind hmissing).elim⟩

theorem located_nil : Located root (.ok []) := throughoutResult_ok throughout_nil

theorem located_own {r : Result} (hplace : root.at? path.segments = some v)
    (h : OwnResult path r) : Located root r := by
  intro violations hr
  refine throughout_of_single fun d hd => ?_
  obtain ⟨hpath, hnearest, hkind⟩ := h violations hr d hd
  refine ⟨hnearest, points_there (v := v) (by rw [hpath, hplace]) fun hmissing => hkind ?_⟩
  rw [hmissing]
  exact List.mem_cons_self

/-! ## Parts -/

theorem located_each {item : Path → Value → Result} {items : List Value} {index : Nat}
    (h : ∀ i w, items[i]? = some w → Located root (item (path.index (index + i)) w)) :
    Located root (validateEach item path index items) := by
  induction items generalizing index with
  | nil => exact located_nil
  | cons w rest ih =>
    refine ThroughoutResult.append (h 0 w rfl) (ih fun i u hu => ?_)
    rw [Nat.add_right_comm, Nat.add_assoc]
    exact h (i + 1) u hu

theorem located_missingMember {name : String} {entries : List (Key × Value)}
    (hplace : root.at? path.segments = some (.object entries))
    (hlacks : Entries.find? (.text name) entries = none) :
    Located root (.ok (missingMember path name)) :=
  throughoutResult_ok (throughout_violation
    ⟨fun hkind => (hkind rfl).elim, fun _ => ⟨path.segments, name, entries, rfl, hplace, hlacks⟩⟩)

theorem located_undeclared {members : List (Member Field)} {entries : List (Key × Value)}
    (h : ∀ e ∈ entries, ∃ name u, e.1 = .text name ∧ root.at? (path.key name).segments = some u) :
    Located root (undeclared members path entries) := by
  induction entries with
  | nil => exact located_nil
  | cons e rest ih =>
    obtain ⟨⟨name, u, hname, hu⟩, hrest⟩ := List.forall_mem_cons.mp h
    obtain ⟨key, w⟩ := e
    obtain rfl : key = .text name := hname
    unfold undeclared
    split
    · exact ih hrest
    · intro vs hvs
      obtain ⟨here, hhere, hvs⟩ := Outcome.bind_eq_ok.mp hvs
      obtain ⟨later, hlater, hvs⟩ := Outcome.bind_eq_ok.mp hvs
      cases hhere
      cases hvs
      refine Throughout.append (throughout_violation ?_) (ih hrest later hlater)
      exact points_there hu (show Violation.Kind.unexpectedField ≠ _ by decide)

theorem throughout_judgeUnion {unambiguous : Bool} {results : List (List Violation)}
    (hplace : root.at? path.segments = some v)
    (h : ∀ r ∈ results, Throughout (Violation.Points root) r) :
    Throughout (Violation.Points root) (judgeUnion unambiguous path results) := by
  unfold judgeUnion
  split
  · intro d hd e he
    obtain rfl := List.mem_singleton.mp hd
    cases he with
    | here => exact points_there hplace (show Violation.Kind.unionNoMatch ≠ _ by decide)
    | nearest hu he => exact throughout_nearest h _ hu e he
  · exact throughout_nil
  · cases unambiguous with
    | false => exact throughout_nil
    | true =>
      exact throughout_violation
        (points_there hplace (show Violation.Kind.unionAmbiguous ≠ _ by decide))

end Validation

namespace Field

open Validation

variable {o : Options} {root v : Value} {path : Path}

section

variable [Externals]

theorem located_items {fields : List Field} {items : List Value} {index : Nat}
    (h : ∀ f ∈ fields, ∀ i w, items[i]? = some w →
      Located root (f.validate o (path.index (index + i)) w)) :
    Located root (validateItems o fields path index items) := by
  induction fields generalizing index items with
  | nil => exact located_nil
  | cons f rest ih =>
    cases items with
    | nil => exact located_nil
    | cons w more =>
      obtain ⟨hf, hrest⟩ := List.forall_mem_cons.mp h
      refine ThroughoutResult.append (hf 0 w rfl) (ih fun g hg i u hu => ?_)
      rw [Nat.add_right_comm, Nat.add_assoc]
      exact hrest g hg (i + 1) u hu

/-- Where nothing is there and that is accepted, nothing is found: a default has passed. -/
theorem validate_absent (hexclusive : Format.Exclusive) {f : Field} (hf : f.Everywhere Analysable)
    (habsence : f.acceptsAbsence = true) : f.validate o path .missing = .ok [] := by
  cases f with
  | optional inner => rfl
  | defaulted inner value =>
    have hpassed : inner.validate {} path value = .ok [] :=
      (validate_elsewhere inner value .root path).mp hf.here.sound.2
    rw [validate_defaulted]
    exact accepts_of_laxer hexclusive hf.defaultedInner (.inr hf.here.checkedDefault)
      (fun _ => rfl) hpassed
  | _ => cases habsence

theorem located_member (hexclusive : Format.Exclusive) {m : Member Field}
    {entries : List (Key × Value)} (hplace : root.at? path.segments = some (.object entries))
    (hm : m.field.Everywhere Analysable)
    (h : ∀ w, Entries.find? (.text m.name) entries = some w →
      Located root (m.field.validate o (path.key m.name) w)) :
    Located root (validateMember o path entries m) := by
  unfold validateMember
  split
  · next w hw => exact h w hw
  · next hlacks =>
    split
    · exact located_missingMember hplace hlacks
    · split
      · next habsence =>
        rw [validate_absent hexclusive hm habsence]
        exact located_nil
      · exact located_nil

theorem located_members {members : List (Member Field)} {entries : List (Key × Value)}
    (h : ∀ m ∈ members, Located root (validateMember o path entries m)) :
    Located root (validateMembers o members path entries) := by
  induction members with
  | nil => exact located_nil
  | cons m rest ih =>
    obtain ⟨hm, hrest⟩ := List.forall_mem_cons.mp h
    rw [validateMembers_cons]
    exact hm.append (ih hrest)

/-! ## Whole trees -/

/-- What is found in the value at a place points at places of the whole. -/
theorem located_validate (hexclusive : Format.Exclusive) {f : Field} (hf : f.Everywhere Analysable)
    (hv : v.Checked) (hplace : root.at? path.segments = some v) :
    Located root (f.validate o path v) := by
  induction f generalizing v path with
  | string | number | boolean | null | any | literal | custom =>
    exact located_own hplace (own_validate trivial hv.ne_missing)
  | array element low high ih =>
    rw [validate_array]
    split
    · exact (hv.ne_missing rfl).elim
    · next items =>
      refine (located_own hplace own_validateItemCount).append (located_each fun i w hw => ?_)
      rw [Nat.zero_add]
      have hw' := Value.checked_array.mp hv w (List.mem_of_getElem? hw)
      exact ih hf.arrayElement hw' (Value.at?_index hplace hw)
    · exact located_own hplace own_typeMismatch
  | tuple fields ih =>
    rw [validate_tuple]
    split
    · exact (hv.ne_missing rfl).elim
    · next items =>
      split
      · refine located_items fun f hmem i w hw => ?_
        rw [Nat.zero_add]
        have hw' := Value.checked_array.mp hv w (List.mem_of_getElem? hw)
        exact ih f hmem (hf.tupleItem hmem) hw' (Value.at?_index hplace hw)
      · exact located_own hplace (ownResult_ok (own_violation (by decide)))
    · exact located_own hplace own_typeMismatch
  | object members ih =>
    cases v with
    | object entries =>
      rw [validate_object_entries]
      refine ThroughoutResult.append (located_members fun m hm => ?_) ?_
      · exact located_member hexclusive hplace (hf.objectMember hm) fun w hw =>
          ih m hm (hf.objectMember hm) (hv.find? hw) (Value.at?_key hplace hw)
      · unfold undeclaredIf
        split
        · refine located_undeclared fun e he => ?_
          obtain ⟨name, hname⟩ := (Value.checked_object.mp hv e he).1
          obtain ⟨u, hu⟩ := Option.ne_none_iff_exists'.mp fun hlacks =>
            Entries.find?_eq_none.mp hlacks e he hname
          exact ⟨name, u, hname, Value.at?_key hplace hu⟩
        · exact located_nil
    | missing => exact (hv.ne_missing rfl).elim
    | _ => exact located_own hplace own_typeMismatch
  | optional inner ih =>
    rw [validate_optional]
    split
    · exact located_nil
    · exact located_nil
    · exact ih hf.optionalInner hv hplace
  | defaulted inner value ih =>
    rw [validate_defaulted]
    split
    · exact (hv.ne_missing rfl).elim
    · exact ih hf.defaultedInner hv hplace
  | union variants discriminant ih =>
    rw [validate_union]
    split
    · exact (hv.ne_missing rfl).elim
    · cases discriminant with
      | none =>
        intro vs hvs
        obtain ⟨results, hresults, hvs⟩ := Outcome.bind_eq_ok.mp hvs
        cases hvs
        refine throughout_judgeUnion hplace fun r hr => ?_
        obtain ⟨f, hmem, hfr⟩ := Alongside.exists_left (validateVariants_eq_ok.mp hresults) hr
        exact ih f hmem (hf.unionVariant hmem) hv hplace r hfr
      | some key =>
        have hlost : Located root (.ok (noDiscriminant path key)) :=
          located_own hplace (ownResult_ok (own_violation (by decide)))
        simp only
        split
        · split
          · next tag htag =>
            rw [validateTagged_eq]
            split
            · next f hfind =>
              have hmem := List.mem_of_find?_eq_some hfind
              exact ih f hmem (hf.unionVariant hmem) hv hplace
            · exact located_own (Value.at?_key hplace htag)
                (ownResult_ok (own_violation (by decide)))
          · exact hlost
        · exact hlost

/-- Whatever the options, validation of a JSON value gives a result, and every mismatch in it,
those of nearest variants included, is at a place inside the value or at a key that an object
inside it lacks. -/
theorem violations_point_inside (hexclusive : Format.Exclusive) {f : Field} (hf : f.Constructed)
    (hcustom : f.Everywhere NotCustom) (htypes : f.Everywhere HasDeclaredTypes)
    (hreal : f.Everywhere HasRealBounds) {v : Value} (hv : v.Checked) (o : Options) :
    ∃ violations, f.check o v = .ok violations ∧
      ∀ d ∈ violations, ∀ e, Violation.Nested e d → e.Points v := by
  have hanswerable : f.Everywhere Answerable :=
    hf.answerable hcustom (htypes.imp fun _ => HasDeclaredTypes.textPattern)
      (htypes.imp fun _ => HasDeclaredTypes.leastCount)
  obtain ⟨violations, hvs⟩ : (f.check o v).Returns := validate_answers hanswerable (.inr hv.kinded)
  exact ⟨violations, hvs,
    located_validate hexclusive (hf.analysable hcustom hreal) hv rfl violations hvs⟩

end

/-- An object without its required name, at the start of an array. -/
theorem violations_point_inside_item :
    let f : Field := .tuple [.object [⟨"n", true, .null⟩]]
    let v : Value := .array [.object []]
    v.Checked ∧ f.check {} v = .ok [violation ⟨[.index 0, .key "n"]⟩ .missingRequiredField
        "required field 'n' is missing"] ∧
      ∃ violations, f.check {} v = .ok violations ∧
        ∀ d ∈ violations, ∀ e, Violation.Nested e d → e.Points v := by
  intro f v
  have hv : v.Checked := rfl
  have hitem : (Field.object [⟨"n", true, .null⟩]).Constructed :=
    @Constructed.object _ [(.text "n", .null)] .null _ (List.forall_mem_singleton.mpr .null) rfl
  have hf : f.Constructed := .tuple (List.forall_mem_singleton.mpr hitem) rfl
  have heverywhere : ∀ {P : Field → Prop}, P f → P (.object [⟨"n", true, .null⟩]) → P .null →
      f.Everywhere P := fun hf hitem hnull =>
    everywhere_of hf (List.forall_mem_singleton.mpr
      (everywhere_of hitem (List.forall_mem_singleton.mpr (everywhere_leaf hnull rfl))))
  exact ⟨hv, rfl, violations_point_inside Email.exclusive hf (heverywhere trivial trivial trivial)
    (heverywhere trivial trivial trivial) (heverywhere trivial trivial trivial) hv {}⟩

end Field
end Lineage
