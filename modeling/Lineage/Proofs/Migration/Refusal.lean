import Lineage.Proofs.Migration.Progress
import Lineage.Proofs.Step.Safety

/-
What a migration is refused for.

Validation, author functions, steps and the changes under them fail with errors of their
own, none of which is an error of a migration as a whole.  So a fold of steps fails as a
migration at a step only, and a source mismatch comes from the check of the source and from
nowhere else.
-/

namespace Lineage

namespace Outcome

variable {α β : Type}

/-- No error of a migration as a whole. -/
abbrev BelowMigration (x : Outcome α) : Prop := x.FailsOnly fun e => ∀ f, e ≠ .migration f

end Outcome

open Outcome

/-! ## Validation -/

namespace Validation

variable {path : Path} {members : List (Member Field)}

variable [Externals]

theorem matchesText_below (p : PatternSource) (s : String) : (p.matchesText s).BelowMigration := by
  unfold PatternSource.matchesText
  split
  · split
    · exact failsOnly_ok _
    · exact failsOnly_ok _
  · exact failsOnly_error (by rintro f ⟨⟩)

theorem validateText_below (low high : Option Number) (pattern : Option PatternSource)
    (format : Option Format) (path : Path) (s : String) :
    (validateText low high pattern format path s).BelowMigration := by
  unfold validateText
  cases pattern with
  | none => exact failsOnly_ok _
  | some p => exact (matchesText_below p s).bind fun _ _ => failsOnly_ok _

section

omit [Externals]

theorem validateItemCount_below (low high : Option Number) (path : Path) (n : Nat) :
    (validateItemCount low high path n).BelowMigration := by
  cases low with
  | none => exact failsOnly_error (by rintro f ⟨⟩)
  | some b => exact failsOnly_ok _

theorem validateEach_below {item : Path → Value → Result} {index : Nat} {items : List Value}
    (h : ∀ q v, (item q v).BelowMigration) :
    (validateEach item path index items).BelowMigration := by
  induction items generalizing index with
  | nil => exact failsOnly_ok _
  | cons v rest ih => exact (h _ v).bind fun _ _ => ih.bind fun _ _ => failsOnly_ok _

theorem undeclared_below {entries : List (Key × Value)} :
    (undeclared members path entries).BelowMigration := by
  induction entries with
  | nil => exact failsOnly_ok _
  | cons e rest ih =>
    obtain ⟨key, v⟩ := e
    unfold undeclared
    split
    · exact ih
    · exact (failsOnly_mapError (by rintro e f ⟨⟩)).bind fun _ _ => ih.bind fun _ _ => failsOnly_ok _

theorem checkMessages_below (v : Value) : (checkMessages v).BelowMigration := by
  unfold checkMessages
  split
  · exact failsOnly_ok _
  · split
    · exact failsOnly_ok _
    · split
      · exact failsOnly_ok _
      · exact failsOnly_error (by rintro f ⟨⟩)

theorem validateCustom_below (check : AuthorFn) (name : Value) (path : Path) (v : Value) :
    (validateCustom check name path v).BelowMigration := by
  refine FailsOnly.bind ?_ fun _ _ => failsOnly_ok _
  unfold runCheck
  split
  · exact checkMessages_below _
  · exact failsOnly_ok _
  · exact failsOnly_ok _
  · exact failsOnly_error (by rintro f ⟨⟩)

end

end Validation

namespace Field

open Validation

variable {o : Options}

variable [Externals]

theorem validateItems_below {fields : List Field} {path : Path} {index : Nat} {items : List Value}
    (h : ∀ f ∈ fields, ∀ q v, (f.validate o q v).BelowMigration) :
    (validateItems o fields path index items).BelowMigration := by
  induction fields generalizing index items with
  | nil => exact failsOnly_ok _
  | cons f rest ih =>
    obtain ⟨hf, hrest⟩ := List.forall_mem_cons.mp h
    cases items with
    | nil => exact failsOnly_ok _
    | cons v more => exact (hf _ v).bind fun _ _ => (ih hrest).bind fun _ _ => failsOnly_ok _

theorem validateMembers_below {members : List (Member Field)} {path : Path}
    {entries : List (Key × Value)}
    (h : ∀ m ∈ members, ∀ q v, (m.field.validate o q v).BelowMigration) :
    (validateMembers o members path entries).BelowMigration := by
  induction members with
  | nil => exact failsOnly_ok _
  | cons m rest ih =>
    obtain ⟨hm, hrest⟩ := List.forall_mem_cons.mp h
    rw [validateMembers_cons]
    refine FailsOnly.bind ?_ fun _ _ => (ih hrest).bind fun _ _ => failsOnly_ok _
    unfold validateMember
    split
    · exact hm _ _
    · split
      · exact failsOnly_ok _
      · split
        · exact hm _ _
        · exact failsOnly_ok _

theorem validateVariants_below {variants : List Field} {path : Path} {v : Value}
    (h : ∀ f ∈ variants, ∀ q v, (f.validate o q v).BelowMigration) :
    (validateVariants o variants path v).BelowMigration := by
  induction variants with
  | nil => exact failsOnly_ok _
  | cons f rest ih =>
    obtain ⟨hf, hrest⟩ := List.forall_mem_cons.mp h
    exact (hf _ v).bind fun _ _ => (ih hrest).bind fun _ _ => failsOnly_ok _

theorem validateTagged_below {variants : List Field} {key : String} {tag : Value} {path : Path}
    {v : Value} (h : ∀ f ∈ variants, ∀ q v, (f.validate o q v).BelowMigration) :
    (validateTagged o key tag variants path v).BelowMigration := by
  rw [validateTagged_eq]
  split
  · next f hf => exact h f (List.mem_of_find?_eq_some hf) _ _
  · exact failsOnly_ok _

theorem validate_below (f : Field) (path : Path) (v : Value) :
    (f.validate o path v).BelowMigration := by
  induction f generalizing path v with
  | string low high pattern format =>
    rw [validate_string]
    split
    · exact failsOnly_ok _
    · exact validateText_below _ _ _ _ _ _
    · exact failsOnly_ok _
  | number low high integerOnly =>
    rw [validate_number]
    split <;> exact failsOnly_ok _
  | boolean =>
    rw [validate_boolean]
    split <;> exact failsOnly_ok _
  | null =>
    rw [validate_null]
    split <;> exact failsOnly_ok _
  | any =>
    rw [validate_any]
    split <;> exact failsOnly_ok _
  | literal value =>
    rw [validate_literal]
    split <;> exact failsOnly_ok _
  | array element low high ih =>
    rw [validate_array]
    split
    · exact failsOnly_ok _
    · exact (validateItemCount_below _ _ _ _).bind fun _ _ =>
        (validateEach_below ih).bind fun _ _ => failsOnly_ok _
    · exact failsOnly_ok _
  | tuple fields ih =>
    rw [validate_tuple]
    split
    · exact failsOnly_ok _
    · split
      · exact validateItems_below ih
      · exact failsOnly_ok _
    · exact failsOnly_ok _
  | object members ih =>
    rw [validate_object]
    split
    · exact failsOnly_ok _
    · refine (validateMembers_below ih).bind fun _ _ => ?_
      simp only
      split
      · exact undeclared_below.bind fun _ _ => failsOnly_ok _
      · exact failsOnly_ok _
    · exact failsOnly_ok _
  | optional inner ih =>
    rw [validate_optional]
    split
    · exact failsOnly_ok _
    · exact failsOnly_ok _
    · exact ih _ _
  | defaulted inner value ih =>
    rw [validate_defaulted]
    split
    · exact ih _ _
    · exact ih _ _
  | union variants discriminant ih =>
    rw [validate_union]
    split
    · exact failsOnly_ok _
    · split
      · exact (validateVariants_below ih).bind fun _ _ => failsOnly_ok _
      · split
        · split
          · exact validateTagged_below ih
          · exact failsOnly_ok _
        · exact failsOnly_ok _
  | custom check name =>
    rw [validate_custom]
    split
    · exact failsOnly_ok _
    · exact validateCustom_below _ _ _ _

end Field

/-! ## Steps -/

namespace Step

open Change

theorem walkable_below :
    Walkable (fun e => ∀ f, e ≠ .migration f) (fun _ => True) (fun _ => True) where
  toHereditary := Value.hereditary_true
  step := by rintro e f ⟨⟩
  noKind := by rintro v - - f ⟨⟩

variable [Externals]

theorem rebuildable_below :
    Rebuildable (fun e => ∀ f, e ≠ .migration f) (fun _ => True) (fun _ => True) where
  element _ := trivial
  items _ := trivial
  members _ := trivial
  inner _ := trivial
  default _ _ _ := trivial
  ofDefault _ := trivial
  check _ _ := Field.validate_below _ _ _

omit [Externals] in
theorem coversNames_below : CoversNames fun e => ∀ f, e ≠ .migration f where
  badType := by rintro f ⟨⟩
  badPath := by rintro e f ⟨⟩
  definition := by rintro e f ⟨⟩

omit [Externals] in
theorem allowed_below (s : Step) :
    s.Allowed (fun e => ∀ f, e ≠ .migration f) (fun _ => True) (fun _ => True) where
  names _ _ := .inr coversNames_below
  gives := by
    cases s with
    | add | rename | copy | merge => exact fun _ _ => trivial
    | split => exact fun _ _ => trivial
    | remove | retype | restructure => exact trivial
  adds := by cases s <;> exact trivial
  functions _ _ _ _ _ := .inr (by rintro f ⟨⟩)

omit [Externals] in
theorem apply_below (s : Step) (v : Value) (field : Option Field) :
    (s.apply v field).BelowMigration :=
  (apply_meets walkable_below (fun _ _ => trivial) (allowed_below s) trivial).fails

theorem transformField_below (s : Step) (f : Field) : (s.transformField f).BelowMigration :=
  (transformField_meets walkable_below (fun _ _ => trivial) (allowed_below s) rebuildable_below
    (fun _ _ _ _ => trivial) fun _ _ => trivial).fails

end Step

/-! ## Migrations -/

namespace Outcome

variable {α : Type}

/-- No error of a migration but at one of its steps. -/
abbrev FailsAtSteps (x : Outcome α) : Prop :=
  x.FailsOnly fun e => ∀ f, e = .migration f → ∃ index cause step, f = .stepFailed index cause step

theorem BelowMigration.failsAtSteps {x : Outcome α} (h : x.BelowMigration) : x.FailsAtSteps :=
  h.imp fun _ he f hf => absurd hf (he f)

/-- No document is refused for not conforming to the source. -/
abbrev AcceptsSource (x : Outcome α) : Prop :=
  x.FailsOnly fun e => ∀ violations version, e ≠ .migration (.sourceMismatch violations version)

theorem FailsAtSteps.acceptsSource {x : Outcome α} (h : x.FailsAtSteps) : x.AcceptsSource := by
  refine h.imp fun e he violations version heq => ?_
  obtain ⟨index, cause, step, hf⟩ := he _ heq
  cases hf

/-- A document is refused because it does not conform to the source. -/
def IsSourceMismatch (x : Outcome α) : Prop :=
  ∃ violations version, x = .error (.migration (.sourceMismatch violations version))

theorem AcceptsSource.not_isSourceMismatch {x : Outcome α} (h : x.AcceptsSource) :
    ¬x.IsSourceMismatch := by
  rintro ⟨violations, version, hx⟩
  exact h _ hx violations version rfl

end Outcome

namespace Migration

variable {m : Migration} {v : Value}

theorem stage_failsAtSteps {α : Type} {index : Nat} {s : Step} {x : Outcome α}
    (h : x.BelowMigration) : (stage index s x).FailsAtSteps := by
  unfold stage
  split
  · next cause =>
    refine failsOnly_error fun f hf => ?_
    cases hf
    exact ⟨index, cause, s.typeName, rfl⟩
  · exact h.failsAtSteps

variable [Externals]

theorem applyFrom_failsAtSteps {steps : List Step} {index : Nat} {f : Field} :
    (applyFrom index steps v f).FailsAtSteps := by
  induction steps generalizing index v f with
  | nil => exact failsOnly_ok v
  | cons s rest ih =>
    exact (stage_failsAtSteps (s.apply_below _ _)).bind fun _ _ =>
      (stage_failsAtSteps (s.transformField_below _)).bind fun _ _ => ih

theorem deriveFrom_failsAtSteps {steps : List Step} {index : Nat} {f : Field} :
    (deriveFrom index steps f).FailsAtSteps := by
  induction steps generalizing index f with
  | nil => exact failsOnly_ok f
  | cons s rest ih =>
    exact (stage_failsAtSteps (s.transformField_below _)).bind fun _ _ => ih

theorem drift_failsAtSteps (m : Migration) : m.drift.FailsAtSteps :=
  deriveFrom_failsAtSteps.bind fun _ _ => failsOnly_ok _

omit [Externals] in
theorem checkDrift_acceptsSource (differences : List Difference) :
    (checkDrift differences).AcceptsSource := by
  unfold checkDrift
  split
  · exact failsOnly_ok ()
  · exact failsOnly_error (by rintro violations version ⟨⟩)

theorem checkDestination_acceptsSource (m : Migration) (v : Value) :
    (m.checkDestination v).AcceptsSource := by
  refine (Field.validate_below _ _ _).failsAtSteps.acceptsSource.bind fun violations _ => ?_
  split
  · exact failsOnly_ok ()
  · exact failsOnly_error (by rintro violations version ⟨⟩)

/-- A run is refused for its source only if validation against the source finds something. -/
theorem run_acceptsSource (h : m.source.validate v = .ok []) : (m.run v).AcceptsSource := by
  unfold run runWith
  rw [checkSource_eq_ok h, ok_bind]
  exact applyFrom_failsAtSteps.acceptsSource.bind fun result _ =>
    m.drift_failsAtSteps.acceptsSource.bind fun differences _ =>
      (checkDrift_acceptsSource differences).bind fun _ _ =>
        (m.checkDestination_acceptsSource result).bind fun _ _ => failsOnly_ok result

end Migration
end Lineage
