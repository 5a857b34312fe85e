import Lineage.AuthorFn.Catalogue
import Lineage.Format.Email
import Lineage.Proofs.Migration.Construction
import Lineage.Proofs.Migration.Progress
import Lineage.Proofs.Step.Safety
import Lineage.Proofs.Validation.Total

/-
A migration fails as a migration.

Where validation always gives a result, what a step fails with is an error of the step, and
the fold reports it with the step's index; all other refusals of a run are its own.  Each
value on the way is of one of the six kinds in all its parts, since conversions are checked
and so are defaults.  A value that a step adds is checked against its field only, which may
let a value of no kind pass under a key that may be absent, so this is asked of it here.
-/

namespace Lineage

open Outcome

namespace Step

/-- An error of a step. -/
def IsStepError (e : Error) : Prop := ∃ cause, e = .step cause

open Change Lineage.Field

theorem walkable_kinded :
    Walkable IsStepError (fun key => ∃ name, key = .text name) Value.Kinded where
  toHereditary := Value.hereditary_kinded
  step cause := ⟨cause, rfl⟩
  noKind _ hv hkind := absurd hkind hv.kind

variable [Externals]

theorem rebuildable_answerable : Rebuildable IsStepError Value.Kinded Answerable where
  element h := ⟨trivial, trivial, h.leastCount, trivial⟩
  items _ := ⟨trivial, trivial, trivial, trivial⟩
  members _ := ⟨trivial, trivial, trivial, trivial⟩
  inner _ := ⟨trivial, trivial, trivial, trivial⟩
  default _ _ hv := ⟨trivial, trivial, trivial, hv⟩
  ofDefault h := h.checkedDefault.kinded
  check hf hv := (validate_answers hf (.inr hv.kinded)).failsOnly

/-- What a run asks of one step: names that are texts, functions that refuse only with the
faults meant for it, and an added value with parts of the six kinds. -/
structure Tame (s : Step) : Prop where
  names : ∀ name ∈ s.names, ∃ text, name = .text text
  functions : ∀ g ∈ s.functions, ∀ v f, g.run v = .error f → f.isRefusal = true
  adds : s.Adds Value.Kinded

omit [Externals] in
theorem gives_of_names {s : Step} (h : ∀ name ∈ s.names, ∃ text, name = .text text) :
    s.Gives fun key => ∃ name, key = .text name := by
  have hkey : ∀ {name : Value}, name ∈ s.names →
      ∀ key, keyOf name = .ok key → ∃ text, key = .text text := by
    intro name hname
    obtain ⟨text, rfl⟩ := h name hname
    rintro _ ⟨⟩
    exact ⟨text, rfl⟩
  cases s with
  | add => exact hkey List.mem_cons_self
  | rename | copy => exact hkey (List.mem_cons_of_mem _ List.mem_cons_self)
  | merge => exact hkey List.mem_cons_self
  | split path name targets splitter =>
    intro target ht
    obtain ⟨text, htext⟩ := h _ (List.mem_cons_of_mem _ (List.mem_map_of_mem ht))
    exact ⟨text, text_of_toValue htext⟩
  | remove | retype | restructure => exact trivial

omit [Externals] in
theorem Tame.allowed {s : Step} (h : s.Tame) :
    s.Allowed IsStepError (fun key => ∃ name, key = .text name) Value.Kinded where
  names name hname := .inl (h.names name hname)
  gives := gives_of_names h.names
  adds := h.adds
  functions g hg v f hf := .inl (h.functions g hg v f hf)

end Step

namespace Migration

open Lineage.Field

/-- An error of a migration as a whole. -/
def IsMigrationError (e : Error) : Prop := ∃ cause, e = .migration cause

/-- The fields that a migration declares. -/
def fields (m : Migration) : List Field :=
  m.source.root :: m.destination.root :: m.steps.flatMap Step.fields

variable {m : Migration} {v : Value} {f : Field} {steps : List Step} {index : Nat}

theorem stage_meets {α : Type} {R : α → Prop} {s : Step} {x : Outcome α}
    (h : x.Meets Step.IsStepError R) : (stage index s x).Meets IsMigrationError R := by
  cases x with
  | ok a => exact meets_ok (h.gives a rfl)
  | error e =>
    obtain ⟨cause, rfl⟩ := h.fails e rfl
    exact meets_error ⟨_, rfl⟩

section

variable [Externals]

section Steps

variable (htame : ∀ s ∈ steps, s.Tame)
variable (hfields : ∀ s ∈ steps, ∀ g ∈ s.fields, g.Everywhere Answerable)

include htame hfields

/-- Along the steps a value keeps to the six kinds and the field beside it keeps validation
total, so that the next step fails as a step only. -/
theorem applyFrom_meets (hv : v.Kinded) (hf : f.Everywhere Answerable) :
    (applyFrom index steps v f).Meets IsMigrationError Value.Kinded := by
  induction steps generalizing index v f with
  | nil => exact meets_ok hv
  | cons s rest ih =>
    obtain ⟨hs, htame⟩ := List.forall_mem_cons.mp htame
    obtain ⟨hsfields, hfields⟩ := List.forall_mem_cons.mp hfields
    exact (stage_meets (Step.apply_meets Step.walkable_kinded (fun _ => Value.Checked.kinded)
      hs.allowed hv)).bind fun w hw =>
        (stage_meets (Step.transformField_meets Step.walkable_kinded
          (fun _ => Value.Checked.kinded) hs.allowed Step.rebuildable_answerable hsfields
          hf)).bind fun g hg => ih htame hfields hw hg

theorem deriveFrom_meets (hf : f.Everywhere Answerable) :
    (deriveFrom index steps f).Meets IsMigrationError (Everywhere Answerable) := by
  induction steps generalizing index f with
  | nil => exact meets_ok hf
  | cons s rest ih =>
    obtain ⟨hs, htame⟩ := List.forall_mem_cons.mp htame
    obtain ⟨hsfields, hfields⟩ := List.forall_mem_cons.mp hfields
    exact (stage_meets (Step.transformField_meets Step.walkable_kinded
      (fun _ => Value.Checked.kinded) hs.allowed Step.rebuildable_answerable hsfields
      hf)).bind fun g hg => ih htame hfields hg

end Steps

omit [Externals] in
/-- A check that reports what validation finds. -/
theorem report_fails {x : Validation.Result} (hx : x.Returns)
    (report : List Violation → MigrationError) :
    FailsOnly IsMigrationError (do
      match ← x with
      | [] => return ()
      | violations => fails (report violations) : Outcome Unit) := by
  refine hx.failsOnly.bind fun violations _ => ?_
  split
  · exact failsOnly_ok ()
  · exact failsOnly_error ⟨_, rfl⟩

omit [Externals] in
theorem checkDrift_fails (differences : List Difference) :
    (checkDrift differences).FailsOnly IsMigrationError := by
  unfold checkDrift
  split
  · exact failsOnly_ok ()
  · exact failsOnly_error ⟨_, rfl⟩

theorem run_fails (htame : ∀ s ∈ m.steps, s.Tame)
    (hfields : ∀ g ∈ m.fields, g.Everywhere Answerable) (hv : v.Kinded) :
    (m.run v).FailsOnly IsMigrationError := by
  obtain ⟨hsource, hrest⟩ := List.forall_mem_cons.mp hfields
  obtain ⟨hdestination, hdeclared⟩ := List.forall_mem_cons.mp hrest
  have hsteps : ∀ s ∈ m.steps, ∀ g ∈ s.fields, g.Everywhere Answerable := fun s hs g hg =>
    hdeclared g (List.mem_flatMap.mpr ⟨s, hs, hg⟩)
  have hderive : m.derive.FailsOnly IsMigrationError :=
    (deriveFrom_meets htame hsteps hsource).fails
  have hcheck : ∀ {s : Schema} {w : Value}, s.root.Everywhere Answerable → w.Kinded →
      (s.validate w).Returns := fun hroot hw => validate_answers hroot (.inr hw)
  refine (report_fails (hcheck hsource hv) (.sourceMismatch · m.source.version)).bind
    fun _ _ => ?_
  have happly : (m.apply v).Meets IsMigrationError Value.Kinded :=
    applyFrom_meets htame hsteps hv hsource
  refine happly.fails.bind fun result hresult => ?_
  refine (hderive.bind fun _ _ => failsOnly_ok _).bind fun differences _ => ?_
  refine (checkDrift_fails differences).bind fun _ _ => ?_
  exact (report_fails (hcheck hdestination (happly.gives result hresult))
    (.destinationMismatch · m.destination.version)).bind fun _ _ => failsOnly_ok result

/-- A run of a migration gives a document or fails with one of the four errors of a
migration: its fields are constructed, with no check of an author and attributes of the
declared types, its steps name keys by texts, its functions refuse only with the faults
meant for it, and the values that it adds have parts of the six kinds only. -/
theorem run_gives_or_fails (hconstructed : ∀ g ∈ m.fields, g.Constructed)
    (hcustom : ∀ g ∈ m.fields, g.Everywhere NotCustom)
    (htypes : ∀ g ∈ m.fields, g.Everywhere HasDeclaredTypes)
    (hnames : ∀ s ∈ m.steps, ∀ name ∈ s.names, ∃ text, name = .text text)
    (hfunctions : ∀ s ∈ m.steps, ∀ g ∈ s.functions, ∀ v f, g.run v = .error f →
      f.isRefusal = true)
    (hadds : ∀ s ∈ m.steps, s.Adds Value.Kinded) (hv : v.Checked) :
    (∃ w, m.run v = .ok w) ∨ ∃ cause, m.run v = .error (.migration cause) := by
  have htame : ∀ s ∈ m.steps, s.Tame := fun s hs => ⟨hnames s hs, hfunctions s hs, hadds s hs⟩
  have hfields : ∀ g ∈ m.fields, g.Everywhere Answerable := fun g hg =>
    (hconstructed g hg).answerable (hcustom g hg)
      ((htypes g hg).imp fun _ => HasDeclaredTypes.textPattern)
      ((htypes g hg).imp fun _ => HasDeclaredTypes.leastCount)
  cases hrun : m.run v with
  | ok w => exact .inl ⟨w, rfl⟩
  | error e =>
    obtain ⟨cause, rfl⟩ := run_fails htame hfields hv.kinded e hrun
    exact .inr ⟨cause, rfl⟩

end

/-- A text is parsed as a number, which may be refused, and a flag is added. -/
theorem run_gives_or_fails_parsed :
    let number : Field := .number none none (.bool false)
    let m : Migration :=
      { source := { version := 1, root := .object (Member.derived [("n", .any)]) }
        destination :=
          { version := 2
            root := .object (Member.derived [("n", number), ("seen", .boolean)])
            predecessor := .int 1 }
        steps := [.retype (Path.root.key "n") number ⟨"parse_int", AuthorFn.Catalogue.parseInt⟩,
          .add .root (.text "seen") .boolean (.bool false)] }
    let v : Value := .object [(.text "n", .text "seven")]
    v.Checked ∧ ((∃ w, m.run v = .ok w) ∨ ∃ cause, m.run v = .error (.migration cause)) := by
  intro number m v
  have hnumber : number.Constructed := @Constructed.number _ .null .null (.bool false) _ rfl
  have hsource : m.source.root.Constructed := @Constructed.object _ [(.text "n", .any)] .null _
    (List.forall_mem_singleton.mpr .any) rfl
  have hdestination : m.destination.root.Constructed :=
    @Constructed.object _ [(.text "n", number), (.text "seen", .boolean)] .null _
      (List.forall_mem_cons.mpr ⟨hnumber, List.forall_mem_singleton.mpr .boolean⟩) rfl
  have hfields : ∀ {P : Field → Prop}, P m.source.root → P m.destination.root → P number →
      P .boolean → ∀ g ∈ m.fields, P g := fun hs hd hn hb =>
    List.forall_mem_cons.mpr ⟨hs, List.forall_mem_cons.mpr ⟨hd,
      List.forall_mem_cons.mpr ⟨hn, List.forall_mem_singleton.mpr hb⟩⟩⟩
  have hall : ∀ {P : Field → Prop}, (∀ ms, P (.object ms)) → P number → P .any → P .boolean →
      ∀ g ∈ m.fields, g.Everywhere P := by
    intro P hobject hn ha hb
    have hleaf : ∀ {g : Field}, P g → g.children = [] → g.Everywhere P := everywhere_leaf
    exact hfields (everywhere_object (hobject _) (List.forall_mem_singleton.mpr (hleaf ha rfl)))
      (everywhere_object (hobject _) (List.forall_mem_cons.mpr
        ⟨hleaf hn rfl, List.forall_mem_singleton.mpr (hleaf hb rfl)⟩))
      (hleaf hn rfl) (hleaf hb rfl)
  have hnames : ∀ s ∈ m.steps, ∀ name ∈ s.names, ∃ text, name = .text text :=
    List.forall_mem_cons.mpr ⟨List.forall_mem_nil _,
      List.forall_mem_singleton.mpr (List.forall_mem_singleton.mpr ⟨"seen", rfl⟩)⟩
  have hparse : ∀ v f, AuthorFn.Catalogue.parseInt v = .error f → f.isRefusal = true := by
    intro v f h
    unfold AuthorFn.Catalogue.parseInt at h
    split at h
    · cases h
    · cases h
      rfl
  have hfunctions : ∀ s ∈ m.steps, ∀ g ∈ s.functions, ∀ v f, g.run v = .error f →
      f.isRefusal = true :=
    List.forall_mem_cons.mpr ⟨List.forall_mem_singleton.mpr hparse,
      List.forall_mem_singleton.mpr (List.forall_mem_nil _)⟩
  have hadds : ∀ s ∈ m.steps, s.Adds Value.Kinded :=
    List.forall_mem_cons.mpr ⟨trivial, List.forall_mem_singleton.mpr (.scalar _)⟩
  have hv : v.Checked := rfl
  exact ⟨hv, run_gives_or_fails (hfields hsource hdestination hnumber .boolean)
    (hall (fun _ => trivial) trivial trivial trivial)
    (hall (fun _ => trivial) ⟨false, rfl⟩ trivial trivial) hnames hfunctions hadds hv⟩

/-- The marker for an absent value fits an optional field, so a checked step adds an object
that holds it.  The walk of the next step into that place then fails with neither a step's
error nor a migration's. -/
theorem run_walks_into_missing :
    let around : List (String × Field) → Field := fun inside =>
      .object [⟨"a", false, .optional (.object [⟨"b", true, .object (Member.derived inside)⟩])⟩]
    let field : Field := around [("c", .any)]
    ∃ add remove m,
      Step.makeAdd .null (.text "x") (.field field) (.object [(.text "a", .missing)]) = .ok add ∧
      Step.makeRemove (.text "$.x.a.b") (.text "c") = .ok remove ∧
      make { version := 1, root := .object [] }
        { version := 2, root := .object [⟨"x", true, around []⟩], predecessor := .int 1 }
        [.step add, .step remove] (.text "") = .ok m ∧
      (∀ g ∈ m.fields, g.Constructed) ∧ (Value.object []).Checked ∧
      m.run (.object []) = .error (.notJson { typeName := "_Missing" }) := by
  intro around field
  let before : Schema := { version := 1, root := .object [] }
  let after : Schema :=
    { version := 2, root := .object [⟨"x", true, around []⟩], predecessor := .int 1 }
  let add : Step := .add .root (.text "x") field (.object [(.text "a", .missing)])
  let remove : Step := .remove (((Path.root.key "x").key "a").key "b") (.text "c")
  have hempty : (Field.object []).Constructed :=
    @Constructed.object _ [] .null _ (List.forall_mem_nil _) rfl
  have hinside : (Field.object (Member.derived [("c", .any)])).Constructed :=
    @Constructed.object _ [(.text "c", .any)] .null _ (List.forall_mem_singleton.mpr .any) rfl
  have haround : ∀ {inside}, (Field.object (Member.derived inside)).Constructed →
      (around inside).Constructed := by
    intro inside h
    have hb : (Field.object [⟨"b", true, .object (Member.derived inside)⟩]).Constructed :=
      @Constructed.object _ [(.text "b", .object (Member.derived inside))] .null _
        (List.forall_mem_singleton.mpr h) rfl
    exact @Constructed.object _ [(.text "a", .optional (.object [⟨"b", true, _⟩]))] .null _
      (List.forall_mem_singleton.mpr (.optional hb rfl)) rfl
  have hafter : after.root.Constructed := @Constructed.object _ [(.text "x", around [])] .null _
    (List.forall_mem_singleton.mpr (haround hempty)) rfl
  refine ⟨add, remove, ⟨before, after, [add, remove], .text ""⟩, rfl, rfl, ?_, ?_, rfl, rfl⟩
  · exact make_of rfl rfl [add, remove] (.text "")
  · exact List.forall_mem_cons.mpr ⟨hempty, List.forall_mem_cons.mpr
      ⟨hafter, List.forall_mem_singleton.mpr (haround hinside)⟩⟩

end Migration
end Lineage
