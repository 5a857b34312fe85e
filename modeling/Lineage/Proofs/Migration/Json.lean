import Lineage.Format.Email
import Lineage.Proofs.Field.Difference
import Lineage.Proofs.Migration.Construction
import Lineage.Proofs.Migration.Progress
import Lineage.Proofs.Step.Json

/-
Migrations keep documents JSON, as far as added values are JSON.

Conversions are checked, but a value that a step adds is only validated against the field
that it declares, and a field for numbers lets the infinities and NaN through.
-/

namespace Lineage
namespace Migration

section

variable [Externals]

/-- JSON values stay JSON values along all steps. -/
theorem applyFrom_checked {steps : List Step} {f : Field} {index : Nat} {v w : Value}
    (hnames : ∀ s ∈ steps, s.GivesTexts) (hadds : ∀ s ∈ steps, s.AddsChecked) (hv : v.Checked)
    (h : applyFrom index steps v f = .ok w) : w.Checked := by
  induction steps generalizing f v index with
  | nil =>
    cases h
    exact hv
  | cons s rest ih =>
    obtain ⟨hname, hnames⟩ := List.forall_mem_cons.mp hnames
    obtain ⟨hadd, hadds⟩ := List.forall_mem_cons.mp hadds
    obtain ⟨u, hu, h⟩ := Outcome.bind_eq_ok.mp h
    obtain ⟨g, -, h⟩ := Outcome.bind_eq_ok.mp h
    exact ih hnames hadds (Step.apply_checked hname hadd hv (stage_eq_ok.mp hu)) h

/-- Where each added value is a JSON value, a migration gives a JSON value for a JSON value,
and that is written as JSON text. -/
theorem run_keeps_json {m : Migration} (hnames : ∀ s ∈ m.steps, s.GivesTexts)
    (hadds : ∀ s ∈ m.steps, s.AddsChecked) {v w : Value} (hv : v.Checked)
    (h : m.run v = .ok w) : w.Checked ∧ ∀ style, ∃ s, w.toJson style = .ok s := by
  have hw : w.Checked := applyFrom_checked hnames hadds hv (run_eq_ok h).2.1
  exact ⟨hw, fun style => hw.toJson style⟩

end

/-- A name is copied and a flag is added. -/
theorem run_keeps_json_copied :
    let m : Migration :=
      { source := { version := 1, root := .object (Member.derived [("name", .any)]) }
        destination :=
          { version := 2
            root := .object (Member.derived [("name", .any), ("alias", .any), ("seen", .boolean)])
            predecessor := .int 1 }
        steps := [.copy .root (.text "name") (.text "alias"),
          .add .root (.text "seen") .boolean (.bool false)] }
    let v : Value := .object [(.text "name", .array [.text "ada"])]
    let w : Value := .object [(.text "name", .array [.text "ada"]),
      (.text "alias", .array [.text "ada"]), (.text "seen", .bool false)]
    m.run v = .ok w ∧ w.Checked ∧ ∀ style, ∃ s, w.toJson style = .ok s := by
  intro m v w
  have hnames : ∀ s ∈ m.steps, s.GivesTexts :=
    List.forall_mem_cons.mpr ⟨⟨_, rfl⟩, List.forall_mem_singleton.mpr ⟨_, rfl⟩⟩
  have hadds : ∀ s ∈ m.steps, s.AddsChecked :=
    List.forall_mem_cons.mpr ⟨trivial, List.forall_mem_singleton.mpr rfl⟩
  have hv : v.Checked := rfl
  have hrun : m.run v = .ok w := rfl
  exact ⟨hrun, run_keeps_json hnames hadds hv hrun⟩

/-- An infinite number fits a field for numbers, so a checked step adds it, and a migration
without drift returns a document that JSON cannot hold. -/
theorem run_adds_infinite :
    let number : Field := .number none none (.bool false)
    let infinite : Value := .number (.float (.infinite false))
    ∃ s m w, Step.makeAdd .null (.text "x") (.field number) infinite = .ok s ∧ s.GivesTexts ∧
      make { version := 1, root := .object [] }
        { version := 2, root := .object (Member.derived [("x", number)]), predecessor := .int 1 }
        [.step s] (.text "") = .ok m ∧
      (Value.object []).Checked ∧ m.run (.object []) = .ok w ∧ ¬w.Checked := by
  intro number infinite
  let before : Schema := { version := 1, root := .object [] }
  let after : Schema :=
    { version := 2, root := .object (Member.derived [("x", number)]), predecessor := .int 1 }
  let s : Step := .add .root (.text "x") number infinite
  let w : Value := .object [(.text "x", infinite)]
  have hmake : make before after [.step s] (.text "") = .ok ⟨before, after, [s], .text ""⟩ :=
    make_of rfl rfl [s] (.text "")
  have hnumber : ∀ path, Field.compareAt path number number = [] := fun path => by
    rw [Field.compareAt, Field.compareFlag_bool]
    rfl
  have hdrift : (⟨before, after, [s], .text ""⟩ : Migration).drift = .ok [] := by
    have hderive : (⟨before, after, [s], .text ""⟩ : Migration).derive = .ok after.root := rfl
    unfold drift
    rw [hderive]
    show Except.ok (Field.compareMembers .root [⟨"x", true, number⟩] [⟨"x", true, number⟩] ++
      []) = _
    rw [Field.compareMembers, Member.find?, if_pos rfl]
    simp only [hnumber]
    rfl
  have hrun : (⟨before, after, [s], .text ""⟩ : Migration).run (.object []) = .ok w := by
    unfold run
    rw [hdrift]
    rfl
  refine ⟨s, _, w, rfl, ⟨_, rfl⟩, hmake, rfl, hrun, fun hw => ?_⟩
  cases hw

end Migration
end Lineage
