import Lineage.Format.Email
import Lineage.Proofs.Migration.Refusal

/-
Documents and field trees along the same steps.

The fold over a document changes the field beside it exactly as the fold over field trees
alone does, so before every step both hold the same tree.  A document that gets through all
steps takes the field tree with it, and none gets past a step that the field tree does not
get past.
-/

namespace Lineage
namespace Migration

open Outcome

variable {α : Type} {m : Migration} {s : Step} {steps : List Step} {f : Field} {v w : Value}
variable {index i j : Nat} {x : Outcome α}

/-- A fold of steps fails at the step with an index. -/
def FailsAt (i : Nat) (x : Outcome α) : Prop :=
  ∃ cause step, x = .error (.migration (.stepFailed i cause step))

/-- What fails is at fault with its own index only, for no step fails as a migration. -/
theorem index_of_stage (hx : x.BelowMigration) (h : FailsAt i (stage index s x)) : i = index := by
  obtain ⟨cause, step, h⟩ := h
  unfold stage at h
  split at h
  · cases h
    rfl
  · exact absurd rfl (hx _ h _)

/-- The index of a failure of two computations in a row is that of one of them. -/
theorem failsAt_bind {β : Type} {next : α → Outcome β} (h : FailsAt i (x >>= next)) :
    FailsAt i x ∨ ∃ a, x = .ok a ∧ FailsAt i (next a) := by
  cases x with
  | ok a => exact .inr ⟨a, rfl, h⟩
  | error e =>
    obtain ⟨cause, step, h⟩ := h
    cases h
    exact .inl ⟨cause, step, rfl⟩

theorem not_failsAt_ok (a : α) : ¬FailsAt i (.ok a : Outcome α) := by
  rintro ⟨cause, step, h⟩
  cases h

/-! ## Folding the steps -/

section

variable [Externals]

/-- The steps change the field beside a document as they change a field tree alone. -/
theorem derive_of_applyFrom (h : applyFrom index steps v f = .ok w) :
    ∃ g, deriveFrom index steps f = .ok g := by
  induction steps generalizing index v f with
  | nil => exact ⟨f, rfl⟩
  | cons s rest ih =>
    obtain ⟨u, -, h⟩ := bind_eq_ok.mp h
    obtain ⟨g, hg, h⟩ := bind_eq_ok.mp h
    rw [deriveFrom, hg, ok_bind]
    exact ih h

theorem index_le_of_deriveFrom (h : FailsAt i (deriveFrom index steps f)) : index ≤ i := by
  induction steps generalizing index f with
  | nil => exact absurd h (not_failsAt_ok f)
  | cons s rest ih =>
    rcases failsAt_bind h with h | ⟨g, -, h⟩
    · exact Nat.le_of_eq (index_of_stage (s.transformField_below f) h).symm
    · exact Nat.le_of_succ_le (ih h)

/-- Where the field tree does not get past a step, no document does. -/
theorem index_le_of_applyFrom (hderive : FailsAt i (deriveFrom index steps f))
    (h : FailsAt j (applyFrom index steps v f)) : j ≤ i := by
  induction steps generalizing index v f with
  | nil => exact absurd h (not_failsAt_ok v)
  | cons s rest ih =>
    have hi := index_le_of_deriveFrom hderive
    rcases failsAt_bind h with h | ⟨u, -, h⟩
    · exact index_of_stage (s.apply_below v (some f)) h ▸ hi
    · rcases failsAt_bind h with h | ⟨g, hg, h⟩
      · exact index_of_stage (s.transformField_below f) h ▸ hi
      · rw [deriveFrom, hg, ok_bind] at hderive
        exact ih hderive h

/-! ## Whole migrations -/

/-- Once the steps have taken a document through, the drift is found, and what a run still
checks is the drift itself and the result. -/
theorem run_of_apply (hsource : m.checkSource v = .ok ()) (happly : m.apply v = .ok w) :
    ∃ differences, m.drift = .ok differences ∧
      m.run v = (do
        checkDrift differences
        m.checkDestination w
        return w) := by
  obtain ⟨derived, hderived⟩ := derive_of_applyFrom happly
  have hdrift : m.drift = .ok (Field.compareAt .root m.destination.root derived) := by
    have hderive : m.derive = .ok derived := hderived
    rw [drift, hderive]
    rfl
  refine ⟨_, hdrift, ?_⟩
  rw [run, runWith, hsource, ok_bind, happly, ok_bind, hdrift, ok_bind]

/-- Documents and field trees fail consistently along the steps of a migration.  If the steps
take some document through, they derive a field tree; if they fail to derive one at an index,
no document gets through, and none fails at a later index.  So a run that has applied the
steps finds the drift. -/
theorem apply_fails_no_later (m : Migration) :
    (∀ v w, m.apply v = .ok w → ∃ derived, m.derive = .ok derived) ∧
      (∀ i, FailsAt i m.derive → ∀ v, (∀ w, m.apply v ≠ .ok w) ∧
        ∀ j, FailsAt j (m.apply v) → j ≤ i) ∧
      ∀ v w, m.checkSource v = .ok () → m.apply v = .ok w →
        ∃ differences, m.drift = .ok differences ∧
          m.run v = (do
            checkDrift differences
            m.checkDestination w
            return w) := by
  refine ⟨fun v w h => derive_of_applyFrom h, fun i hderive v => ⟨fun w happly => ?_, ?_⟩,
    fun v w => run_of_apply⟩
  · obtain ⟨derived, hderived⟩ := derive_of_applyFrom happly
    have hfails : FailsAt i (Except.ok derived : Outcome Field) := hderived ▸ hderive
    exact not_failsAt_ok derived hfails
  · exact fun j h => index_le_of_applyFrom hderive h

end

/-- A name is added that is there already.  A document without the name that the first step
removes fails at that step, every other one at the second at the latest; without the second
step a document gets through. -/
theorem apply_fails_no_later_removed :
    let root : Field := .object (Member.derived [("a", .any), ("b", .any)])
    let m : Migration :=
      { source := { version := 1, root := root }
        destination := { version := 2, root := .object [], predecessor := .int 1 }
        steps := [.remove .root (.text "b"), .add .root (.text "a") .any .null] }
    let before : Migration := { m with steps := m.steps.take 1 }
    let v : Value := .object [(.text "a", .null), (.text "b", .null)]
    FailsAt 1 m.derive ∧ FailsAt 0 (m.apply (.object [])) ∧ 0 ≤ 1 ∧ (∀ w, m.apply v ≠ .ok w) ∧
      before.apply v = .ok (.object [(.text "a", .null)]) ∧
      (∃ derived, before.derive = .ok derived) ∧
      ∃ differences, before.drift = .ok differences := by
  intro root m before v
  have hderive : FailsAt 1 m.derive := ⟨_, _, rfl⟩
  have hfirst : FailsAt 0 (m.apply (.object [])) := ⟨_, _, rfl⟩
  have hbefore : before.apply v = .ok (.object [(.text "a", .null)]) := rfl
  have hsource : before.checkSource v = .ok () := rfl
  obtain ⟨-, hfails, -⟩ := apply_fails_no_later m
  obtain ⟨hderives, -, hdrifts⟩ := apply_fails_no_later before
  obtain ⟨differences, hdifferences, -⟩ := hdrifts v _ hsource hbefore
  exact ⟨hderive, hfirst, (hfails 1 hderive (.object [])).2 0 hfirst, (hfails 1 hderive v).1,
    hbefore, hderives v _ hbefore, differences, hdifferences⟩

end Migration
end Lineage
