import Lineage.Migration
import Lineage.Proofs.Value.Equality

/-
Migrations that checked construction lets through.

The destination names the version of the source as its predecessor and is one version later.
-/

namespace Lineage
namespace Migration

/-- A migration that construction lets through. -/
def Made (m : Migration) : Prop :=
  ∃ steps description, make m.source m.destination steps description = .ok m

variable {m : Migration} {source destination : Schema}

theorem Made.succeeds (h : m.Made) : succeeds m.destination m.source = true := by
  obtain ⟨steps, description, hmake⟩ := h
  unfold make at hmake
  split at hmake
  · next hsucceeds => exact hsucceeds
  · cases hmake

theorem Made.version (h : m.Made) : m.destination.version = m.source.version + 1 := by
  have hsucceeds := h.succeeds
  simp only [Migration.succeeds, Bool.and_eq_true, beq_iff_eq] at hsucceeds
  exact hsucceeds.1

theorem Made.predecessor (h : m.Made) :
    m.destination.predecessor.sameBy Number.same (.int m.source.version) = true := by
  have hsucceeds := h.succeeds
  simp only [Migration.succeeds, Bool.and_eq_true] at hsucceeds
  exact hsucceeds.2

theorem stepsOf_map_step (index : Nat) (steps : List Step) :
    stepsOf index (steps.map .step) = .ok steps := by
  induction steps generalizing index with
  | nil => rfl
  | cons s rest ih =>
    rw [List.map_cons, stepsOf, ih]
    rfl

/-- A destination one version after the source, with the source as its predecessor, is let
through. -/
theorem make_of (hversion : destination.version = source.version + 1)
    (hpredecessor : destination.predecessor = .int source.version) (steps : List Step)
    (description : Value) :
    make source destination (steps.map .step) description =
      .ok ⟨source, destination, steps, description⟩ := by
  have hsucceeds : Migration.succeeds destination source = true := by
    unfold Migration.succeeds
    rw [hversion, hpredecessor, Value.sameBy_int, BEq.rfl]
    rfl
  unfold make
  rw [if_pos hsucceeds, stepsOf_map_step]
  rfl

end Migration
end Lineage
