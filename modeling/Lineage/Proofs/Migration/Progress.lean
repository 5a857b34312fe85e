import Lineage.Format.Email
import Lineage.Migration
import Lineage.Proofs.Field.Agreement
import Lineage.Proofs.Format.Exclusive
import Lineage.Proofs.Step.Progress

/-
Well-typed migrations never fail.

A migration is well typed when each of its steps is, at every field at the end of its
path in the tree that the steps before it leave.  The steps then carry a document that
fits the source to one that fits the tree they derive.  Without drift that tree and the
destination stand for the same values, and validation accepts what is meant.
-/

namespace Lineage
namespace Migration

open Lineage.Field

section

variable [Externals]

/-- Each step is well typed in the tree that the steps before it leave. -/
def StepsTyped : List Step → Field → Prop
  | [], _ => True
  | s :: rest, f => (∀ t ∈ f.targets s.path.segments, s.TypedAt t) ∧
    ∀ f', s.transformField f = .ok f' → StepsTyped rest f'

/-- What the author of a migration has to see to. -/
structure WellTyped (m : Migration) : Prop where
  strict : m.source.strict.truthy = true
  source : m.source.root.Admissible
  destination : m.destination.root.Admissible
  wellMade : ∀ s ∈ m.steps, s.WellMade
  stepsTyped : StepsTyped m.steps m.source.root

omit [Externals] in
theorem stage_eq_ok {α : Type} {index : Nat} {s : Step} {x : Outcome α} {a : α} :
    stage index s x = .ok a ↔ x = .ok a := by
  unfold stage
  split
  · constructor
    · intro h
      cases h
    · intro h
      cases h
  · exact Iff.rfl

/-! ## Folding the steps -/

/-- Documents stay in step with the field tree along all steps. -/
theorem applyFrom_fits (hexclusive : Format.Exclusive) {steps : List Step} {f f' : Field}
    {index : Nat} {v : Value} (hf : f.Everywhere Typed) (hv : f.Fits v)
    (hmade : ∀ s ∈ steps, s.WellMade) (htyped : StepsTyped steps f)
    (h : deriveFrom index steps f = .ok f') :
    f'.Everywhere Typed ∧ ∃ w, applyFrom index steps v f = .ok w ∧ f'.Fits w := by
  induction steps generalizing f v index with
  | nil =>
    cases h
    exact ⟨hf, v, rfl, hv⟩
  | cons s rest ih =>
    obtain ⟨hs, hrest⟩ := List.forall_mem_cons.mp hmade
    obtain ⟨hhere, hlater⟩ := htyped
    obtain ⟨g, hg, hmore⟩ := Outcome.bind_eq_ok.mp h
    have htransform := stage_eq_ok.mp hg
    have hadvances := Step.advances hexclusive hs hf hhere htransform
    obtain ⟨u, hu, hfits⟩ := hadvances.value v .root hv
    obtain ⟨hafter, w, hw, hwfits⟩ := ih hadvances.typed hfits hrest (hlater g htransform) hmore
    refine ⟨hafter, w, ?_, hwfits⟩
    have happly : stage index s (s.apply v (some f)) = .ok u := stage_eq_ok.mpr hu
    rw [applyFrom, happly, Outcome.ok_bind, hg]
    exact hw

/-- Without drift the steps derive a tree between which and the destination the comparison
finds nothing. -/
theorem derive_of_drift {m : Migration} (h : m.drift = .ok []) :
    ∃ derived, m.derive = .ok derived ∧ Matches m.destination.root derived := by
  obtain ⟨derived, hderived, h⟩ := Outcome.bind_eq_ok.mp h
  exact ⟨derived, hderived, .root, Except.ok.inj h⟩

/-! ## Running -/

theorem checkSource_eq_ok {m : Migration} {v : Value} (h : m.source.validate v = .ok []) :
    m.checkSource v = .ok () := by
  unfold checkSource
  rw [h]
  rfl

theorem checkDestination_eq_ok {m : Migration} {v : Value}
    (h : m.destination.validate v = .ok []) : m.checkDestination v = .ok () := by
  unfold checkDestination
  rw [h]
  rfl

/-- What a run returns is what the steps made of a document that conforms to the source, and
it conforms to the destination. -/
theorem run_eq_ok {m : Migration} {v w : Value} (h : m.run v = .ok w) :
    m.source.validate v = .ok [] ∧ m.apply v = .ok w ∧ m.drift = .ok [] ∧
      m.destination.validate w = .ok [] := by
  obtain ⟨⟨⟩, hsource, h⟩ := Outcome.bind_eq_ok.mp h
  obtain ⟨result, hresult, h⟩ := Outcome.bind_eq_ok.mp h
  obtain ⟨differences, hdifferences, h⟩ := Outcome.bind_eq_ok.mp h
  obtain ⟨⟨⟩, hdrift, h⟩ := Outcome.bind_eq_ok.mp h
  obtain ⟨⟨⟩, hdestination, h⟩ := Outcome.bind_eq_ok.mp h
  cases h
  refine ⟨?_, hresult, ?_, ?_⟩
  · obtain ⟨violations, hviolations, hnone⟩ := Outcome.bind_eq_ok.mp hsource
    split at hnone
    · exact hviolations
    · cases hnone
  · unfold checkDrift at hdrift
    split at hdrift
    · next hempty => rw [hdifferences, List.isEmpty_iff.mp hempty]
    · cases hdrift
  · obtain ⟨violations, hviolations, hnone⟩ := Outcome.bind_eq_ok.mp hdestination
    split at hnone
    · exact hviolations
    · cases hnone

/-- A well-typed migration without drift migrates every document that conforms to its source,
and what it gives is a document that conforms to its destination. -/
theorem wellTyped_run_succeeds (hexclusive : Format.Exclusive) {m : Migration} (hm : m.WellTyped)
    (hdrift : m.drift = .ok []) {v : Value} (hv : v.IsJson)
    (hsource : m.source.validate v = .ok []) :
    ∃ w, m.run v = .ok w ∧ w.IsJson ∧ m.destination.validate w = .ok [] := by
  have hroot := hm.source.typed
  have hmeans : Means true m.source.root v := by
    have hmeant := means_of_validate hm.source.realBounds hv.checked hsource
    have hstrict : m.source.options.strict = true := hm.strict
    rwa [hstrict] at hmeant
  obtain ⟨derived, hderive, hmatches⟩ := derive_of_drift hdrift
  obtain ⟨htyped, w, hw, hfits⟩ :=
    applyFrom_fits hexclusive hroot ⟨hv, hmeans⟩ hm.wellMade hm.stepsTyped hderive
  have hdestination : Means true m.destination.root w :=
    means_of_matches hm.destination.notCustom hm.destination.declaredTypes
      (fun g hg => (htyped g hg).declaredTypes) hmatches hfits.means
  have hvalid : m.destination.validate w = .ok [] :=
    validate_of_means hexclusive (fun g hg => (hm.destination.typed g hg).toRegular)
      hfits.json.checked (Means.of_strict hdestination)
  refine ⟨w, ?_, hfits.json, hvalid⟩
  have happly : m.apply v = .ok w := hw
  unfold run runWith
  rw [checkSource_eq_ok hsource, Outcome.ok_bind, happly, Outcome.ok_bind, hdrift, Outcome.ok_bind]
  show (do
    checkDestination m w
    return w) = _
  rw [checkDestination_eq_ok hvalid]
  rfl

end

/-- A flag is renamed, and a flag that may be absent becomes null or stays absent. -/
theorem wellTyped_run_succeeds_renamed :
    let before : Field := .object (Member.derived [("on", .boolean), ("seen", .optional .boolean)])
    let after : Field := .object (Member.derived [("seen", .optional .null), ("active", .boolean)])
    let forget : AuthorFn := ⟨"forget", fun _ => .ok .null⟩
    let m : Migration :=
      { source := { version := 1, root := before }
        destination := { version := 2, root := after, predecessor := .int 1 }
        steps := [.rename .root (.text "on") (.text "active"),
          .retype ⟨[.key "seen"]⟩ (.optional .null) forget] }
    let v : Value := .object [(.text "seen", .bool true), (.text "on", .bool false)]
    ∃ w, m.run v = .ok w ∧ w.IsJson ∧ m.destination.validate w = .ok [] := by
  intro before after forget m v
  have hnull : (Field.optional .null).Admissible := admissible_null.optional
  have hseen : (Field.optional .boolean).Admissible := admissible_boolean.optional
  have hbefore : before.Admissible := admissible_derived (by decide)
    (List.forall_mem_cons.mpr ⟨admissible_boolean, List.forall_mem_singleton.mpr hseen⟩)
  have hafter : after.Admissible := admissible_derived (by decide)
    (List.forall_mem_cons.mpr ⟨hnull, List.forall_mem_singleton.mpr admissible_boolean⟩)
  have hrename : (Step.rename .root (.text "on") (.text "active")).WellMade :=
    ⟨@Step.Made.rename _ .null (.text "on") (.text "active") _ rfl, nofun, trivial⟩
  have hretype : (Step.retype ⟨[.key "seen"]⟩ (.optional .null) forget).WellMade :=
    ⟨@Step.Made.retype _ (.array [.text "seen"]) (.field (.optional .null)) (some forget) _ rfl,
      List.forall_mem_singleton.mpr hnull, trivial⟩
  have htyped : StepsTyped m.steps m.source.root := by
    refine ⟨fun _ _ => trivial, fun f' hf' => ⟨fun t ht => ?_, fun _ _ => trivial⟩⟩
    have hrenamed : f' = .object
        (Member.derived [("active", .boolean), ("seen", .optional .boolean)]) :=
      (Except.ok.inj hf').symm
    rw [hrenamed] at ht
    obtain rfl : t = .optional .boolean := List.mem_singleton.mp ht
    exact ⟨fun _ => rfl, fun _ _ => ⟨.null, rfl, Value.isJson_scalar rfl, rfl⟩⟩
  have hjson : v.IsJson := Value.isJson_object.mpr
    ⟨List.pairwise_cons.mpr ⟨List.forall_mem_singleton.mpr rfl, List.pairwise_singleton _ _⟩,
      List.forall_mem_cons.mpr ⟨⟨⟨_, rfl⟩, Value.isJson_scalar rfl⟩,
        List.forall_mem_singleton.mpr ⟨⟨_, rfl⟩, Value.isJson_scalar rfl⟩⟩⟩
  have hwellTyped : m.WellTyped := ⟨rfl, hbefore, hafter,
    List.forall_mem_cons.mpr ⟨hrename, List.forall_mem_singleton.mpr hretype⟩, htyped⟩
  exact wellTyped_run_succeeds Email.exclusive hwellTyped rfl hjson rfl

end Migration
end Lineage
