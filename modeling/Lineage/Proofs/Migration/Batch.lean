import Lineage.Format.Email
import Lineage.Migration.Batch
import Lineage.Proofs.Migration.Failure

/-
A batch says of each document what a run of its own would have said.

A run finds the drift after the steps, where a document that was refused before never gets
to; a batch finds it once, before any document.  If the drift can be found at all, the two
orders cannot be told apart, and the outcomes of a batch are those of the runs, document by
document.  Values and counts are then read off the runs.
-/

namespace Lineage

open Outcome

namespace Migrated

/-- What a run that ends as this document did gives. -/
def outcome (o : Migrated) : Outcome Value := o.result.mapError Error.migration

variable {o : Migrated}

theorem outcome_eq_ok {w : Value} : o.outcome = .ok w ↔ o.result = .ok w := by
  unfold outcome
  cases o.result with
  | ok u =>
    show (Except.ok u : Outcome Value) = .ok w ↔ _
    rw [Except.ok.injEq, Except.ok.injEq]
  | error e => exact ⟨nofun, nofun⟩

theorem outcome_eq_error {e : MigrationError} :
    o.outcome = .error (.migration e) ↔ o.result = .error e := by
  unfold outcome
  cases o.result with
  | ok u => exact ⟨nofun, nofun⟩
  | error f =>
    show (Except.error (.migration f) : Outcome Value) = .error (.migration e) ↔ _
    rw [Except.error.injEq, Except.error.injEq, Error.migration.injEq]

theorem toOption_outcome (o : Migrated) : o.outcome.toOption = o.result.toOption := by
  unfold outcome
  cases o.result with
  | ok => rfl
  | error => rfl

theorem isOk_outcome (o : Migrated) : o.outcome.isOk = Batch.isDone o := by
  unfold outcome Batch.isDone
  cases o.result with
  | ok => rfl
  | error => rfl

end Migrated

namespace Batch

open Migration

variable {m : Migration} {drift : List Difference} {documents : List Value}
  {outcomes : List Migrated} {settings : Settings} {v : Value}

/-! ## Workers -/

/-- A count of workers as a caller passes it, or none. -/
def workersValue : Option Nat → Value
  | none => .null
  | some n => .int n

theorem checkWorkers_number {n : Number} (hzero : n.isZero = false)
    (hless : n.lt (.int 0) = false) : checkWorkers (.number n) settings = .ok () := by
  have htruthy : (Value.number n).truthy = true := by
    rw [Value.truthy, Scalar.truthy, hzero, Bool.not_false]
  simp only [checkWorkers, htruthy, if_true, Scalar.asNumber?, hzero, hless, Bool.or_false,
    Bool.false_eq_true, if_false]

/-- A number of workers that counts as false leaves the choice to the settings. -/
theorem checkWorkers_settings (hs : settings.AsksForSome) (hv : v.truthy = false) :
    checkWorkers v settings = .ok () := by
  cases hworkers : settings.batchWorkers with
  | none => simp only [checkWorkers, hv, hworkers, Bool.false_eq_true, if_false]
  | some n =>
    have hpos : 1 ≤ n := hs n hworkers
    have hzero : (Number.int n).isZero = false := by
      rw [Number.isZero, Number.same_int]
      exact beq_false_of_ne (by omega)
    have hless : (Number.int n).lt (.int 0) = false := Number.int_lt_zero (by omega)
    simp only [checkWorkers, hv, hworkers, Bool.false_eq_true, if_false, Scalar.asNumber?, hzero,
      hless, Bool.or_false]

/-- No count of workers is refused. -/
theorem checkWorkers_of_count (workers : Option Nat) (hs : settings.AsksForSome) :
    checkWorkers (workersValue workers) settings = .ok () := by
  cases workers with
  | none => exact checkWorkers_settings hs rfl
  | some n =>
    have hless : (Number.int n).lt (.int 0) = false := Number.int_lt_zero (Int.natCast_nonneg n)
    cases hzero : (Number.int n).isZero with
    | false => exact checkWorkers_number hzero hless
    | true =>
      refine checkWorkers_settings hs ?_
      rw [workersValue, Value.truthy, Scalar.truthy, hzero, Bool.not_true]

/-! ## Outcomes -/

section

variable [Externals]

/-- One document ends as its run does, whether the drift is found now or was before. -/
theorem migrate_eq_ok (index : Nat) (hdrift : m.drift = .ok drift)
    (hv : (m.run v).FailsOnly IsMigrationError) :
    ∃ o, migrate m drift index v = .ok o ∧ o.index = index ∧ o.outcome = m.run v := by
  have hrun : m.runWith (.ok drift) v = m.run v := by
    unfold Migration.run
    rw [hdrift]
  unfold migrate
  rw [hrun]
  cases h : m.run v with
  | ok w => exact ⟨⟨index, .ok w⟩, rfl, rfl, rfl⟩
  | error e =>
    obtain ⟨cause, rfl⟩ := hv e h
    exact ⟨⟨index, .error cause⟩, rfl, rfl, rfl⟩

theorem migrateFrom_eq_ok (first : Nat) (hdrift : m.drift = .ok drift)
    (hdocuments : ∀ v ∈ documents, (m.run v).FailsOnly IsMigrationError) :
    ∃ outcomes, migrateFrom m drift first documents = .ok outcomes ∧
      outcomes.map Migrated.index = List.range' first documents.length ∧
      outcomes.map Migrated.outcome = documents.map m.run := by
  induction documents generalizing first with
  | nil => exact ⟨[], rfl, rfl, rfl⟩
  | cons v rest ih =>
    obtain ⟨hv, hrest⟩ := List.forall_mem_cons.mp hdocuments
    obtain ⟨o, ho, hindex, houtcome⟩ := migrate_eq_ok first hdrift hv
    obtain ⟨later, hlater, hindices, houtcomes⟩ := ih (first + 1) hrest
    refine ⟨o :: later, ?_, ?_, ?_⟩
    · rw [migrateFrom, ho, ok_bind, hlater]
      rfl
    · rw [List.map_cons, hindex, hindices, List.length_cons, List.range'_succ]
    · rw [List.map_cons, List.map_cons, houtcome, houtcomes]

/-! ## Values and counts -/

theorem values_of_outcomes (h : outcomes.map Migrated.outcome = documents.map m.run) :
    outcomes.filterMap (fun o => o.result.toOption) =
      documents.filterMap fun v => (m.run v).toOption := by
  have hresults : outcomes.filterMap (fun o => o.result.toOption) =
      (outcomes.map Migrated.outcome).filterMap Except.toOption := by
    rw [List.filterMap_map]
    exact List.filterMap_congr fun o _ => o.toOption_outcome.symm
  rw [hresults, h, List.filterMap_map]
  rfl

/-- `keep` tells which of the two endings are counted. -/
theorem count_of_outcomes (keep : Bool → Bool)
    (h : outcomes.map Migrated.outcome = documents.map m.run) :
    (outcomes.filter fun o => keep (isDone o)).length =
      documents.countP fun v => keep (m.run v).isOk := by
  have hkept : (outcomes.filter fun o => keep (isDone o)).length =
      (outcomes.map Migrated.outcome).countP fun x => keep x.isOk := by
    rw [List.countP_map, ← List.countP_eq_length_filter]
    exact List.countP_congr fun o _ => by rw [Function.comp_apply, o.isOk_outcome]
  rw [hkept, h, List.countP_map]
  rfl

/-- A batch returns, whatever the drift and the workers, if the drift can be found and each
document alone is migrated or refused by the migration.  It has one outcome for each document,
in their order, with the value or the very error of the document's own run; its values are
those of the runs that return, and its summary counts the two kinds of runs. -/
theorem run_agrees (hdrift : m.drift = .ok drift)
    (hdocuments : ∀ v ∈ documents,
      (∃ w, m.run v = .ok w) ∨ ∃ e, m.run v = .error (.migration e))
    (hsettings : settings.AsksForSome) (workers : Option Nat) :
    ∃ b : Batch, run m documents (workersValue workers) settings = .ok b ∧
      b.outcomes.length = documents.length ∧
      (∀ (i : Nat) (v : Value), documents[i]? = some v →
        ∃ o : Migrated, b.outcomes[i]? = some o ∧ o.index = i ∧
          (∀ w, o.result = .ok w ↔ m.run v = .ok w) ∧
          ∀ e, o.result = .error e ↔ m.run v = .error (.migration e)) ∧
      b.values = documents.filterMap (fun v => (m.run v).toOption) ∧
      ∃ done failed : Nat, b.summary.migrated = .int done ∧ b.summary.failed = .int failed ∧
        done = documents.countP (fun v => (m.run v).isOk) ∧
        failed = documents.countP (fun v => !(m.run v).isOk) ∧
        done + failed = documents.length := by
  have hfails : ∀ v ∈ documents, (m.run v).FailsOnly IsMigrationError := by
    intro v hv e he
    rcases hdocuments v hv with ⟨w, hw⟩ | ⟨cause, hcause⟩
    · cases hw.symm.trans he
    · exact ⟨cause, Except.error.inj (he.symm.trans hcause)⟩
  obtain ⟨outcomes, houtcomes, hindices, hruns⟩ := migrateFrom_eq_ok 0 hdrift hfails
  have hlength : outcomes.length = documents.length := by
    simpa only [List.length_map] using congrArg List.length hruns
  refine ⟨ofOutcomes m outcomes, ?_, hlength, ?_, values_of_outcomes hruns, _, _, rfl, rfl,
    count_of_outcomes id hruns, count_of_outcomes not hruns, ?_⟩
  · rw [run, hdrift, ok_bind, checkWorkers_of_count workers hsettings, ok_bind, houtcomes]
    rfl
  · intro i v hv
    have hi : i < outcomes.length := by
      rw [hlength]
      exact (List.getElem?_eq_some_iff.mp hv).1
    have hget : outcomes[i]? = some outcomes[i] := List.getElem?_eq_getElem hi
    have hindex : some outcomes[i].index = some i := by
      have h := congrArg (·[i]?) hindices
      rw [List.getElem?_map, hget, List.getElem?_range' (by omega)] at h
      simpa using h
    have hrun : some outcomes[i].outcome = some (m.run v) := by
      have h := congrArg (·[i]?) hruns
      rwa [List.getElem?_map, List.getElem?_map, hget, hv] at h
    refine ⟨outcomes[i], hget, Option.some.inj hindex, fun w => ?_, fun e => ?_⟩
    · rw [← Option.some.inj hrun, Migrated.outcome_eq_ok]
    · rw [← Option.some.inj hrun, Migrated.outcome_eq_error]
  · have hsum := List.length_eq_countP_add_countP isDone (l := outcomes)
    simp only [Bool.not_eq_true, Bool.decide_eq_false, List.countP_eq_length_filter] at hsum
    rw [← hlength, hsum]

end

/-- Two documents of which the second is refused. -/
theorem run_agrees_refused :
    let m : Migration :=
      { source := { version := 1, root := .boolean }
        destination := { version := 2, root := .boolean, predecessor := .int 1 }
        steps := [] }
    let documents : List Value := [.bool true, .text "no"]
    m.drift = .ok [] ∧ (∃ w, m.run (.bool true) = .ok w) ∧
      (∃ e, m.run (.text "no") = .error (.migration e)) ∧
      ∃ b : Batch, run m documents (workersValue (some 3)) {} = .ok b ∧
        b.values = [.bool true] ∧ b.summary.migrated = .int 1 ∧ b.summary.failed = .int 1 := by
  intro m documents
  have hdrift : m.drift = .ok [] := rfl
  have hfirst : m.run (.bool true) = .ok (.bool true) := rfl
  have hsecond : ∃ e, m.run (.text "no") = .error (.migration e) := ⟨_, rfl⟩
  have hruns : ∀ v ∈ documents,
      (∃ w, m.run v = .ok w) ∨ ∃ e, m.run v = .error (.migration e) :=
    List.forall_mem_cons.mpr ⟨.inl ⟨_, hfirst⟩, List.forall_mem_singleton.mpr (.inr hsecond)⟩
  have hsettings : Settings.AsksForSome {} := nofun
  obtain ⟨b, hb, -, -, hvalues, done, failed, hdone, hfailed, rfl, rfl, -⟩ :=
    run_agrees hdrift hruns hsettings (some 3)
  exact ⟨hdrift, ⟨_, hfirst⟩, hsecond, b, hb, hvalues, hdone, hfailed⟩

end Batch
end Lineage
