import Lineage.Proofs.Change.Walk
import Lineage.Proofs.Value.Edited

/-
What a change along a path can fail with and what it leaves behind.

The walk over a value fails only where the change at its end does, or as a step, as long as
every part of the value is of some kind; and it stays in any class of values that the change
stays in.  The walk over a field tree also rewrites defaults and checks them again, so it
asks of the fields that such a check cannot fail in other ways.
-/

namespace Lineage
namespace Change

open Outcome

variable {P : Error → Prop} {K : Key → Prop} {V : Value → Prop} {Q : Field → Prop}
variable {c : Change} {place : Path}

/-! ## Parts of containers -/

section Lists

variable {α : Type} {R : α → Prop} {as : List α}

theorem updateEach_meets {update : Nat → α → Outcome α} {index : Nat}
    (h : ∀ i, ∀ a ∈ as, (update i a).Meets P R) :
    (updateEach update index as).Meets P fun bs => ∀ b ∈ bs, R b := by
  induction as generalizing index with
  | nil => exact meets_ok (List.forall_mem_nil R)
  | cons a rest ih =>
    exact (h index a List.mem_cons_self).bind fun b hb =>
      (ih fun i a ha => h i a (List.mem_cons_of_mem _ ha)).bind fun bs hbs =>
        meets_ok (List.forall_mem_cons.mpr ⟨hb, hbs⟩)

theorem updateItem_meets {update : α → Outcome α} {i : Nat} (has : ∀ a ∈ as, R a)
    (h : ∀ a ∈ as, (update a).Meets P R) :
    (updateItem update i as).Meets P fun bs => ∀ b ∈ bs, R b := by
  induction as generalizing i with
  | nil => cases i <;> exact meets_ok (List.forall_mem_nil R)
  | cons a rest ih =>
    obtain ⟨ha, hrest⟩ := List.forall_mem_cons.mp has
    obtain ⟨hupdate, hmore⟩ := List.forall_mem_cons.mp h
    cases i with
    | zero => exact hupdate.bind fun b hb => meets_ok (List.forall_mem_cons.mpr ⟨hb, hrest⟩)
    | succ i =>
      exact (ih hrest hmore).bind fun bs hbs => meets_ok (List.forall_mem_cons.mpr ⟨ha, hbs⟩)

end Lists

section

variable (hstep : ∀ e, P (.step e))

include hstep

theorem fails_failsOnly {α : Type} (kind : StepError.Kind) (message : String) (path : Path) :
    (fails kind message path : Outcome α).FailsOnly P := failsOnly_error (hstep _)

theorem indexAt_failsOnly (segment : Segment) (length : Nat) (place : Path) :
    (indexAt segment length place).FailsOnly P := by
  unfold indexAt
  split
  · exact failsOnly_ok _
  · exact fails_failsOnly hstep _ _ _
  · exact fails_failsOnly hstep _ _ _

end

/-! ## Values -/

/-- What has to hold of errors and of a class of values for walks over them to be safe: a
step may fail, and only a value of some kind is no reason to fail otherwise. -/
structure Walkable (P : Error → Prop) (K : Key → Prop) (V : Value → Prop) : Prop
    extends Value.Hereditary K V where
  step : ∀ e, P (.step e)
  noKind : ∀ v, V v → v.kind? = none → P (.notJson { typeName := v.typeName })

theorem noContainer_meets (hP : Walkable P K V) {v : Value} (hv : V v) :
    (noContainer v place).Meets P V := by
  unfold noContainer
  split
  · exact meets_error (hP.step _)
  · next hkind => exact meets_error (hP.noKind v hv hkind)

/-- Along a path a change fails and gives what it fails and gives at the end. -/
theorem onValueAt_meets (hP : Walkable P K V)
    (hc : ∀ v field place, V v → (c.onValue v field place).Meets P V) {segments : List Segment}
    {field : Option Field} {v : Value} (hv : V v) :
    (c.onValueAt segments field place v).Meets P V := by
  induction segments generalizing field place v with
  | nil =>
    unfold onValueAt
    split
    · exact hc _ _ _ hv
    · split
      · exact meets_ok hv
      · exact hc _ _ _ hv
  | cons segment rest ih =>
    unfold onValueAt
    split
    · exact meets_ok hv
    · simp only
      split
      · next entries =>
        split
        · next child hchild =>
          exact (ih (hP.find? hv hchild)).bind fun w hw =>
            meets_ok (hP.put hv (hP.text_key _) hw)
        · split
          · exact meets_ok hv
          · exact meets_error (hP.step _)
      · next items =>
        have hitems := hP.array_iff.mp hv
        split
        · exact (updateEach_meets fun i a ha => ih (hitems a ha)).bind fun bs hbs =>
            meets_ok (hP.array_iff.mpr hbs)
        · exact (indexAt_failsOnly hP.step _ _ _).bind_meets fun i _ =>
            (updateItem_meets hitems fun a ha => ih (hitems a ha)).bind fun bs hbs =>
              meets_ok (hP.array_iff.mpr hbs)
      · exact noContainer_meets hP hv

/-! ## Fields -/

variable [Externals]

/-- Conditions on single fields that are kept wherever a tree is rebuilt, and that make its
defaults fit for the walk and the check of new defaults safe. -/
structure Rebuildable (P : Error → Prop) (V : Value → Prop) (Q : Field → Prop) : Prop where
  element : ∀ {f g low high}, Q (.array f low high) → Q (.array g low high)
  items : ∀ fs, Q (.tuple fs)
  members : ∀ ms, Q (.object ms)
  inner : ∀ f, Q (.optional f)
  default : ∀ f {v : Value}, v.Checked → Q (.defaulted f v)
  ofDefault : ∀ {f v}, Q (.defaulted f v) → V v
  check : ∀ {f : Field} {v : Value}, f.Everywhere Q → v.Checked → (f.check {} v).FailsOnly P

theorem makeDefaulted_eq_error {inner : Field} {v : Value} {e : Error}
    (h : Field.makeDefaulted (.field inner) v = .error e) :
    (∃ d, e = .definition d) ∨ (v.Checked ∧ inner.check {} v = .error e) := by
  unfold Field.makeDefaulted Field.child? at h
  rw [ok_bind] at h
  split at h
  · cases h
    exact .inl ⟨_, rfl⟩
  · next hchecked =>
    cases hcheck : inner.check {} v with
    | error e' =>
      rw [hcheck] at h
      cases h
      exact .inr ⟨hchecked, rfl⟩
    | ok violations =>
      rw [hcheck] at h
      cases violations with
      | nil => cases h
      | cons first rest =>
        cases h
        exact .inl ⟨_, rfl⟩

section Fields

variable (hstep : ∀ e, P (.step e)) (hQ : Rebuildable P V Q)

include hstep hQ

theorem refit_meets {inner : Field} {value : Value} (hinner : inner.Everywhere Q) :
    (refit inner value place).Meets P (Field.Everywhere Q) := by
  unfold refit
  split
  · exact meets_error (hstep _)
  · next hother =>
    cases hmake : Field.makeDefaulted (.field inner) value with
    | ok f =>
      obtain ⟨hchecked, -, rfl⟩ := Field.makeDefaulted_eq_ok hmake
      exact meets_ok (Field.everywhere_defaulted (hQ.default inner hchecked) hinner)
    | error e =>
      rcases makeDefaulted_eq_error hmake with ⟨d, rfl⟩ | ⟨hchecked, hcheck⟩
      · exact absurd hmake (hother d)
      · exact meets_error (hQ.check hinner hchecked e hcheck)

theorem throughWrappers_meets {core : Field → Outcome Field}
    {onDefault : Field → Value → Outcome Value}
    (hcore : ∀ f, f.Everywhere Q → (core f).Meets P (Field.Everywhere Q))
    (hdefault : ∀ f v, V v → (onDefault f v).FailsOnly P) {f : Field} (hf : f.Everywhere Q) :
    (throughWrappers core onDefault place f).Meets P (Field.Everywhere Q) := by
  induction f with
  | optional inner ih =>
    exact (ih hf.optionalInner).bind fun g hg =>
      meets_ok (Field.everywhere_optional (hQ.inner g) hg)
  | defaulted inner value ih =>
    exact (ih hf.defaultedInner).bind fun g hg =>
      (hdefault inner value (hQ.ofDefault hf.here)).bind_meets fun _ _ => refit_meets hstep hQ hg
  | _ => exact hcore _ hf

theorem descend_meets {update : Path → Field → Outcome Field}
    (h : ∀ q f, f.Everywhere Q → (update q f).Meets P (Field.Everywhere Q)) {segment : Segment}
    {f : Field} (hf : f.Everywhere Q) :
    (descend update segment place f).Meets P (Field.Everywhere Q) := by
  unfold descend
  split
  · next members =>
    simp only
    split
    · next previous hprevious =>
      have hmem := Member.mem_of_find? hprevious
      refine (h _ _ (hf.objectMember hmem)).bind fun child hchild =>
        meets_ok (Field.everywhere_object (hQ.members _) fun m hm => ?_)
      rcases Member.mem_put hm with rfl | hm
      · exact hchild
      · exact hf.objectMember hm
    · exact meets_error (hstep _)
  · split
    · exact (h _ _ hf.arrayElement).bind fun g hg =>
        meets_ok (Field.everywhere_array (hQ.element hf.here) hg)
    · exact meets_error (hstep _)
  · next items =>
    have hitems : ∀ g ∈ items, g.Everywhere Q := fun g hg => hf.tupleItem hg
    split
    · exact (updateEach_meets fun i g hg => h _ g (hitems g hg)).bind fun gs hgs =>
        meets_ok (Field.everywhere_of (hQ.items gs) hgs)
    · exact (indexAt_failsOnly hstep _ _ _).bind_meets fun i _ =>
        (updateItem_meets hitems fun g hg => h _ g (hitems g hg)).bind fun gs hgs =>
          meets_ok (Field.everywhere_of (hQ.items gs) hgs)
  · exact meets_error (hstep _)

end Fields

/-- Along a path a change of fields fails and gives what it fails and gives at the end, and
what the change of values does to the defaults on the way. -/
theorem onFieldAt_meets (hP : Walkable P K V) (hQ : Rebuildable P V Q)
    (hvalue : ∀ v field place, V v → (c.onValue v field place).Meets P V)
    (hfield : ∀ f place, f.Everywhere Q → (c.onField f place).Meets P (Field.Everywhere Q))
    {segments : List Segment} {f : Field} (hf : f.Everywhere Q) :
    (c.onFieldAt segments place f).Meets P (Field.Everywhere Q) := by
  induction segments generalizing place f with
  | nil =>
    unfold onFieldAt
    split
    · exact throughWrappers_meets hP.step hQ (fun f hf => hfield f _ hf)
        (fun _ _ hv => (onValueAt_meets hP hvalue hv).fails) hf
    · exact hfield f _ hf
  | cons segment rest ih =>
    exact throughWrappers_meets hP.step hQ
      (fun _ hf => descend_meets hP.step hQ (fun _ _ => ih) hf)
      (fun _ _ hv => (onValueAt_meets hP hvalue hv).fails) hf

end Change
end Lineage
