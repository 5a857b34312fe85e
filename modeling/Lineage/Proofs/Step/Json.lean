import Lineage.Proofs.Step.Safety

/-
Steps keep documents JSON.

What a step puts into a document is a value that was in it before, a result that the step
has checked, or the value that a step adds.  Only the last is not looked at, so a step keeps
a document JSON if what it adds is JSON and the names that it gives are texts.
-/

namespace Lineage
namespace Step

open Lineage.Field

variable {v w : Value} {field : Option Field}

/-- The names under which a step leaves values are texts. -/
def GivesTexts : Step → Prop
  | add _ name _ _ => ∃ s, name = .text s
  | rename _ _ new => ∃ s, new = .text s
  | copy _ _ new => ∃ s, new = .text s
  | split _ _ targets _ => ∀ target ∈ targets, ∃ s, target.1 = .text s
  | merge _ _ target _ _ => ∃ s, target = .text s
  | remove _ _ | retype _ _ _ | restructure _ _ _ => True

/-- A value that a step adds passes the check for JSON. -/
def AddsChecked : Step → Prop
  | add _ _ _ value => value.Checked
  | _ => True

theorem key_of_text {name : Value} (h : ∃ s, name = .text s) :
    ∀ key, keyOf name = .ok key → ∃ s, key = .text s := by
  obtain ⟨s, rfl⟩ := h
  rintro _ ⟨⟩
  exact ⟨s, rfl⟩

theorem GivesTexts.gives {s : Step} (h : s.GivesTexts) :
    s.Gives fun key => ∃ name, key = .text name := by
  cases s with
  | add | rename | copy | merge => exact key_of_text h
  | split => exact h
  | remove | retype | restructure => exact trivial

theorem AddsChecked.adds {s : Step} (h : s.AddsChecked) : s.Adds Value.Checked := by
  cases s with
  | add => exact h
  | _ => exact trivial

/-- A step at the end of its path, wherever that is. -/
theorem apply_checked {s : Step} (hnames : s.GivesTexts) (hadds : s.AddsChecked) (hv : v.Checked)
    (h : s.apply v field = .ok w) : w.Checked := by
  have hwalk : Change.Walkable (fun _ => True) (fun key => ∃ name, key = .text name)
      Value.Checked :=
    { toHereditary := Value.hereditary_checked
      step := fun _ => trivial
      noKind := fun _ _ _ => trivial }
  have hcovers : CoversNames fun _ => True :=
    { badType := trivial
      badPath := fun _ => trivial
      definition := fun _ => trivial }
  have hs : s.Allowed (fun _ => True) (fun key => ∃ name, key = .text name) Value.Checked :=
    { names := fun _ _ => .inr hcovers
      gives := hnames.gives
      adds := hadds.adds
      functions := fun _ _ _ _ _ => .inr trivial }
  exact (apply_meets hwalk (fun _ hw => hw) hs hv).gives w h

end Step
end Lineage
