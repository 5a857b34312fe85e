import Lineage.Error

/-
Outcomes that are values.

A computation in steps gives a value exactly when each of its steps does; a check
made of two parts finds nothing exactly when neither part finds anything.
-/

namespace Lineage
namespace Outcome

variable {α β γ : Type}

theorem bind_eq_ok {x : Outcome α} {next : α → Outcome β} {b : β} :
    (x >>= next) = .ok b ↔ ∃ a, x = .ok a ∧ next a = .ok b := by
  cases x with
  | error e =>
    constructor
    · intro h
      cases h
    · rintro ⟨a, h, -⟩
      cases h
  | ok a =>
    constructor
    · intro h
      exact ⟨a, rfl, h⟩
    · rintro ⟨c, h, hnext⟩
      cases h
      exact hnext

@[simp] theorem ok_bind (a : α) (next : α → Outcome β) : (Except.ok a >>= next) = next a := rfl

@[simp] theorem error_bind (e : Error) (next : α → Outcome β) :
    ((Except.error e : Outcome α) >>= next) = .error e := rfl

@[simp] theorem pure_eq_ok (a : α) : (pure a : Outcome α) = .ok a := rfl

/-- Two lists found one after the other are both empty if nothing is found. -/
theorem append_eq_nil {x y : Outcome (List α)} :
    (do let a ← x; let b ← y; return a ++ b) = (.ok [] : Outcome (List α)) ↔
      x = .ok [] ∧ y = .ok [] := by
  rw [bind_eq_ok]
  constructor
  · rintro ⟨a, hx, h⟩
    obtain ⟨b, hy, h⟩ := bind_eq_ok.mp h
    have hnil : a ++ b = [] := Except.ok.inj h
    obtain ⟨rfl, rfl⟩ := List.append_eq_nil_iff.mp hnil
    exact ⟨hx, hy⟩
  · rintro ⟨hx, hy⟩
    exact ⟨[], hx, by rw [hy]; rfl⟩

/-- A computation that gives some value. -/
def Returns (x : Outcome α) : Prop := ∃ a, x = .ok a

@[simp] theorem returns_ok (a : α) : Returns (.ok a : Outcome α) := ⟨a, rfl⟩

theorem not_returns_error (e : Error) : ¬Returns (.error e : Outcome α) := by
  rintro ⟨a, ha⟩
  cases ha

theorem Returns.bind {x : Outcome α} {next : α → Outcome β} (hx : Returns x)
    (hnext : ∀ a, x = .ok a → Returns (next a)) : Returns (x >>= next) := by
  obtain ⟨a, rfl⟩ := hx
  exact hnext a rfl

theorem Returns.append {x y : Outcome (List α)} (hx : Returns x) (hy : Returns y) :
    Returns (do let a ← x; let b ← y; return a ++ b) :=
  hx.bind fun _ _ => hy.bind fun _ _ => returns_ok _

theorem returns_append {x y : Outcome (List α)} :
    Returns (do let a ← x; let b ← y; return a ++ b) ↔ Returns x ∧ Returns y := by
  constructor
  · rintro ⟨c, h⟩
    obtain ⟨a, hx, h⟩ := bind_eq_ok.mp h
    obtain ⟨b, hy, -⟩ := bind_eq_ok.mp h
    exact ⟨⟨a, hx⟩, b, hy⟩
  · rintro ⟨hx, hy⟩
    exact hx.append hy

/-! ## Errors -/

/-- If this fails, then with an error of a kind. -/
def FailsOnly (P : Error → Prop) (x : Outcome α) : Prop := ∀ e, x = .error e → P e

variable {P Q : Error → Prop}

theorem failsOnly_ok (a : α) : FailsOnly P (.ok a : Outcome α) := by
  intro e h
  cases h

theorem failsOnly_error {e : Error} (h : P e) : FailsOnly P (.error e : Outcome α) := by
  intro f hf
  cases hf
  exact h

theorem failsOnly_mapError {ε : Type} {x : Except ε α} {toError : ε → Error}
    (h : ∀ e, P (toError e)) : FailsOnly P (x.mapError toError) := by
  cases x with
  | ok a => exact failsOnly_ok a
  | error e => exact failsOnly_error (h e)

theorem FailsOnly.bind {x : Outcome α} {next : α → Outcome β} (hx : x.FailsOnly P)
    (hnext : ∀ a, x = .ok a → (next a).FailsOnly P) : (x >>= next).FailsOnly P := by
  cases x with
  | ok a => exact hnext a rfl
  | error e => exact failsOnly_error (hx e rfl)

theorem FailsOnly.imp {x : Outcome α} (h : x.FailsOnly P) (himp : ∀ e, P e → Q e) :
    x.FailsOnly Q :=
  fun e he => himp e (h e he)

theorem Returns.failsOnly {x : Outcome α} (h : x.Returns) : x.FailsOnly P := by
  obtain ⟨a, rfl⟩ := h
  exact failsOnly_ok a

/-- A computation that fails with errors of one kind only and gives values of one kind only. -/
structure Meets (P : Error → Prop) (R : α → Prop) (x : Outcome α) : Prop where
  fails : x.FailsOnly P
  gives : ∀ a, x = .ok a → R a

section Meets

variable {R : α → Prop} {S : β → Prop}

theorem meets_ok {a : α} (h : R a) : Meets P R (.ok a) where
  fails := failsOnly_ok a
  gives := by
    rintro _ ⟨⟩
    exact h

theorem meets_error {e : Error} (h : P e) : Meets P R (.error e : Outcome α) where
  fails := failsOnly_error h
  gives := by
    rintro _ ⟨⟩

theorem Meets.imp {R' : α → Prop} {x : Outcome α} (hx : Meets P R x) (himp : ∀ a, R a → R' a) :
    Meets P R' x where
  fails := hx.fails
  gives a ha := himp a (hx.gives a ha)

theorem Meets.bind {x : Outcome α} {next : α → Outcome β} (hx : Meets P R x)
    (hnext : ∀ a, R a → Meets P S (next a)) : Meets P S (x >>= next) := by
  cases x with
  | ok a => exact hnext a (hx.gives a rfl)
  | error e => exact meets_error (hx.fails e rfl)

/-- What is known of a value beyond its kind is that it was given. -/
theorem FailsOnly.bind_meets {x : Outcome α} {next : α → Outcome β} (hx : x.FailsOnly P)
    (hnext : ∀ a, x = .ok a → Meets P S (next a)) : Meets P S (x >>= next) := by
  cases x with
  | ok a => exact hnext a rfl
  | error e => exact meets_error (hx e rfl)

end Meets

/-! ## Side by side -/

/-- Two outcomes are both errors, or both values in a relation. -/
inductive Alike (R : α → β → Prop) : Outcome α → Outcome β → Prop
  | ok {a : α} {b : β} (h : R a b) : Alike R (.ok a) (.ok b)
  | error (e e' : Error) : Alike R (.error e) (.error e')

theorem Alike.bind {δ : Type} {R : α → β → Prop} {S : γ → δ → Prop} {x : Outcome α}
    {y : Outcome β} {next : α → Outcome γ} {next' : β → Outcome δ} (h : Alike R x y)
    (hnext : ∀ a b, R a b → Alike S (next a) (next' b)) : Alike S (x >>= next) (y >>= next') := by
  cases h with
  | ok h => exact hnext _ _ h
  | error e e' => exact .error e e'

end Outcome
end Lineage
