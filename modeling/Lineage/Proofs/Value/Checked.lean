import Lineage.Json.Printer
import Lineage.Value.Entries
import Lineage.Proofs.Number.Order

/-
Values that JSON can hold.

`Value.check` walks a value with its place and reports the first offence.  Whether
there is one does not depend on the place, so `Checked` is a property of the value
alone, and it holds of a container exactly when it holds of what is inside.
-/

namespace Lineage
namespace Value

/-- A value that passes the check for JSON. -/
def Checked (v : Value) : Prop := v.check "$" = .ok ()

mutual

theorem check_elsewhere {a : String} (b : String) :
    ∀ {v : Value}, v.check a = .ok () → v.check b = .ok ()
  | .scalar (.number (.float d)), h => by
    unfold check at h ⊢
    by_cases hd : d.isFinite = true
    · rw [if_pos hd]
    · rw [if_neg hd] at h
      cases h
  | .scalar (.number (.int _)), _ => rfl
  | .scalar .null, _ => rfl
  | .scalar (.bool _), _ => rfl
  | .scalar (.text _), _ => rfl
  | .array items, h => checkItems_elsewhere b 0 h
  | .object entries, h => checkEntries_elsewhere b h
  | .tuple _, h => nomatch h
  | .set _, h => nomatch h
  | .bytes _, h => nomatch h
  | .thing, h => nomatch h
  | .missing, h => nomatch h

theorem checkItems_elsewhere {a : String} {i : Nat} (b : String) (j : Nat) :
    ∀ {items : List Value}, checkItems a i items = .ok () → checkItems b j items = .ok ()
  | [], _ => rfl
  | v :: rest, h => by
    unfold checkItems at h ⊢
    split at h
    · next hv =>
      rw [check_elsewhere _ hv]
      exact checkItems_elsewhere b (j + 1) h
    · cases h

theorem checkEntries_elsewhere {a : String} (b : String) :
    ∀ {entries : List (Key × Value)},
      checkEntries a entries = .ok () → checkEntries b entries = .ok ()
  | [], _ => rfl
  | (k, v) :: rest, h => by
    unfold checkEntries at h ⊢
    split at h
    · split at h
      · next hv =>
        rw [check_elsewhere _ hv]
        exact checkEntries_elsewhere b h
      · cases h
    · cases h

end

theorem Checked.check {v : Value} (h : v.Checked) (place : String) : v.check place = .ok () :=
  check_elsewhere place h

theorem checked_of_check {v : Value} {place : String} (h : v.check place = .ok ()) : v.Checked :=
  check_elsewhere "$" h

theorem checkItems_eq_ok {place : String} {i : Nat} {items : List Value} :
    checkItems place i items = .ok () ↔ ∀ v ∈ items, v.Checked := by
  induction items generalizing i with
  | nil => simp [checkItems]
  | cons v rest ih =>
    rw [List.forall_mem_cons, ← ih (i := i + 1), checkItems]
    constructor
    · intro h
      split at h
      · next hv => exact ⟨checked_of_check hv, h⟩
      · cases h
    · rintro ⟨hv, hrest⟩
      rw [hv.check]
      exact hrest

theorem checkEntries_eq_ok {place : String} {entries : List (Key × Value)} :
    checkEntries place entries = .ok () ↔
      ∀ e ∈ entries, (∃ name, e.1 = .text name) ∧ e.2.Checked := by
  induction entries with
  | nil => simp [checkEntries]
  | cons e rest ih =>
    obtain ⟨k, v⟩ := e
    rw [List.forall_mem_cons, ← ih]
    constructor
    · intro h
      unfold checkEntries at h
      split at h
      · next name =>
        split at h
        · next hv => exact ⟨⟨⟨name, rfl⟩, checked_of_check hv⟩, h⟩
        · cases h
      · cases h
    · rintro ⟨⟨⟨name, hk⟩, hv⟩, hrest⟩
      obtain rfl : k = .text name := hk
      rw [checkEntries, hv.check]
      exact hrest

theorem checked_array {items : List Value} : (array items).Checked ↔ ∀ v ∈ items, v.Checked :=
  checkItems_eq_ok

theorem checked_object {entries : List (Key × Value)} :
    (object entries).Checked ↔ ∀ e ∈ entries, (∃ name, e.1 = .text name) ∧ e.2.Checked :=
  checkEntries_eq_ok

@[simp] theorem checked_null : null.Checked := rfl

@[simp] theorem checked_bool (b : Bool) : (bool b).Checked := rfl

@[simp] theorem checked_text (s : String) : (text s).Checked := rfl

theorem Checked.isFinite {n : Number} (h : (number n).Checked) : n.isFinite = true := by
  cases n with
  | int k => rfl
  | float d =>
    by_cases hd : d.isFinite = true
    · exact hd
    · unfold Checked Value.check at h
      rw [if_neg hd] at h
      cases h

theorem checked_number {n : Number} (h : n.isFinite = true) : (number n).Checked := by
  cases n with
  | int k => rfl
  | float d => exact if_pos h

theorem Checked.isReal {n : Number} (h : (number n).Checked) : n.isReal = true :=
  Number.isReal_of_isFinite h.isFinite

theorem Checked.ne_missing {v : Value} (h : v.Checked) : v ≠ .missing := by
  rintro rfl
  cases h

/-- A JSON value has one of the six kinds. -/
theorem Checked.kind {v : Value} (h : v.Checked) : ∃ k, v.kind? = some k := by
  cases v with
  | scalar s => exact ⟨_, rfl⟩
  | array items => exact ⟨_, rfl⟩
  | object entries => exact ⟨_, rfl⟩
  | tuple _ => cases h
  | set _ => cases h
  | bytes _ => cases h
  | thing => cases h
  | missing => cases h

end Value

namespace Key

/-- Only a text is the same key as a text, and only the same text. -/
theorem same_text_iff {k : Key} {name : String} : k.same (.text name) = true ↔ k = .text name := by
  cases k with
  | scalar s =>
    cases s <;> simp [same, Scalar.sameBy, Scalar.asNumber?, Scalar.equal]
  | tuple items => simp [same]
  | bytes s => simp [same]
  | thing => simp [same]
  | missing => simp [same]

theorem text?_eq_some {k : Key} {name : String} : k.text? = some name ↔ k = .text name := by
  constructor
  · intro h
    unfold text? at h
    split at h
    · cases h
      rfl
    · cases h
  · rintro rfl
    rfl

@[simp] theorem text_same_text {a b : String} :
    (Key.text a).same (.text b) = decide (a = b) := by
  rw [Bool.eq_iff_iff, same_text_iff]
  simp

theorem text_same_iff {k : Key} {name : String} :
    (Key.text name).same k = true ↔ k = .text name := by
  cases k with
  | scalar s =>
    cases s with
    | text other => simpa using eq_comm
    | _ => simp [same, Scalar.sameBy, Scalar.asNumber?, Scalar.equal]
  | tuple items => simp [same]
  | bytes s => simp [same]
  | thing => simp [same]
  | missing => simp [same]

end Key

namespace Entries

variable {α : Type}

theorem mem_of_find? {key : Key} {entries : List (Key × α)} {v : α}
    (h : find? key entries = some v) : ∃ e ∈ entries, e.1.same key = true ∧ e.2 = v := by
  induction entries with
  | nil => cases h
  | cons e rest ih =>
    unfold find? at h
    split at h
    · next hk =>
      cases h
      exact ⟨e, List.mem_cons_self, hk, rfl⟩
    · obtain ⟨d, hd, hsame⟩ := ih h
      exact ⟨d, List.mem_cons_of_mem _ hd, hsame⟩

theorem mem_of_find?_text {name : String} {entries : List (Key × α)} {v : α}
    (h : find? (.text name) entries = some v) : (Key.text name, v) ∈ entries := by
  obtain ⟨⟨k, w⟩, hmem, hk, rfl⟩ := mem_of_find? h
  rw [← Key.same_text_iff.mp hk]
  exact hmem

end Entries

namespace Value

theorem Checked.find? {entries : List (Key × Value)} {name : String} {v : Value}
    (h : (object entries).Checked) (hv : Entries.find? (.text name) entries = some v) :
    v.Checked :=
  (checked_object.mp h _ (Entries.mem_of_find?_text hv)).2

end Value
end Lineage
