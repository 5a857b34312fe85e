import Lineage.Value.Equality
import Lineage.Proofs.Value.Json
import Mathlib.Data.List.Forall2

/-
Structural equality.

Of scalars it is an equivalence on those that are not NaN, and every JSON value equals
itself.
-/

namespace Lineage
namespace Scalar

theorem equal_comm (a b : Scalar) : a.equal b = b.equal a := by
  cases a <;> cases b <;> simp [equal, Bool.beq_comm, Number.same_comm]

theorem equal_trans {a b c : Scalar} (hab : a.equal b = true) (hbc : b.equal c = true) :
    a.equal c = true := by
  cases a with
  | null =>
    cases b with
    | null => exact hbc
    | _ => cases hab
  | bool x =>
    cases b with
    | bool y =>
      obtain rfl : x = y := by simpa [equal] using hab
      exact hbc
    | _ => cases hab
  | number x =>
    cases b with
    | number y =>
      cases c with
      | number z => exact Number.same_trans hab hbc
      | _ => cases hbc
    | _ => cases hab
  | text x =>
    cases b with
    | text y =>
      obtain rfl : x = y := by simpa [equal] using hab
      exact hbc
    | _ => cases hab

/-- Equal scalars are of one kind. -/
theorem kind_eq_of_equal {a b : Scalar} (h : a.equal b = true) : a.kind = b.kind := by
  cases a <;> cases b <;> first | rfl | cases h

/-- Anything but NaN. -/
def IsReal (a : Scalar) : Prop := ∀ n, a = .number n → n.isReal = true

theorem equal_of_isReal {a : Scalar} (h : a.IsReal) : a.equal a = true := by
  cases a with
  | null => rfl
  | bool b => simp [equal]
  | number n => exact Number.same_refl (h n rfl)
  | text s => simp [equal]

theorem equal_self {a : Scalar} (h : (Value.scalar a).Checked) : a.equal a = true := by
  refine equal_of_isReal ?_
  rintro n rfl
  exact h.isReal

/-! ### Identity -/

/-- To be identical is to be equal and of one type, which tells integers from doubles. -/
theorem identical_eq (a b : Scalar) :
    a.identical b = (a.typeName == b.typeName && a.equal b) := by
  cases a with
  | number m =>
    cases b with
    | number n => cases m <;> cases n <;> simp [identical, typeName, equal, Number.same_int]
    | _ => simp [identical, typeName, equal]
  | _ => cases b <;> simp [identical, typeName, equal]

theorem identical_comm (a b : Scalar) : a.identical b = b.identical a := by
  rw [identical_eq, identical_eq, equal_comm, Bool.beq_comm]

theorem identical_trans {a b c : Scalar} (hab : a.identical b = true)
    (hbc : b.identical c = true) : a.identical c = true := by
  rw [identical_eq, Bool.and_eq_true, beq_iff_eq] at hab hbc ⊢
  exact ⟨hab.1.trans hbc.1, equal_trans hab.2 hbc.2⟩

theorem identical_self {a : Scalar} (h : (Value.scalar a).Checked) : a.identical a = true := by
  rw [identical_eq, BEq.rfl, equal_self h]
  rfl

/-- Apart from numbers, equal scalars are one. -/
theorem eq_of_equal {a b : Scalar} (hplain : ∀ n, a ≠ .number n) (h : a.equal b = true) :
    a = b := by
  cases a with
  | number n => exact absurd rfl (hplain n)
  | _ => cases b <;> simp_all [equal]

/-- Apart from numbers, scalars are JSON values. -/
theorem checked_of_plain {a : Scalar} (hplain : ∀ n, a ≠ .number n) :
    (Value.scalar a).Checked := by
  cases a with
  | number n => exact absurd rfl (hplain n)
  | _ => rfl

end Scalar

namespace Entries

theorem sameKeys_self {entries : List (Key × Value)} (h : Distinct entries)
    (hnames : ∀ e ∈ entries, ∃ name, e.1 = .text name) : sameKeys entries entries = true := by
  unfold sameKeys
  rw [BEq.rfl, Bool.true_and, List.all_eq_true]
  rintro ⟨k, v⟩ he
  obtain ⟨name, hname⟩ := hnames _ he
  obtain rfl : k = .text name := hname
  rw [contains, find?_of_mem h he]
  rfl

end Entries

namespace Value

mutual

theorem equal_self : ∀ {v : Value}, v.IsJson → v.equal v = .ok true
  | .scalar s, h => by
    rw [equal, Scalar.equal_self h.checked]
  | .array items, h => by
    rw [equal, if_pos rfl]
    exact equalItems_self (isJson_array.mp h)
  | .object entries, h => by
    obtain ⟨hdistinct, hentries⟩ := isJson_object.mp h
    rw [equal, Entries.sameKeys_self hdistinct fun e he => (hentries e he).1]
    exact equalEntries_within hdistinct hentries fun _ he => he
  | .tuple _, h => nomatch h.checked
  | .set _, h => nomatch h.checked
  | .bytes _, h => nomatch h.checked
  | .thing, h => nomatch h.checked
  | .missing, h => nomatch h.checked

theorem equalItems_self : ∀ {items : List Value}, (∀ v ∈ items, v.IsJson) →
    equalItems items items = .ok true
  | [], _ => rfl
  | v :: rest, h => by
    obtain ⟨hv, hrest⟩ := List.forall_mem_cons.mp h
    rw [equalItems, equal_self hv]
    exact equalItems_self hrest

/-- Entries that are all among others equal these. -/
theorem equalEntries_within {others : List (Key × Value)} (hothers : Entries.Distinct others) :
    ∀ {entries : List (Key × Value)},
      (∀ e ∈ entries, (∃ name, e.1 = .text name) ∧ e.2.IsJson) → (∀ e ∈ entries, e ∈ others) →
      equalEntries entries others = .ok true
  | [], _, _ => rfl
  | (k, v) :: rest, h, hwithin => by
    obtain ⟨⟨⟨name, hname⟩, hv⟩, hrest⟩ := List.forall_mem_cons.mp h
    obtain rfl : k = .text name := hname
    obtain ⟨hmem, hwithin⟩ := List.forall_mem_cons.mp hwithin
    rw [equalEntries, Entries.find?_of_mem hothers hmem]
    simp only
    rw [equal_self hv]
    exact equalEntries_within hothers hrest hwithin

end

/-! ## What equality says about the parts -/

theorem of_equalItems {items others : List Value} (hlength : items.length = others.length)
    (h : equalItems items others = .ok true) :
    List.Forall₂ (fun v w => v.equal w = .ok true) items others := by
  induction items generalizing others with
  | nil =>
    obtain rfl := List.eq_nil_of_length_eq_zero hlength.symm
    exact .nil
  | cons v rest ih =>
    cases others with
    | nil => cases hlength
    | cons w more =>
      unfold equalItems at h
      split at h
      · next hvw => exact .cons hvw (ih (Nat.succ.inj hlength) h)
      · next hne => exact absurd h hne

theorem of_equalEntries {entries others : List (Key × Value)}
    (h : equalEntries entries others = .ok true) :
    ∀ e ∈ entries, ∃ w, Entries.find? e.1 others = some w ∧ e.2.equal w = .ok true := by
  induction entries with
  | nil => exact List.forall_mem_nil _
  | cons e rest ih =>
    obtain ⟨k, v⟩ := e
    unfold equalEntries at h
    split at h
    · cases h
    · next w hw =>
      split at h
      · next hvw => exact List.forall_mem_cons.mpr ⟨⟨w, hw, hvw⟩, ih h⟩
      · next hne => exact absurd h hne

theorem array_of_equal {items : List Value} {w : Value} (h : (array items).equal w = .ok true) :
    ∃ others, w = .array others ∧ List.Forall₂ (fun v w => v.equal w = .ok true) items others := by
  cases w with
  | array others =>
    unfold equal at h
    simp only at h
    split at h
    · next hlength => exact ⟨others, rfl, of_equalItems hlength h⟩
    · cases h
  | _ => cases h

/-- Equal objects have equal values under the keys of the first, and as many keys. -/
theorem object_of_equal {entries : List (Key × Value)} {w : Value}
    (h : (object entries).equal w = .ok true) :
    ∃ others, w = .object others ∧ entries.length = others.length ∧
      ∀ e ∈ entries, ∃ w, Entries.find? e.1 others = some w ∧ e.2.equal w = .ok true := by
  cases w with
  | object others =>
    unfold equal at h
    simp only at h
    split at h
    · next hkeys =>
      obtain ⟨hlength, -⟩ := Bool.and_eq_true_iff.mp hkeys
      exact ⟨others, rfl, eq_of_beq hlength, of_equalEntries h⟩
    · cases h
  | _ => cases h

theorem scalar_of_equal {s : Scalar} {w : Value} (h : (scalar s).equal w = .ok true) :
    ∃ t, w = .scalar t ∧ s.equal t = true := by
  cases w with
  | scalar t => exact ⟨t, rfl, Except.ok.inj h⟩
  | _ => cases h

/-! ## Loose equality -/

theorem sameBy_int (n : Int) : (int n).sameBy Number.same (int n) = true := by
  show Number.same (.int n) (.int n) = true
  exact Number.same_refl rfl

end Value
end Lineage
