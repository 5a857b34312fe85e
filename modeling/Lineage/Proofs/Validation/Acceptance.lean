import Lineage.Proofs.Validation.Parts

/-
When validation finds nothing.

One equivalence for each kind of field: nothing is found exactly when the value has
the right shape, the bounds let it through and nothing is found in its parts.
-/

namespace Lineage
namespace Validation

/-! ## Bounds -/

section Bounds

variable {low high low' high' : Option Number} {m n : Number}

theorem below_congr (hlow : low.map Number.position = low'.map Number.position)
    (h : m.position = n.position) : below m low = below n low' := by
  cases low with
  | none =>
    obtain rfl := Option.map_eq_none_iff.mp hlow.symm
    rfl
  | some b =>
    obtain ⟨b', rfl, hb⟩ := Option.map_eq_some_iff.mp hlow.symm
    show m.lt b = n.lt b'
    rw [Number.lt_congr_left h, Number.lt_congr_right hb]

theorem above_congr (hhigh : high.map Number.position = high'.map Number.position)
    (h : m.position = n.position) : above m high = above n high' := by
  cases high with
  | none =>
    obtain rfl := Option.map_eq_none_iff.mp hhigh.symm
    rfl
  | some b =>
    obtain ⟨b', rfl, hb⟩ := Option.map_eq_some_iff.mp hhigh.symm
    show b.lt m = b'.lt n
    rw [Number.lt_congr_right h, Number.lt_congr_left hb]

end Bounds

/-! ## Undeclared keys -/

theorem undeclared_eq_nil {members : List (Member Field)} {path : Path}
    {entries : List (Key × Value)} :
    undeclared members path entries = .ok [] ↔
      ∀ e ∈ entries, isDeclared members e.1 = true := by
  induction entries with
  | nil => exact ⟨nofun, fun _ => rfl⟩
  | cons e rest ih =>
    obtain ⟨key, v⟩ := e
    rw [List.forall_mem_cons, ← ih]
    show (if isDeclared members key = true then undeclared members path rest else _) = _ ↔ _
    by_cases hdeclared : isDeclared members key = true
    · rw [if_pos hdeclared]
      exact ⟨fun h => ⟨hdeclared, h⟩, fun h => h.2⟩
    · rw [if_neg hdeclared]
      refine ⟨fun h => ?_, fun h => absurd h.1 hdeclared⟩
      obtain ⟨here, -, h⟩ := Outcome.bind_eq_ok.mp h
      obtain ⟨later, -, h⟩ := Outcome.bind_eq_ok.mp h
      cases h

/-! ## Unions -/

theorem matchesFrom_eq_nil {index : Nat} {results : List (List Violation)} :
    matchesFrom index results = [] ↔ [] ∉ results := by
  induction results generalizing index with
  | nil => simp [matchesFrom]
  | cons r rest ih =>
    cases r with
    | nil => simp [matchesFrom]
    | cons x xs => simp [matchesFrom, ih]

/-- No two results are both empty. -/
def AtMostOneEmpty (results : List (List Violation)) : Prop :=
  results.Pairwise fun r s => ¬(r = [] ∧ s = [])

theorem matchesFrom_of_atMostOne {results : List (List Violation)}
    (h : AtMostOneEmpty results) (index : Nat) :
    matchesFrom index results = [] ∨ ∃ i, matchesFrom index results = [i] := by
  induction results generalizing index with
  | nil => exact .inl rfl
  | cons r rest ih =>
    obtain ⟨hr, hrest⟩ := List.pairwise_cons.mp h
    cases r with
    | nil =>
      have hnone : matchesFrom (index + 1) rest = [] :=
        matchesFrom_eq_nil.mpr fun hmem => hr _ hmem ⟨rfl, rfl⟩
      exact .inr ⟨index, by simp [matchesFrom, hnone]⟩
    | cons x xs =>
      simp only [matchesFrom, List.isEmpty_cons]
      exact ih hrest _

/-- A union is satisfied only where one of its variants is. -/
theorem mem_of_judgeUnion {unambiguous : Bool} {path : Path} {results : List (List Violation)}
    (h : judgeUnion unambiguous path results = []) : [] ∈ results := by
  apply Classical.byContradiction
  intro hnone
  unfold judgeUnion at h
  rw [matchesFrom_eq_nil.mpr hnone] at h
  cases h

/-- Where no two variants match, a union is satisfied as soon as one does. -/
theorem judgeUnion_eq_nil {unambiguous : Bool} {path : Path}
    {results : List (List Violation)} (hone : AtMostOneEmpty results) :
    judgeUnion unambiguous path results = [] ↔ [] ∈ results := by
  refine ⟨mem_of_judgeUnion, fun h => ?_⟩
  rcases matchesFrom_of_atMostOne hone 0 with hnone | ⟨i, hi⟩
  · exact absurd h (matchesFrom_eq_nil.mp hnone)
  · unfold judgeUnion
    rw [hi]

end Validation

namespace Field

open Validation

variable {o : Options} {path : Path} {v : Value}

/-! ## Scalars -/

variable [Externals]

theorem validateText_eq_nil {low high : Option Number} {pattern : Option PatternSource}
    {format : Option Format} {s : String} :
    validateText low high pattern format path s = .ok [] ↔
      below (count s.length) low = false ∧ above (count s.length) high = false ∧
        (∀ p, pattern = some p → p.matchesText s = .ok true) ∧
        ∀ g, format = some g → g.matchesText s = true := by
  unfold validateText
  cases pattern with
  | none => cases format <;> simp [reportIf_eq_nil]
  | some p =>
    cases hmatch : p.matchesText s with
    | error e => simp [hmatch]
    | ok found => cases format <;> simp [hmatch, reportIf_eq_nil]

theorem validate_string_eq_nil {low high : Option Number} {pattern : Option PatternSource}
    {format : Option Format} :
    (string low high pattern format).validate o path v = .ok [] ↔
      ∃ s, v = .text s ∧ below (count s.length) low = false ∧
        above (count s.length) high = false ∧
        (∀ p, pattern = some p → p.matchesText s = .ok true) ∧
        ∀ g, format = some g → g.matchesText s = true := by
  constructor
  · intro h
    rw [validate_string] at h
    split at h
    · cases h
    · next s => exact ⟨s, rfl, validateText_eq_nil.mp h⟩
    · cases h
  · rintro ⟨s, rfl, h⟩
    exact validateText_eq_nil.mpr h

omit [Externals] in
theorem validateNumber_eq_nil {low high : Option Number} {integral : Bool} {n : Number} :
    validateNumber low high integral path n = [] ↔
      (integral = true → n.isIntegral = true) ∧ below n low = false ∧
        above n high = false := by
  unfold validateNumber
  split
  · next h =>
    simp only [Bool.and_eq_true, Bool.not_eq_true'] at h
    simp [typeMismatch, h.1, h.2]
  · next h =>
    simp only [Bool.and_eq_true, Bool.not_eq_true', not_and, Bool.not_eq_false] at h
    rw [List.append_eq_nil_iff, reportIf_eq_nil, reportIf_eq_nil]
    exact ⟨fun hrange => ⟨h, hrange⟩, fun hall => hall.2⟩

theorem validate_number_eq_nil {low high : Option Number} {integerOnly : Value} :
    (number low high integerOnly).validate o path v = .ok [] ↔
      ∃ n, v = .number n ∧ (integerOnly.truthy = true → n.isIntegral = true) ∧
        below n low = false ∧ above n high = false := by
  constructor
  · intro h
    rw [validate_number] at h
    split at h
    · cases h
    · next n => exact ⟨n, rfl, validateNumber_eq_nil.mp (Except.ok.inj h)⟩
    · cases h
  · rintro ⟨n, rfl, h⟩
    exact congrArg Except.ok (validateNumber_eq_nil.mpr h)

theorem validate_boolean_eq_nil :
    boolean.validate o path v = .ok [] ↔ ∃ b, v = .bool b := by
  constructor
  · intro h
    rw [validate_boolean] at h
    split at h
    · cases h
    · next b => exact ⟨b, rfl⟩
    · cases h
  · rintro ⟨b, rfl⟩
    rfl

theorem validate_null_eq_nil : null.validate o path v = .ok [] ↔ v = .null := by
  constructor
  · intro h
    rw [validate_null] at h
    split at h
    · cases h
    · rfl
    · cases h
  · rintro rfl
    rfl

theorem validate_any_eq_nil : any.validate o path v = .ok [] ↔ v.Checked := by
  have hany : validateAny path v = [] ↔ v.Checked := by
    unfold validateAny Value.Checked
    cases v.check "$" <;> simp
  constructor
  · intro h
    rw [validate_any] at h
    split at h
    · cases h
    · exact hany.mp (Except.ok.inj h)
  · intro h
    rw [validate_any]
    split
    · exact absurd rfl h.ne_missing
    · exact congrArg Except.ok (hany.mpr h)

omit [Externals] in
theorem validateLiteral_eq_nil {value : Scalar} :
    validateLiteral value path v = [] ↔ ∃ s, v = .scalar s ∧ value.equal s = true := by
  unfold validateLiteral
  rw [reportIf_eq_nil]
  cases v <;> simp

theorem validate_literal_eq_nil {value : Scalar} :
    (literal value).validate o path v = .ok [] ↔
      ∃ s, v = .scalar s ∧ value.equal s = true := by
  constructor
  · intro h
    rw [validate_literal] at h
    split at h
    · cases h
    · exact validateLiteral_eq_nil.mp (Except.ok.inj h)
  · rintro ⟨s, rfl, h⟩
    exact congrArg Except.ok (validateLiteral_eq_nil.mpr ⟨s, rfl, h⟩)

/-! ## Containers -/

theorem validate_array_eq_nil {element : Field} {low high : Option Number} :
    (array element low high).validate o path v = .ok [] ↔
      ∃ items, v = .array items ∧
        (low.isSome = true ∧ below (count items.length) low = false ∧
          above (count items.length) high = false) ∧
        validateEach (element.validate o) path 0 items = .ok [] := by
  constructor
  · intro h
    rw [validate_array] at h
    split at h
    · cases h
    · next items =>
      obtain ⟨hcount, hitems⟩ := Outcome.append_eq_nil.mp h
      exact ⟨items, rfl, validateItemCount_eq_nil.mp hcount, hitems⟩
    · cases h
  · rintro ⟨items, rfl, hcount, hitems⟩
    exact Outcome.append_eq_nil.mpr ⟨validateItemCount_eq_nil.mpr hcount, hitems⟩

theorem validate_tuple_eq_nil {fields : List Field} :
    (tuple fields).validate o path v = .ok [] ↔
      ∃ items, v = .array items ∧ items.length = fields.length ∧
        validateItems o fields path 0 items = .ok [] := by
  constructor
  · intro h
    rw [validate_tuple] at h
    split at h
    · cases h
    · next items =>
      split at h
      · next hlength => exact ⟨items, rfl, hlength, h⟩
      · cases h
    · cases h
  · rintro ⟨items, rfl, hlength, h⟩
    show (if items.length = fields.length then _ else _) = _
    rw [if_pos hlength]
    exact h

theorem validate_object_eq_nil {members : List (Member Field)} :
    (object members).validate o path v = .ok [] ↔
      ∃ entries, v = .object entries ∧
        (∀ m ∈ members, validateMember o path entries m = .ok []) ∧
        (o.strict = true → ∀ e ∈ entries, isDeclared members e.1 = true) := by
  have hentries : ∀ entries,
      (object members).validate o path (.object entries) = .ok [] ↔
        (∀ m ∈ members, validateMember o path entries m = .ok []) ∧
          (o.strict = true → ∀ e ∈ entries, isDeclared members e.1 = true) := by
    intro entries
    rw [validate_object]
    cases o.strict with
    | true =>
      show (do
        let declared ← validateMembers o members path entries
        let extra ← undeclared members path entries
        return declared ++ extra) = _ ↔ _
      rw [Outcome.append_eq_nil, validateMembers_eq_nil, undeclared_eq_nil]
      simp
    | false =>
      show (do
        let declared ← validateMembers o members path entries
        let extra ← (.ok [] : Result)
        return declared ++ extra) = _ ↔ _
      rw [Outcome.append_eq_nil, validateMembers_eq_nil]
      simp
  constructor
  · intro h
    have hshape : ∃ entries, v = .object entries := by
      rw [validate_object] at h
      split at h
      · cases h
      · next entries => exact ⟨entries, rfl⟩
      · cases h
    obtain ⟨entries, rfl⟩ := hshape
    exact ⟨entries, rfl, (hentries entries).mp h⟩
  · rintro ⟨entries, rfl, h⟩
    exact (hentries entries).mpr h

/-! ## Wrappers and unions -/

theorem validate_optional_eq_nil (hv : v ≠ .missing) {inner : Field} :
    (optional inner).validate o path v = .ok [] ↔
      v = .null ∨ inner.validate o path v = .ok [] := by
  constructor
  · intro h
    rw [validate_optional] at h
    split at h
    · exact absurd rfl hv
    · exact .inl rfl
    · exact .inr h
  · rintro (rfl | h)
    · rfl
    · rw [validate_optional]
      split
      · rfl
      · rfl
      · exact h

theorem validate_defaulted_present (hv : v ≠ .missing) {inner : Field} {value : Value} :
    (defaulted inner value).validate o path v = inner.validate o path v := by
  rw [validate_defaulted]
  split
  · exact absurd rfl hv
  · rfl

/-- Each variant gives a result, and these are judged together. -/
theorem validate_union_eq_ok (hv : v ≠ .missing) {variants : List Field}
    {violations : List Violation} :
    (union variants none).validate o path v = .ok violations ↔
      ∃ results, List.Forall₂ (fun f r => f.validate o path v = .ok r) variants results ∧
        judgeUnion o.unambiguous path results = violations := by
  have hresults : (union variants none).validate o path v = (do
      let results ← validateVariants o variants path v
      return judgeUnion o.unambiguous path results) := by
    rw [validate_union]
    split
    · exact absurd rfl hv
    · rfl
  rw [hresults, Outcome.bind_eq_ok]
  constructor
  · rintro ⟨results, h, hjudge⟩
    exact ⟨results, validateVariants_eq_ok.mp h, Except.ok.inj hjudge⟩
  · rintro ⟨results, h, hjudge⟩
    exact ⟨results, validateVariants_eq_ok.mpr h, congrArg Except.ok hjudge⟩

/-- The tag under the discriminant selects the variant that has to be satisfied. -/
theorem validate_discriminated_eq_nil (hv : v ≠ .missing) {variants : List Field}
    {key : String} :
    (union variants (some key)).validate o path v = .ok [] ↔
      ∃ entries tag f, v = .object entries ∧ Entries.find? (.text key) entries = some tag ∧
        variants.find? (hasTag key tag) = some f ∧ f.validate o path v = .ok [] := by
  constructor
  · intro h
    rw [validate_union] at h
    split at h
    · cases h
    · split at h
      · next hkey =>
        cases hkey
      · next hkey =>
        cases hkey
        split at h
        · next entries _ =>
          split at h
          · next tag htag =>
            rw [validateTagged_eq] at h
            split at h
            · next f hf => exact ⟨entries, tag, f, rfl, htag, hf, h⟩
            · cases h
          · cases h
        · cases h
  · rintro ⟨entries, tag, f, rfl, htag, hf, h⟩
    rw [validate_union]
    simp only [htag]
    rw [validateTagged_eq, hf]
    exact h

theorem runCheck_of_validate {check : AuthorFn} {name : Value}
    (h : (custom check name).validate o path v = .ok []) : runCheck check v = .ok [] := by
  rw [validate_custom] at h
  split at h
  · cases h
  · obtain ⟨messages, hmessages, h⟩ := Outcome.bind_eq_ok.mp h
    rw [hmessages, List.map_eq_nil_iff.mp (Except.ok.inj h)]

end Field
end Lineage
