import Lineage.Validation
import Lineage.Proofs.Alongside
import Lineage.Proofs.Outcome
import Lineage.Proofs.Value.Checked
import Mathlib.Data.List.Forall2

/-
Validation of the parts of a value.

Items, members and variants are validated one after the other.  Each lemma says what
the whole says about the parts, so that proofs about fields need no induction over
lists: nothing is found exactly when nothing is found in any part.
-/

namespace Lineage
namespace Validation

theorem reportIf_eq_nil {condition : Bool} {path : Path} {kind : Violation.Kind}
    {message : String} : reportIf condition path kind message = [] ↔ condition = false := by
  cases condition <;> simp [reportIf]

/-! ## Items -/

section Items

variable {item : Path → Value → Result} {path : Path} {index : Nat} {items : List Value}

theorem exists_of_validateEach (h : validateEach item path index items = .ok []) :
    ∀ v ∈ items, ∃ q, item q v = .ok [] := by
  induction items generalizing index with
  | nil => nofun
  | cons v rest ih =>
    obtain ⟨hv, hrest⟩ := Outcome.append_eq_nil.mp h
    exact List.forall_mem_cons.mpr ⟨⟨_, hv⟩, ih hrest⟩

theorem validateEach_eq_nil (h : ∀ v ∈ items, ∀ q, item q v = .ok []) :
    validateEach item path index items = .ok [] := by
  induction items generalizing index with
  | nil => rfl
  | cons v rest ih =>
    obtain ⟨hv, hrest⟩ := List.forall_mem_cons.mp h
    exact Outcome.append_eq_nil.mpr ⟨hv _, ih hrest⟩

theorem validateEach_returns (h : ∀ v ∈ items, ∀ q, (item q v).Returns) :
    (validateEach item path index items).Returns := by
  induction items generalizing index with
  | nil => exact Outcome.returns_ok _
  | cons v rest ih =>
    obtain ⟨hv, hrest⟩ := List.forall_mem_cons.mp h
    exact (hv _).append (ih hrest)

end Items

theorem validateItemCount_eq_nil {low high : Option Number} {path : Path} {n : Nat} :
    validateItemCount low high path n = .ok [] ↔
      low.isSome = true ∧ below (count n) low = false ∧ above (count n) high = false := by
  cases low with
  | none => simp [validateItemCount]
  | some b =>
    simp [validateItemCount, reportIf_eq_nil]

/-! ## Texts and keys -/

variable [Externals]

theorem validateText_returns {low high : Option Number} {pattern : Option PatternSource}
    {format : Option Format} {path : Path} {s : String} :
    (validateText low high pattern format path s).Returns ↔
      ∀ p, pattern = some p → (p.matchesText s).Returns := by
  unfold validateText
  cases pattern with
  | none => exact iff_of_true (Outcome.returns_ok _) (by rintro p ⟨⟩)
  | some p =>
    simp only [Option.some.injEq, forall_eq']
    cases hmatch : p.matchesText s with
    | ok found => exact iff_of_true (Outcome.returns_ok _) (Outcome.returns_ok _)
    | error e => exact iff_of_false (Outcome.not_returns_error e) (Outcome.not_returns_error e)

omit [Externals] in
theorem undeclared_returns {members : List (Member Field)} {path : Path}
    {entries : List (Key × Value)} : (undeclared members path entries).Returns ↔
      ∀ e ∈ entries, isDeclared members e.1 = true ∨ (entryPath path e.1).Returns := by
  induction entries with
  | nil => exact iff_of_true (Outcome.returns_ok _) (List.forall_mem_nil _)
  | cons e rest ih =>
    obtain ⟨key, v⟩ := e
    rw [List.forall_mem_cons, ← ih]
    show Outcome.Returns (if isDeclared members key = true then _ else _) ↔ _
    by_cases hdeclared : isDeclared members key = true
    · rw [if_pos hdeclared]
      exact ⟨fun h => ⟨.inl hdeclared, h⟩, fun h => h.2⟩
    · rw [if_neg hdeclared]
      cases entryPath path key with
      | error e =>
        refine iff_of_false (Outcome.not_returns_error e) fun h => ?_
        exact h.1.elim hdeclared (Outcome.not_returns_error e)
      | ok place =>
        cases undeclared members path rest with
        | error e =>
          exact iff_of_false (Outcome.not_returns_error e) fun h => Outcome.not_returns_error e h.2
        | ok found =>
          exact iff_of_true (Outcome.returns_ok _)
            ⟨.inr (Outcome.returns_ok place), Outcome.returns_ok found⟩

/-! ## Mismatches of one value by itself -/

/-- Mismatches of the value at a path that say what is wrong with it, not what it lacks. -/
def Own (path : Path) (violations : List Violation) : Prop :=
  ∀ d ∈ violations, d.path = path ∧ d.nearest = [] ∧
    d.kind ∉ [.missingRequiredField, .unexpectedField, .unionAmbiguous]

def OwnResult (path : Path) (r : Result) : Prop :=
  ∀ violations, r = .ok violations → Own path violations

section

omit [Externals]

theorem own_nil {path : Path} : Own path [] := List.forall_mem_nil _

theorem Own.append {path : Path} {vs ws : List Violation} (hv : Own path vs) (hw : Own path ws) :
    Own path (vs ++ ws) := by
  intro d hd
  rcases List.mem_append.mp hd with hd | hd
  · exact hv d hd
  · exact hw d hd

theorem own_violation {path : Path} {kind : Violation.Kind} {message : String}
    (h : kind ∉ [.missingRequiredField, .unexpectedField, .unionAmbiguous]) :
    Own path [violation path kind message] :=
  List.forall_mem_singleton.mpr ⟨rfl, rfl, h⟩

theorem own_reportIf {condition : Bool} {path : Path} {kind : Violation.Kind} {message : String}
    (h : kind ∉ [.missingRequiredField, .unexpectedField, .unionAmbiguous]) :
    Own path (reportIf condition path kind message) := by
  cases condition with
  | false => exact own_nil
  | true => exact own_violation h

theorem ownResult_ok {path : Path} {vs : List Violation} (h : Own path vs) :
    OwnResult path (.ok vs) := by
  rintro _ ⟨⟩
  exact h

theorem own_typeMismatch {path : Path} {expected : String} {v : Value} :
    OwnResult path (.ok (typeMismatch path expected v)) := ownResult_ok (own_violation (by decide))

end

theorem own_validateText {low high : Option Number} {pattern : Option PatternSource}
    {format : Option Format} {path : Path} {s : String} :
    OwnResult path (validateText low high pattern format path s) := by
  unfold validateText
  cases pattern with
  | none =>
    refine ownResult_ok (Own.append (Own.append (Own.append ?_ ?_) own_nil) ?_)
    · exact own_reportIf (by decide)
    · exact own_reportIf (by decide)
    · split
      · exact own_nil
      · exact own_reportIf (by decide)
  | some p =>
    intro violations h
    obtain ⟨found, -, h⟩ := Outcome.bind_eq_ok.mp h
    cases h
    refine Own.append (Own.append (Own.append ?_ ?_) ?_) ?_
    · exact own_reportIf (by decide)
    · exact own_reportIf (by decide)
    · exact own_reportIf (by decide)
    · split
      · exact own_nil
      · exact own_reportIf (by decide)

section

omit [Externals]

theorem own_validateNumber {low high : Option Number} {integral : Bool} {path : Path}
    {n : Number} : Own path (validateNumber low high integral path n) := by
  unfold validateNumber
  split
  · exact own_violation (by decide)
  · exact (own_reportIf (by decide)).append (own_reportIf (by decide))

theorem own_validateAny {path : Path} {v : Value} : Own path (validateAny path v) := by
  unfold validateAny
  split
  · exact own_nil
  · exact own_violation (by decide)

theorem own_validateItemCount {low high : Option Number} {path : Path} {n : Nat} :
    OwnResult path (validateItemCount low high path n) := by
  unfold validateItemCount
  split
  · rintro _ ⟨⟩
  · exact ownResult_ok ((own_reportIf (by decide)).append (own_reportIf (by decide)))

theorem own_validateCustom {check : AuthorFn} {name v : Value} {path : Path} :
    OwnResult path (validateCustom check name path v) := by
  intro violations h
  obtain ⟨messages, -, h⟩ := Outcome.bind_eq_ok.mp h
  cases h
  intro d hd
  obtain ⟨message, -, rfl⟩ := List.mem_map.mp hd
  refine ⟨rfl, rfl, ?_⟩
  show Violation.Kind.custom ∉ _
  decide

end

/-- Mismatches that are neither about undeclared keys nor about the variants of a union. -/
def Basic (violations : List Violation) : Prop :=
  ∀ d ∈ violations, d.nearest = [] ∧ d.kind ≠ .unexpectedField ∧ d.kind ≠ .unionAmbiguous

def BasicResult (r : Result) : Prop := ∀ violations, r = .ok violations → Basic violations

section

omit [Externals]

theorem basic_nil : Basic [] := List.forall_mem_nil _

theorem basic_violation {path : Path} {kind : Violation.Kind} {message : String}
    (h : kind ≠ .unexpectedField ∧ kind ≠ .unionAmbiguous) :
    Basic [violation path kind message] :=
  List.forall_mem_singleton.mpr ⟨rfl, h⟩

theorem basicResult_ok {vs : List Violation} (h : Basic vs) : BasicResult (.ok vs) := by
  rintro _ ⟨⟩
  exact h

theorem OwnResult.basic {path : Path} {r : Result} (h : OwnResult path r) : BasicResult r := by
  intro violations hr d hd
  obtain ⟨-, hnearest, hkind⟩ := h violations hr d hd
  refine ⟨hnearest, ?_, ?_⟩
  · rintro heq
    exact hkind (by rw [heq]; decide)
  · rintro heq
    exact hkind (by rw [heq]; decide)

end

end Validation

namespace Field

open Validation

variable {o : Options} {path : Path}

variable [Externals]

theorem forall₂_of_validateItems {fields : List Field} {index : Nat} {items : List Value}
    (hlength : items.length = fields.length)
    (h : validateItems o fields path index items = .ok []) :
    List.Forall₂ (fun f v => ∃ q, f.validate o q v = .ok []) fields items := by
  induction fields generalizing index items with
  | nil =>
    obtain rfl := List.eq_nil_of_length_eq_zero hlength
    exact .nil
  | cons f rest ih =>
    obtain ⟨v, more, rfl⟩ := List.exists_cons_of_length_eq_add_one hlength
    obtain ⟨hv, hmore⟩ := Outcome.append_eq_nil.mp h
    exact .cons ⟨_, hv⟩ (ih (Nat.succ.inj hlength) hmore)

theorem validateItems_eq_nil {fields : List Field} {index : Nat} {items : List Value}
    (h : List.Forall₂ (fun f v => ∀ q, f.validate o q v = .ok []) fields items) :
    validateItems o fields path index items = .ok [] := by
  induction h generalizing index with
  | nil => rfl
  | cons hv _ ih => exact Outcome.append_eq_nil.mpr ⟨hv _, ih⟩

/-- What is found about one member of an object. -/
def validateMember (o : Options) (path : Path) (entries : List (Key × Value))
    (m : Member Field) : Result :=
  match Entries.find? (.text m.name) entries with
  | some v => m.field.validate o (path.key m.name) v
  | none =>
    if m.required then .ok (missingMember path m.name)
    else if m.field.acceptsAbsence then m.field.validate o (path.key m.name) .missing
    else .ok []

theorem validateMembers_cons {m : Member Field} {rest : List (Member Field)}
    {entries : List (Key × Value)} :
    validateMembers o (m :: rest) path entries = (do
      let here ← validateMember o path entries m
      let later ← validateMembers o rest path entries
      return here ++ later) := by
  obtain ⟨name, required, f⟩ := m
  rw [validateMembers]
  unfold validateMember
  cases Entries.find? (.text name) entries with
  | some v => rfl
  | none =>
    cases required with
    | true => rfl
    | false => cases f.acceptsAbsence <;> simp

theorem validateMembers_eq_nil {members : List (Member Field)}
    {entries : List (Key × Value)} :
    validateMembers o members path entries = .ok [] ↔
      ∀ m ∈ members, validateMember o path entries m = .ok [] := by
  induction members with
  | nil => exact ⟨nofun, fun _ => rfl⟩
  | cons m rest ih => rw [validateMembers_cons, Outcome.append_eq_nil, ih, List.forall_mem_cons]

theorem validateMembers_returns {members : List (Member Field)} {entries : List (Key × Value)} :
    (validateMembers o members path entries).Returns ↔
      ∀ m ∈ members, (validateMember o path entries m).Returns := by
  induction members with
  | nil => exact iff_of_true (Outcome.returns_ok _) (List.forall_mem_nil _)
  | cons m rest ih =>
    rw [validateMembers_cons, Outcome.returns_append, ih, List.forall_mem_cons]

/-- The results of the variants, one for each. -/
theorem validateVariants_eq_ok {variants : List Field} {v : Value}
    {results : List (List Violation)} :
    validateVariants o variants path v = .ok results ↔
      List.Forall₂ (fun f r => f.validate o path v = .ok r) variants results := by
  induction variants generalizing results with
  | nil =>
    show Except.ok [] = _ ↔ _
    rw [List.forall₂_nil_left_iff, Except.ok.injEq, eq_comm]
  | cons f rest ih =>
    show (do
      let here ← validate o f path v
      let later ← validateVariants o rest path v
      return here :: later) = _ ↔ _
    rw [Outcome.bind_eq_ok, List.forall₂_cons_left_iff]
    constructor
    · rintro ⟨here, hf, h⟩
      obtain ⟨later, hrest, h⟩ := Outcome.bind_eq_ok.mp h
      exact ⟨here, later, hf, ih.mp hrest, (Except.ok.inj h).symm⟩
    · rintro ⟨here, later, hf, hrest, rfl⟩
      exact ⟨here, hf, by rw [ih.mpr hrest]; rfl⟩

theorem validateVariants_returns {variants : List Field} {v : Value} :
    (validateVariants o variants path v).Returns ↔
      ∀ f ∈ variants, (f.validate o path v).Returns := by
  constructor
  · rintro ⟨results, hresults⟩ f hf
    obtain ⟨r, -, hr⟩ := Alongside.exists_right (validateVariants_eq_ok.mp hresults) hf
    exact ⟨r, hr⟩
  · intro h
    induction variants with
    | nil => exact Outcome.returns_ok _
    | cons f rest ih =>
      obtain ⟨hf, hrest⟩ := List.forall_mem_cons.mp h
      exact hf.bind fun _ _ => (ih hrest).bind fun _ _ => Outcome.returns_ok _

/-- The variant that a tag selects is the one that validates the value. -/
theorem validateTagged_eq (key : String) (tag : Value) {variants : List Field} {v : Value} :
    validateTagged o key tag variants path v =
      match variants.find? (hasTag key tag) with
      | some f => f.validate o path v
      | none => .ok (unknownTag path key tag) := by
  induction variants with
  | nil => rfl
  | cons f rest ih =>
    rw [List.find?_cons]
    show (if hasTag key tag f = true then _ else _) = _
    by_cases htag : hasTag key tag f = true
    · rw [if_pos htag, htag]
    · rw [if_neg htag, ih, Bool.not_eq_true _ |>.mp htag]

/-! ## Kinds of fields

One equation for each kind, so that proofs take a field apart by its constructor and open
the validator nowhere else. -/

section Kinds

variable {v : Value} {low high : Option Number} {inner : Field}

theorem validate_string {pattern : Option PatternSource} {format : Option Format} :
    (string low high pattern format).validate o path v =
      match v with
      | .missing => .ok (absent path)
      | .text s => validateText low high pattern format path s
      | v => .ok (typeMismatch path "string" v) := rfl

theorem validate_number {integerOnly : Value} :
    (number low high integerOnly).validate o path v =
      match v with
      | .missing => .ok (absent path)
      | .number n => .ok (validateNumber low high integerOnly.truthy path n)
      | v => .ok (typeMismatch path "number" v) := rfl

theorem validate_boolean :
    boolean.validate o path v =
      match v with
      | .missing => .ok (absent path)
      | .bool _ => .ok []
      | v => .ok (typeMismatch path "boolean" v) := rfl

theorem validate_null :
    null.validate o path v =
      match v with
      | .missing => .ok (absent path)
      | .null => .ok []
      | v => .ok (typeMismatch path "null" v) := rfl

theorem validate_any :
    any.validate o path v =
      match v with
      | .missing => .ok (absent path)
      | v => .ok (validateAny path v) := rfl

theorem validate_literal {value : Scalar} :
    (literal value).validate o path v =
      match v with
      | .missing => .ok (absent path)
      | v => .ok (validateLiteral value path v) := rfl

theorem validate_array :
    (array inner low high).validate o path v =
      match v with
      | .missing => .ok (absent path)
      | .array items => do
        let counted ← validateItemCount low high path items.length
        let inside ← validateEach (inner.validate o) path 0 items
        return counted ++ inside
      | v => .ok (typeMismatch path "array" v) := rfl

theorem validate_tuple {fields : List Field} :
    (tuple fields).validate o path v =
      match v with
      | .missing => .ok (absent path)
      | .array items =>
        if items.length = fields.length then validateItems o fields path 0 items
        else
          .ok [violation path .outOfRange s!"expected {fields.length} items, got {items.length}"]
      | v => .ok (typeMismatch path "array" v) := rfl

theorem validate_object {members : List (Member Field)} :
    (object members).validate o path v =
      match v with
      | .missing => .ok (absent path)
      | .object entries => do
        let declared ← validateMembers o members path entries
        let extra ← if o.strict then undeclared members path entries else pure []
        return declared ++ extra
      | v => .ok (typeMismatch path "object" v) := rfl

theorem validate_optional :
    (optional inner).validate o path v =
      match v with
      | .missing | .null => .ok []
      | v => inner.validate o path v := rfl

theorem validate_defaulted {value : Value} :
    (defaulted inner value).validate o path v =
      match v with
      | .missing => inner.validate o path value
      | v => inner.validate o path v := rfl

theorem validate_union {variants : List Field} {discriminant : Option String} :
    (union variants discriminant).validate o path v =
      match v with
      | .missing => .ok (absent path)
      | v =>
        match discriminant with
        | none => do
          let results ← validateVariants o variants path v
          return judgeUnion o.unambiguous path results
        | some key =>
          match v with
          | .object entries =>
            match Entries.find? (.text key) entries with
            | some tag => validateTagged o key tag variants path v
            | none => .ok (noDiscriminant path key)
          | _ => .ok (noDiscriminant path key) := rfl

theorem validate_custom {check : AuthorFn} {name : Value} :
    (custom check name).validate o path v =
      match v with
      | .missing => .ok (absent path)
      | v => validateCustom check name path v := rfl

omit [Externals] in
theorem basic_absent : BasicResult (.ok (absent path)) :=
  basicResult_ok (basic_violation (by decide))

/-- Fields of values that have no parts, and checks of an author. -/
def IsLeaf : Field → Prop
  | string _ _ _ _ | number _ _ _ | boolean | null | any | literal _ | custom _ _ => True
  | _ => False

/-- What such a field finds about something that is there concerns it by itself. -/
theorem own_validate {f : Field} (hleaf : f.IsLeaf) (hne : v ≠ .missing) :
    OwnResult path (f.validate o path v) := by
  cases f with
  | string low high pattern format =>
    rw [validate_string]
    split
    · exact (hne rfl).elim
    · exact own_validateText
    · exact own_typeMismatch
  | number low high integerOnly =>
    rw [validate_number]
    split
    · exact (hne rfl).elim
    · exact ownResult_ok own_validateNumber
    · exact own_typeMismatch
  | boolean =>
    rw [validate_boolean]
    split
    · exact (hne rfl).elim
    · exact ownResult_ok own_nil
    · exact own_typeMismatch
  | null =>
    rw [validate_null]
    split
    · exact (hne rfl).elim
    · exact ownResult_ok own_nil
    · exact own_typeMismatch
  | any =>
    rw [validate_any]
    split
    · exact (hne rfl).elim
    · exact ownResult_ok own_validateAny
  | literal value =>
    rw [validate_literal]
    split
    · exact (hne rfl).elim
    · exact ownResult_ok (own_reportIf (by decide))
  | custom check name =>
    rw [validate_custom]
    split
    · exact (hne rfl).elim
    · exact own_validateCustom
  | array | tuple | object | optional | defaulted | union => cases hleaf

theorem basic_validate {f : Field} (hleaf : f.IsLeaf) : BasicResult (f.validate o path v) := by
  by_cases hmissing : v = .missing
  · subst hmissing
    have habsent : f.validate o path .missing = .ok (absent path) := by
      cases f with
      | array | tuple | object | optional | defaulted | union => cases hleaf
      | _ => rfl
    rw [habsent]
    exact basic_absent
  · exact (own_validate hleaf hmissing).basic

end Kinds

end Field
end Lineage
