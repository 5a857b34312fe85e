import Lineage.Proofs.Field.Relocation
import Lineage.Proofs.Validation.Parts

/-
Mismatches move with the place of the value.

Where validation starts is where its paths begin, and nothing else depends on it.  So the
mismatches found at a longer path are those found at the shorter one, each with the path in
front, those of the nearest variants of unions included.
-/

namespace Lineage

namespace Violation

mutual

/-- A mismatch at a place further down, and with it those of the nearest variant. -/
def under (p : Path) : Violation → Violation
  | ⟨path, kind, message, nearest⟩ => ⟨p.append path, kind, message, allUnder p nearest⟩

def allUnder (p : Path) : List Violation → List Violation
  | [] => []
  | v :: rest => under p v :: allUnder p rest

end

theorem allUnder_eq (p : Path) (vs : List Violation) : allUnder p vs = vs.map (under p) := by
  induction vs with
  | nil => rfl
  | cons v rest ih => rw [allUnder, ih, List.map_cons]

@[simp] theorem allUnder_append (p : Path) (vs ws : List Violation) :
    allUnder p (vs ++ ws) = allUnder p vs ++ allUnder p ws := by
  rw [allUnder_eq, allUnder_eq, allUnder_eq, List.map_append]

@[simp] theorem length_allUnder (p : Path) (vs : List Violation) :
    (allUnder p vs).length = vs.length := by
  rw [allUnder_eq, List.length_map]

@[simp] theorem isEmpty_allUnder (p : Path) (vs : List Violation) :
    (allUnder p vs).isEmpty = vs.isEmpty := by
  cases vs <;> rfl

end Violation

namespace Validation

open Violation (under allUnder)

variable {p q : Path}

/-- A result at a place further down. -/
def Result.under (p : Path) (r : Result) : Result := r.map (allUnder p)

@[simp] theorem Result.under_ok (vs : List Violation) :
    Result.under p (.ok vs) = .ok (allUnder p vs) := rfl

/-- Results found one after the other move together. -/
theorem Result.under_append {x x' y y' : Result} (hx : x' = Result.under p x)
    (hy : y' = Result.under p y) :
    (do let a ← x'; let b ← y'; return a ++ b) =
      Result.under p (do let a ← x; let b ← y; return a ++ b) := by
  subst hx hy
  cases x with
  | error e => rfl
  | ok a =>
    cases y with
    | error e => rfl
    | ok b => exact congrArg Except.ok (Violation.allUnder_append p a b).symm

/-! ## Mismatches -/

theorem violation_under (kind : Violation.Kind) (message : String) :
    [violation (p.append q) kind message] = allUnder p [violation q kind message] := rfl

theorem reportIf_under (condition : Bool) (kind : Violation.Kind) (message : String) :
    reportIf condition (p.append q) kind message =
      allUnder p (reportIf condition q kind message) := by
  cases condition <;> rfl

theorem typeMismatch_under (expected : String) (v : Value) :
    typeMismatch (p.append q) expected v = allUnder p (typeMismatch q expected v) := rfl

theorem absent_under : absent (p.append q) = allUnder p (absent q) := rfl

theorem missingMember_under (name : String) :
    missingMember (p.append q) name = allUnder p (missingMember q name) := by
  unfold missingMember
  rw [← Path.append_key, violation_under]

theorem unknownTag_under (key : String) (tag : Value) :
    unknownTag (p.append q) key tag = allUnder p (unknownTag q key tag) := by
  unfold unknownTag
  rw [← Path.append_key, violation_under]

variable [Externals]

theorem validateText_under (minLen maxLen : Option Number) (pattern : Option PatternSource)
    (format : Option Format) (s : String) :
    validateText minLen maxLen pattern format (p.append q) s =
      Result.under p (validateText minLen maxLen pattern format q s) := by
  unfold validateText
  simp only [reportIf_under]
  cases pattern with
  | none =>
    cases format with
    | none => simp
    | some f => simp
  | some pattern =>
    dsimp only
    cases pattern.matchesText s with
    | error e => rfl
    | ok found =>
      cases format with
      | none => simp
      | some f => simp

section

omit [Externals]

theorem validateNumber_under (min max : Option Number) (integral : Bool) (n : Number) :
    validateNumber min max integral (p.append q) n =
      allUnder p (validateNumber min max integral q n) := by
  unfold validateNumber
  split
  · rfl
  · simp only [reportIf_under, Violation.allUnder_append]

theorem validateAny_under (v : Value) :
    validateAny (p.append q) v = allUnder p (validateAny q v) := by
  unfold validateAny
  split
  · rfl
  · rfl

theorem validateItemCount_under (minItems maxItems : Option Number) (n : Nat) :
    validateItemCount minItems maxItems (p.append q) n =
      Result.under p (validateItemCount minItems maxItems q n) := by
  unfold validateItemCount
  split
  · rfl
  · rw [Result.under_ok, Violation.allUnder_append, reportIf_under, reportIf_under]

theorem validateCustom_under (check : AuthorFn) (name v : Value) :
    validateCustom check name (p.append q) v =
      Result.under p (validateCustom check name q v) := by
  unfold validateCustom
  cases runCheck check v with
  | error e => rfl
  | ok messages =>
    simp only [Outcome.ok_bind, Outcome.pure_eq_ok, Result.under_ok, Violation.allUnder_eq,
      List.map_map]
    rfl

end

/-! ## Parts -/

omit [Externals] in
theorem validateEach_under {item : Path → Value → Result} {items : List Value}
    (h : ∀ v ∈ items, ∀ q, item (p.append q) v = Result.under p (item q v)) (index : Nat) :
    validateEach item (p.append q) index items =
      Result.under p (validateEach item q index items) := by
  induction items generalizing index with
  | nil => rfl
  | cons v rest ih =>
    obtain ⟨hv, hrest⟩ := List.forall_mem_cons.mp h
    have hhere : item ((p.append q).index index) v = Result.under p (item (q.index index) v) := by
      rw [← Path.append_index, hv]
    exact Result.under_append hhere (ih hrest (index + 1))

omit [Externals] in
/-- Whether a key can be part of a path does not depend on what comes before it. -/
theorem entryPath_under (key : Key) :
    entryPath (p.append q) key = (entryPath q key).map p.append := by
  unfold entryPath Path.childOf
  cases Segment.ofValue key.toValue with
  | error e => rfl
  | ok s => exact congrArg Except.ok (Path.append_child p q s).symm

omit [Externals] in
theorem undeclared_under (members : List (Member Field)) (entries : List (Key × Value)) :
    undeclared members (p.append q) entries = Result.under p (undeclared members q entries) := by
  induction entries with
  | nil => rfl
  | cons e rest ih =>
    obtain ⟨key, v⟩ := e
    rw [undeclared, undeclared]
    split
    · exact ih
    · rw [entryPath_under, ih]
      cases entryPath q key with
      | error e => rfl
      | ok here =>
        cases undeclared members q rest with
        | error e => rfl
        | ok later => rfl

/-! ## Unions -/

section

omit [Externals]

theorem matchesFrom_under (index : Nat) (results : List (List Violation)) :
    matchesFrom index (results.map (allUnder p)) = matchesFrom index results := by
  induction results generalizing index with
  | nil => rfl
  | cons r rest ih => rw [List.map_cons, matchesFrom, matchesFrom, ih, Violation.isEmpty_allUnder]

theorem nearestFrom_under (index : Nat) (best : Nat × List Violation)
    (results : List (List Violation)) :
    nearestFrom index (best.1, allUnder p best.2) (results.map (allUnder p)) =
      ((nearestFrom index best results).1, allUnder p (nearestFrom index best results).2) := by
  induction results generalizing index best with
  | nil => rfl
  | cons r rest ih =>
    rw [List.map_cons, nearestFrom, nearestFrom, Violation.length_allUnder,
      Violation.length_allUnder]
    split
    · exact ih (index + 1) (index, r)
    · exact ih (index + 1) best

/-- The nearest variant is the one with the fewest mismatches, wherever they are. -/
theorem nearest_under (results : List (List Violation)) :
    nearest (results.map (allUnder p)) = ((nearest results).1, allUnder p (nearest results).2) := by
  cases results with
  | nil => rfl
  | cons r rest => exact nearestFrom_under 1 (0, r) rest

theorem judgeUnion_under (unambiguous : Bool) (results : List (List Violation)) :
    judgeUnion unambiguous (p.append q) (results.map (allUnder p)) =
      allUnder p (judgeUnion unambiguous q results) := by
  unfold judgeUnion
  rw [matchesFrom_under, nearest_under, List.length_map]
  split
  · rfl
  · rfl
  · exact reportIf_under _ _ _

end

end Validation

namespace Field

open Validation Violation

variable {o : Options} {p q : Path}

variable [Externals]

theorem validateItems_under {fields : List Field} {items : List Value}
    (h : ∀ f ∈ fields, ∀ q v, f.validate o (p.append q) v = Result.under p (f.validate o q v))
    (index : Nat) :
    validateItems o fields (p.append q) index items =
      Result.under p (validateItems o fields q index items) := by
  induction fields generalizing index items with
  | nil => rfl
  | cons f rest ih =>
    cases items with
    | nil => rfl
    | cons v more =>
      obtain ⟨hf, hrest⟩ := List.forall_mem_cons.mp h
      have hhere : f.validate o ((p.append q).index index) v =
          Result.under p (f.validate o (q.index index) v) := by
        rw [← Path.append_index, hf]
      exact Result.under_append hhere (ih hrest (index + 1))

theorem validateMember_under {m : Member Field}
    (h : ∀ q v, m.field.validate o (p.append q) v = Result.under p (m.field.validate o q v))
    (entries : List (Key × Value)) :
    validateMember o (p.append q) entries m = Result.under p (validateMember o q entries m) := by
  unfold validateMember
  split
  · rw [← Path.append_key, h]
  · split
    · rw [missingMember_under, Result.under_ok]
    · split
      · rw [← Path.append_key, h]
      · rfl

theorem validateMembers_under {members : List (Member Field)}
    (h : ∀ m ∈ members, ∀ q v,
      m.field.validate o (p.append q) v = Result.under p (m.field.validate o q v))
    (entries : List (Key × Value)) :
    validateMembers o members (p.append q) entries =
      Result.under p (validateMembers o members q entries) := by
  induction members with
  | nil => rfl
  | cons m rest ih =>
    obtain ⟨hm, hrest⟩ := List.forall_mem_cons.mp h
    rw [validateMembers_cons, validateMembers_cons]
    exact Result.under_append (validateMember_under hm entries) (ih hrest)

theorem validateVariants_under {variants : List Field} {v : Value}
    (h : ∀ f ∈ variants, f.validate o (p.append q) v = Result.under p (f.validate o q v)) :
    validateVariants o variants (p.append q) v =
      (validateVariants o variants q v).map (List.map (allUnder p)) := by
  induction variants with
  | nil => rfl
  | cons f rest ih =>
    obtain ⟨hf, hrest⟩ := List.forall_mem_cons.mp h
    rw [validateVariants, validateVariants, hf, ih hrest]
    cases f.validate o q v with
    | error e => rfl
    | ok here =>
      cases validateVariants o rest q v with
      | error e => rfl
      | ok later => rfl

/-- What validation finds at the end of a path is what it finds by itself, moved there. -/
theorem validate_under (f : Field) (v : Value) :
    f.validate o (p.append q) v = Result.under p (f.validate o q v) := by
  induction f generalizing q v with
  | string low high pattern format =>
    rw [validate_string, validate_string]
    split
    · exact congrArg Except.ok absent_under
    · exact validateText_under low high pattern format _
    · exact congrArg Except.ok (typeMismatch_under "string" v)
  | number low high integerOnly =>
    rw [validate_number, validate_number]
    split
    · exact congrArg Except.ok absent_under
    · exact congrArg Except.ok (validateNumber_under low high integerOnly.truthy _)
    · exact congrArg Except.ok (typeMismatch_under "number" v)
  | boolean =>
    rw [validate_boolean, validate_boolean]
    split
    · exact congrArg Except.ok absent_under
    · rfl
    · exact congrArg Except.ok (typeMismatch_under "boolean" v)
  | null =>
    rw [validate_null, validate_null]
    split
    · exact congrArg Except.ok absent_under
    · rfl
    · exact congrArg Except.ok (typeMismatch_under "null" v)
  | any =>
    rw [validate_any, validate_any]
    split
    · exact congrArg Except.ok absent_under
    · exact congrArg Except.ok (validateAny_under v)
  | literal value =>
    rw [validate_literal, validate_literal]
    split
    · exact congrArg Except.ok absent_under
    · exact congrArg Except.ok (reportIf_under _ _ _)
  | array element low high ih =>
    rw [validate_array, validate_array]
    split
    · exact congrArg Except.ok absent_under
    · exact Result.under_append (validateItemCount_under low high _)
        (validateEach_under (fun w _ q => ih w) 0)
    · exact congrArg Except.ok (typeMismatch_under "array" v)
  | tuple fields ih =>
    rw [validate_tuple, validate_tuple]
    split
    · exact congrArg Except.ok absent_under
    · split
      · exact validateItems_under (fun f hf q w => ih f hf w) 0
      · rfl
    · exact congrArg Except.ok (typeMismatch_under "array" v)
  | object members ih =>
    rw [validate_object, validate_object]
    split
    · exact congrArg Except.ok absent_under
    · next entries =>
      have hdeclared : validateMembers o members (p.append q) entries =
          Result.under p (validateMembers o members q entries) :=
        validateMembers_under (fun m hm q w => ih m hm w) entries
      cases o.strict with
      | false => exact Result.under_append hdeclared (y := .ok []) rfl
      | true => exact Result.under_append hdeclared (undeclared_under members entries)
    · exact congrArg Except.ok (typeMismatch_under "object" v)
  | optional inner ih =>
    rw [validate_optional, validate_optional]
    split
    · rfl
    · rfl
    · exact ih v
  | defaulted inner value ih =>
    rw [validate_defaulted, validate_defaulted]
    split
    · exact ih value
    · exact ih v
  | union variants discriminant ih =>
    rw [validate_union, validate_union]
    split
    · exact congrArg Except.ok absent_under
    · cases discriminant with
      | none =>
        simp only
        rw [validateVariants_under fun f hf => ih f hf v]
        cases validateVariants o variants q v with
        | error e => rfl
        | ok results => exact congrArg Except.ok (judgeUnion_under o.unambiguous results)
      | some key =>
        simp only
        split
        · split
          · rw [validateTagged_eq, validateTagged_eq]
            split
            · next f hf => exact ih f (List.mem_of_find?_eq_some hf) _
            · exact congrArg Except.ok (unknownTag_under key _)
          · rfl
        · rfl
  | custom check name =>
    rw [validate_custom, validate_custom]
    split
    · exact congrArg Except.ok absent_under
    · exact validateCustom_under check name v

/-- Validation and the comparison that start at a path find what they find from the root, each
mismatch and each difference with the path in front of its own and otherwise as it is. -/
theorem found_under_path (p : Path) :
    (∀ (f : Field) (o : Options) (v : Value),
      f.validate o p v = Result.under p (f.check o v)) ∧
    ∀ f g : Field, compareAt p f g = (compareAt .root f g).map (Difference.under p) := by
  refine ⟨fun f o v => ?_, fun f g => ?_⟩
  · have h := validate_under (o := o) (p := p) (q := .root) f v
    rwa [Path.append_root] at h
  · have h := compareAt_under (p := p) (q := .root) f g
    rwa [Path.append_root] at h

end Field
end Lineage
