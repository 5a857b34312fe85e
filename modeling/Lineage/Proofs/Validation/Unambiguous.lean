import Lineage.Proofs.Field.Overlap
import Lineage.Proofs.Format.Exclusive
import Lineage.Proofs.Validation.Related

/-
Unions of constructed fields are never ambiguous.

Variants that construction lets into a union have no value in common, so at most one
of them accepts a value and the flag that reports several has nothing to report, at
any depth.  What stands for absent members has passed the check for JSON, so the
argument goes through it as well.
-/

namespace Lineage

/-- One mismatch is another or stands, at some depth, among the mismatches of its
nearest variant. -/
inductive Violation.Nested (w : Violation) : Violation → Prop
  | here : Nested w w
  | nearest {v u : Violation} (hu : u ∈ v.nearest) (h : Nested w u) : Nested w v

namespace Validation

/-! ## Mismatches at every depth -/

/-- Something holds of every mismatch, at any depth. -/
def Throughout (P : Violation → Prop) (violations : List Violation) : Prop :=
  ∀ v ∈ violations, ∀ w, Violation.Nested w v → P w

def ThroughoutResult (P : Violation → Prop) (r : Result) : Prop :=
  ∀ violations, r = .ok violations → Throughout P violations

section Throughout

variable {P : Violation → Prop}

theorem throughout_nil : Throughout P [] := List.forall_mem_nil _

theorem Throughout.append {vs ws : List Violation} (hv : Throughout P vs) (hw : Throughout P ws) :
    Throughout P (vs ++ ws) := by
  intro v hmem
  rcases List.mem_append.mp hmem with hmem | hmem
  · exact hv v hmem
  · exact hw v hmem

/-- What holds of mismatches that have none below them holds throughout them. -/
theorem throughout_of_single {vs : List Violation} (h : ∀ d ∈ vs, d.nearest = [] ∧ P d) :
    Throughout P vs := by
  intro v hv w hw
  obtain ⟨hnearest, hP⟩ := h v hv
  cases hw with
  | here => exact hP
  | nearest hu =>
    rw [hnearest] at hu
    cases hu

theorem throughout_violation {path : Path} {kind : Violation.Kind} {message : String}
    (h : P (violation path kind message)) : Throughout P [violation path kind message] :=
  throughout_of_single (List.forall_mem_singleton.mpr ⟨rfl, h⟩)

theorem throughoutResult_ok {vs : List Violation} (h : Throughout P vs) :
    ThroughoutResult P (.ok vs) := by
  rintro _ ⟨⟩
  exact h

theorem ThroughoutResult.append {x y : Result} (hx : ThroughoutResult P x)
    (hy : ThroughoutResult P y) :
    ThroughoutResult P (do let a ← x; let b ← y; return a ++ b) := by
  intro vs h
  obtain ⟨a, ha, h⟩ := Outcome.bind_eq_ok.mp h
  obtain ⟨b, hb, h⟩ := Outcome.bind_eq_ok.mp h
  cases h
  exact (hx a ha).append (hy b hb)

theorem throughout_nearestFrom {index : Nat} {best : Nat × List Violation}
    {results : List (List Violation)} (hbest : Throughout P best.2)
    (h : ∀ r ∈ results, Throughout P r) : Throughout P (nearestFrom index best results).2 := by
  induction results generalizing index best with
  | nil => exact hbest
  | cons r rest ih =>
    obtain ⟨hr, hrest⟩ := List.forall_mem_cons.mp h
    unfold nearestFrom
    refine ih ?_ hrest
    split
    · exact hr
    · exact hbest

theorem throughout_nearest {results : List (List Violation)} (h : ∀ r ∈ results, Throughout P r) :
    Throughout P (nearest results).2 := by
  cases results with
  | nil => exact throughout_nil
  | cons r rest =>
    obtain ⟨hr, hrest⟩ := List.forall_mem_cons.mp h
    exact throughout_nearestFrom hr hrest

end Throughout

/-! ## No ambiguity -/

/-- No mismatch, at any depth, says that several variants match. -/
abbrev Clear (violations : List Violation) : Prop :=
  Throughout (fun w => w.kind ≠ .unionAmbiguous) violations

abbrev ClearResult (r : Result) : Prop := ThroughoutResult (fun w => w.kind ≠ .unionAmbiguous) r

theorem Basic.clear {vs : List Violation} (h : Basic vs) : Clear vs :=
  throughout_of_single fun d hd => ⟨(h d hd).1, (h d hd).2.2⟩

theorem BasicResult.clear {r : Result} (h : BasicResult r) : ClearResult r :=
  fun violations hr => (h violations hr).clear

/-! ## Parts -/

theorem clear_undeclared {members : List (Member Field)} {path : Path}
    {entries : List (Key × Value)} : ClearResult (undeclared members path entries) := by
  induction entries with
  | nil => exact throughoutResult_ok throughout_nil
  | cons e rest ih =>
    obtain ⟨key, v⟩ := e
    unfold undeclared
    split
    · exact ih
    · intro vs h
      obtain ⟨here, -, h⟩ := Outcome.bind_eq_ok.mp h
      obtain ⟨later, hlater, h⟩ := Outcome.bind_eq_ok.mp h
      cases h
      refine Throughout.append (throughout_violation ?_) (ih later hlater)
      exact (show Violation.Kind.unexpectedField ≠ _ by decide)

/-- Where at most one variant matches, the judgement has no ambiguity to report. -/
theorem clear_judgeUnion {unambiguous : Bool} {path : Path} {results : List (List Violation)}
    (hone : AtMostOneEmpty results) (h : ∀ r ∈ results, Clear r) :
    Clear (judgeUnion unambiguous path results) := by
  unfold judgeUnion
  rcases matchesFrom_of_atMostOne hone 0 with hnone | ⟨i, hi⟩
  · rw [hnone]
    intro v hv w hw
    obtain rfl := List.mem_singleton.mp hv
    cases hw with
    | here => exact nofun
    | nearest hu hw => exact throughout_nearest h _ hu w hw
  · rw [hi]
    exact throughout_nil

theorem judgeUnion_congr {a b : Bool} {path : Path} {results : List (List Violation)}
    (hone : AtMostOneEmpty results) : judgeUnion a path results = judgeUnion b path results := by
  unfold judgeUnion
  rcases matchesFrom_of_atMostOne hone 0 with hnone | ⟨i, hi⟩
  · rw [hnone]
  · rw [hi]

end Validation

namespace Field

open Validation

variable {o o' : Options} {path : Path} {v : Value}

section

variable [Externals]

theorem validateVariants_congr {variants : List Field}
    (h : ∀ f ∈ variants, f.validate o path v = f.validate o' path v) :
    validateVariants o variants path v = validateVariants o' variants path v := by
  induction variants with
  | nil => rfl
  | cons f rest ih =>
    obtain ⟨hf, hrest⟩ := List.forall_mem_cons.mp h
    rw [validateVariants, validateVariants, hf, ih hrest]

/-- At most one variant of a constructed union accepts a value. -/
theorem atMostOneEmpty_of_variants (hexclusive : Format.Exclusive) {variants : List Field}
    (hf : ∀ f ∈ variants, f.Everywhere Analysable)
    (hapart : variants.Pairwise fun f g => mayOverlap f g = .ok false) (hv : v.Checked)
    {results : List (List Violation)}
    (h : List.Forall₂ (fun f r => f.validate o path v = .ok r) variants results) :
    AtMostOneEmpty results := by
  refine Alongside.pairwise_right h hapart fun f hfmem g hgmem r s hfg hr hs => ?_
  rintro ⟨rfl, rfl⟩
  exact not_accepted_by_both hexclusive (hf f hfmem) (hf g hgmem) hfg hv hr hs

theorem Analysable.checkedDefault {inner : Field} {value : Value}
    (h : Analysable (.defaulted inner value)) : value.Checked :=
  h.sound.1.checked

/-- Options make no difference if they agree on strictness. -/
theorem sensitive_eq (hexclusive : Format.Exclusive) (hstrict : o.strict = o'.strict) :
    Sensitive Eq Analysable o o' where
  toCompositional := compositional_eq
  extra _ := by
    unfold undeclaredIf
    rw [hstrict]
  variants {fs path v} hf hv h := by
    rw [validate_union, validate_union]
    split
    · rfl
    · simp only
      rw [validateVariants_congr h]
      cases hresults : validateVariants o' fs path v with
      | error e => rfl
      | ok results =>
        have hone := atMostOneEmpty_of_variants hexclusive (fun f hfmem => hf.unionVariant hfmem)
          hf.here.sound.2 hv (validateVariants_eq_ok.mp hresults)
        exact congrArg Except.ok (judgeUnion_congr hone)

theorem validate_congr (hexclusive : Format.Exclusive) {f : Field} (hf : f.Everywhere Analysable)
    (hv : CheckedOrMissing v) (hstrict : o.strict = o'.strict) :
    f.validate o path v = f.validate o' path v :=
  (sensitive_eq hexclusive hstrict).validate Analysable.checkedDefault hf hv

theorem sensitive_clear (hexclusive : Format.Exclusive) :
    Sensitive (fun r _ => ClearResult r) Analysable o o where
  basic h := h.clear
  append hx hy := hx.append hy
  extra _ := by
    unfold undeclaredIf
    split
    · exact clear_undeclared
    · exact throughoutResult_ok throughout_nil
  variants hf hv h := by
    intro vs hvs
    obtain ⟨results, hall, rfl⟩ := (validate_union_eq_ok hv.ne_missing).mp hvs
    have hone := atMostOneEmpty_of_variants hexclusive (fun f hfmem => hf.unionVariant hfmem)
      hf.here.sound.2 hv hall
    refine clear_judgeUnion hone fun r hr => ?_
    obtain ⟨f, hfmem, hfr⟩ := Alongside.exists_left hall hr
    exact h f hfmem r hfr

/-- No mismatch between a value and a constructed field, at any depth, says that several
variants of a union match. -/
theorem clear_validate (hexclusive : Format.Exclusive) {f : Field} (hf : f.Everywhere Analysable)
    (hv : CheckedOrMissing v) : ClearResult (f.validate o path v) :=
  (sensitive_clear hexclusive).validate Analysable.checkedDefault hf hv

/-- Fields that the analysis tells apart accept no value in common, whatever the options.
So no union in a constructed tree is ambiguous on any value: the flag that asks for reports
makes no difference, and no mismatch at any depth is of that kind. -/
theorem exclusivity_sound (hexclusive : Format.Exclusive) :
    (∀ f g : Field, f.Constructed → g.Constructed →
      f.Everywhere NotCustom → g.Everywhere NotCustom →
      f.Everywhere HasRealBounds → g.Everywhere HasRealBounds → mayOverlap f g = .ok false →
      ∀ v : Value, v.Checked → ∀ (o o' : Options) (path path' : Path),
        ¬(f.validate o path v = .ok [] ∧ g.validate o' path' v = .ok [])) ∧
    (∀ f : Field, f.Constructed → f.Everywhere NotCustom → f.Everywhere HasRealBounds →
      ∀ v : Value, v.Checked → ∀ (strict : Bool) (path : Path),
        f.validate ⟨strict, true⟩ path v = f.validate ⟨strict, false⟩ path v ∧
        ∀ (unambiguous : Bool) (violations : List Violation),
          f.validate ⟨strict, unambiguous⟩ path v = .ok violations →
          ∀ d ∈ violations, ∀ e, Violation.Nested e d → e.kind ≠ .unionAmbiguous) := by
  constructor
  · rintro f g hf hg hfcustom hgcustom hfreal hgreal hapart v hv o o' path path' ⟨hfv, hgv⟩
    exact not_accepted_by_both hexclusive (hf.analysable hfcustom hfreal)
      (hg.analysable hgcustom hgreal) hapart hv hfv hgv
  · intro f hf hcustom hreal v hv strict path
    have hanalysable := hf.analysable hcustom hreal
    exact ⟨validate_congr hexclusive hanalysable (.inr hv) rfl,
      fun unambiguous violations h => clear_validate hexclusive hanalysable (.inr hv) violations h⟩

end

/-- Two ranges that do not meet, the union of them, and the number one. -/
theorem exclusivity_sound_ranges :
    let low : Field := .number none (some (.int 1)) (.bool false)
    let high : Field := .number (some (.int 2)) none (.bool false)
    let either : Field := .union [low, high] none
    Format.Exclusive ∧ mayOverlap low high = .ok false ∧ (Value.int 1).Checked ∧
      ¬(low.check {} (.int 1) = .ok [] ∧ high.check {} (.int 1) = .ok []) ∧
      either.validate ⟨true, true⟩ .root (.int 1) = either.validate ⟨true, false⟩ .root (.int 1) := by
  intro low high either
  have hlow : low.Constructed :=
    .number (show makeNumber .null (.int 1) (.bool false) = .ok low from rfl)
  have hhigh : high.Constructed :=
    .number (show makeNumber (.int 2) .null (.bool false) = .ok high from rfl)
  have hapart : mayOverlap low high = .ok false := by
    have hdisjoint : rangesDisjoint none (some (.int 1)) (some (.int 2)) none = true := by
      decide +kernel
    rw [mayOverlap, hdisjoint]
    rfl
  have heither : either.Constructed := by
    refine @Constructed.union _ [low, high] .null _ ?_ ?_
    · simp [hlow, hhigh]
    · simp [makeUnion, children?, child?, firstOverlap, overlapsWith?, hapart, either]
  have hcustom : ∀ f ∈ [low, high], f.Everywhere NotCustom :=
    List.forall_mem_cons.mpr ⟨everywhere_leaf trivial rfl,
      List.forall_mem_singleton.mpr (everywhere_leaf trivial rfl)⟩
  have hint : ∀ k : Int, RealBound (some (.int k)) := by
    intro k n hn
    rw [← Option.some.inj hn]
    rfl
  have hreal : ∀ f ∈ [low, high], f.Everywhere HasRealBounds :=
    List.forall_mem_cons.mpr ⟨everywhere_leaf ⟨realBound_none, hint 1⟩ rfl,
      List.forall_mem_singleton.mpr (everywhere_leaf ⟨hint 2, realBound_none⟩ rfl)⟩
  have hone : (Value.int 1).Checked := rfl
  obtain ⟨hpairs, htrees⟩ := exclusivity_sound Email.exclusive
  refine ⟨Email.exclusive, hapart, hone, ?_, ?_⟩
  · exact hpairs low high hlow hhigh (hcustom _ (by simp)) (hcustom _ (by simp))
      (hreal _ (by simp)) (hreal _ (by simp)) hapart _ hone {} {} .root .root
  · exact (htrees either heither (everywhere_of trivial hcustom)
      (everywhere_of trivial hreal) _ hone true .root).1

end Field
end Lineage
