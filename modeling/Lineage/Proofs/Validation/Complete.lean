import Lineage.Format.Email
import Lineage.Proofs.Format.Exclusive
import Lineage.Proofs.Validation.Tags
import Lineage.Proofs.Validation.Total

/-
Validation decides meaning.

On a constructed field validation always gives a result, and it finds nothing exactly
when the value is one of those that the field stands for.  The rules by which a union is
judged never turn a meant value away: of variants that exclude each other exactly one
matches, and a discriminant leads to the one variant whose tag the value carries.  A
default that is checked once, strictly, is meant under all options.
-/

namespace Lineage

namespace Field

open Validation

variable {o : Options} {path : Path} {v : Value}

section

variable [Externals]

/-- What the decision relies on at one field. -/
structure Regular (f : Field) : Prop extends Analysable f where
  declaredTypes : f.HasDeclaredTypes
  plainTags : f.HasPlainTags

theorem Regular.answerable {f : Field} (h : f.Regular) : f.Answerable :=
  ⟨h.notCustom, h.declaredTypes.textPattern, h.declaredTypes.leastCount, h.sound.checkedDefault⟩

theorem validate_returns {f : Field} (hf : f.Everywhere Regular) (hv : CheckedOrMissing v) :
    (f.validate o path v).Returns :=
  validate_answers (hf.imp fun _ => Regular.answerable) (hv.imp_right Value.Checked.kinded)

/-! ## Tags -/

/-- A value of a tagged variant carries the variant's tag. -/
theorem Means.tag {strict : Bool} {f : Field} {key : String} {tag : Scalar}
    (h : Means strict f v) (htag : f.tagOf? key = some tag) :
    ∃ entries s, v = .object entries ∧ Entries.find? (.text key) entries = some (.scalar s) ∧
      tag.equal s = true := by
  obtain ⟨members, rfl, hfind⟩ := tagOf?_eq_some htag
  rw [means_object] at h
  obtain ⟨entries, rfl, hmembers, -⟩ := h
  have hmember := hmembers _ (Member.mem_of_find? hfind)
  refine ⟨entries, ?_⟩
  cases hentry : Entries.find? (.text key) entries with
  | none =>
    have hrequired := (meansMember_of_none hentry).mp hmember
    cases hrequired
  | some w =>
    have hw := (meansMember_of_some hentry).mp hmember
    simp only [Means] at hw
    obtain ⟨s, rfl, hs⟩ := hw
    exact ⟨s, rfl, rfl, hs⟩

/-! ## Meant values are accepted -/

theorem validate_of_means (hexclusive : Format.Exclusive) {f : Field} (hf : f.Everywhere Regular)
    (hv : v.Checked) (h : Means o.strict f v) : f.validate o path v = .ok [] := by
  -- Where a member is absent its default is validated, so the induction carries along what
  -- validation says where nothing is there.
  suffices hboth : (∀ v path, v.Checked → Means o.strict f v → f.validate o path v = .ok []) ∧
      (f.acceptsAbsence = true → ∀ path, f.validate o path .missing = .ok []) from
    hboth.1 v path hv h
  have hnever : ∀ {g : Field} {P : Prop}, g.acceptsAbsence = false → g.acceptsAbsence = true → P :=
    fun hfalse htrue => absurd (hfalse.symm.trans htrue) Bool.false_ne_true
  clear h hv
  induction f with
  | string low high pattern format =>
    refine ⟨fun v path hv h => ?_, hnever rfl⟩
    simp only [Means] at h
    obtain ⟨s, rfl, hbounds, hpattern, hformat⟩ := h
    have hreal := hf.here.realBounds
    obtain ⟨hbelow, habove⟩ := (inBounds_iff (isReal_count _) hreal.1 hreal.2).mp hbounds
    exact validate_string_eq_nil.mpr ⟨s, rfl, hbelow, habove, hpattern, hformat⟩
  | number low high integerOnly =>
    refine ⟨fun v path hv h => ?_, hnever rfl⟩
    simp only [Means] at h
    obtain ⟨n, rfl, hwhole, hbounds⟩ := h
    have hreal := hf.here.realBounds
    obtain ⟨hbelow, habove⟩ := (inBounds_iff hv.isReal hreal.1 hreal.2).mp hbounds
    exact validate_number_eq_nil.mpr ⟨n, rfl, hwhole, hbelow, habove⟩
  | boolean =>
    refine ⟨fun v path hv h => validate_boolean_eq_nil.mpr ?_, hnever rfl⟩
    simpa only [Means] using h
  | null =>
    refine ⟨fun v path hv h => validate_null_eq_nil.mpr ?_, hnever rfl⟩
    simpa only [Means] using h
  | any => exact ⟨fun v path hv h => validate_any_eq_nil.mpr hv, hnever rfl⟩
  | literal value =>
    refine ⟨fun v path hv h => validate_literal_eq_nil.mpr ?_, hnever rfl⟩
    simpa only [Means] using h
  | array element low high ih =>
    refine ⟨fun v path hv h => ?_, hnever rfl⟩
    simp only [Means] at h
    obtain ⟨items, rfl, hleast, hbounds, hitems⟩ := h
    have hreal := hf.here.realBounds
    have hcount := (inBounds_iff (isReal_count _) hreal.1 hreal.2).mp hbounds
    have hchecked := Value.checked_array.mp hv
    refine validate_array_eq_nil.mpr ⟨items, rfl, ⟨hleast, hcount⟩, ?_⟩
    exact validateEach_eq_nil fun w hw q =>
      (ih hf.arrayElement).1 w q (hchecked w hw) (hitems w hw)
  | tuple fields ih =>
    refine ⟨fun v path hv h => ?_, hnever rfl⟩
    rw [means_tuple] at h
    obtain ⟨items, rfl, hitems⟩ := h
    have hchecked := Value.checked_array.mp hv
    refine validate_tuple_eq_nil.mpr ⟨items, rfl, hitems.length_eq.symm, ?_⟩
    exact validateItems_eq_nil (Alongside.imp_mem hitems fun f hfmem w hw hmeans q =>
      (ih f hfmem (hf.tupleItem hfmem)).1 w q (hchecked w hw) hmeans)
  | object members ih =>
    refine ⟨fun v path hv h => ?_, hnever rfl⟩
    rw [means_object] at h
    obtain ⟨entries, rfl, hmembers, hdeclared⟩ := h
    refine validate_object_eq_nil.mpr ⟨entries, rfl, fun m hm => ?_, hdeclared⟩
    obtain ⟨hmeant, habsent⟩ := ih m hm (hf.objectMember hm)
    unfold validateMember
    split
    · next w hw =>
      exact hmeant w _ (hv.find? hw) ((meansMember_of_some hw).mp (hmembers m hm))
    · next hnone =>
      rw [(meansMember_of_none hnone).mp (hmembers m hm), if_neg Bool.false_ne_true]
      split
      · next hacceptsAbsence => exact habsent hacceptsAbsence _
      · rfl
  | optional inner ih =>
    refine ⟨fun v path hv h => ?_, fun _ path => rfl⟩
    simp only [Means] at h
    exact (validate_optional_eq_nil hv.ne_missing).mpr
      (h.imp_right ((ih hf.optionalInner).1 v path hv))
  | defaulted inner value ih =>
    obtain ⟨hmeant, -⟩ := ih hf.defaultedInner
    obtain ⟨hvalue, hcheck⟩ := hf.here.sound
    refine ⟨fun v path hv h => ?_, fun _ path => ?_⟩
    · simp only [Means] at h
      rw [validate_defaulted_present hv.ne_missing]
      exact hmeant v path hv h
    · have hreal : inner.Everywhere HasRealBounds :=
        fun g hg => (hf.defaultedInner g hg).realBounds
      exact hmeant value path hvalue.checked
        (Means.of_strict (means_of_validate hreal hvalue.checked hcheck))
  | union variants discriminant ih =>
    refine ⟨fun v path hv h => ?_, hnever rfl⟩
    rw [means_union] at h
    obtain ⟨f, hfmem, hmeans⟩ := h
    have hfnil := (ih f hfmem (hf.unionVariant hfmem)).1 v path hv hmeans
    cases discriminant with
    | none =>
      have hreturns : (validateVariants o variants path v).Returns :=
        validateVariants_returns.mpr fun g hg => validate_returns (hf.unionVariant hg) (.inr hv)
      obtain ⟨results, hresults⟩ := hreturns
      have hall := validateVariants_eq_ok.mp hresults
      have hone := atMostOneEmpty_of_variants hexclusive
        (fun g hg k hk => (hf.unionVariant hg k hk).toAnalysable) hf.here.sound.2 hv hall
      refine (validate_union_eq_ok hv.ne_missing).mpr ⟨results, hall, ?_⟩
      obtain ⟨r, hr, hfr⟩ := Alongside.exists_right hall hfmem
      rw [hfnil] at hfr
      cases hfr
      exact (judgeUnion_eq_nil hone).mpr hr
    | some key =>
      have hdistinct : TagsDistinct key variants := hf.here.sound.2
      obtain ⟨tag, htag⟩ := hdistinct.tagged f hfmem
      obtain ⟨entries, s, rfl, hentry, hs⟩ := hmeans.tag htag
      have hplain : ∀ n, tag ≠ .number n := fun n hn => hf.here.plainTags f hfmem n (hn ▸ htag)
      obtain rfl : tag = s := Scalar.eq_of_equal hplain hs
      have hself := Scalar.identical_self (Scalar.checked_of_plain hplain)
      exact (validate_discriminated_eq_nil hv.ne_missing).mpr
        ⟨entries, .scalar tag, f, rfl, hentry, find?_hasTag hdistinct hfmem htag hself, hfnil⟩
  | custom check name => exact hf.here.notCustom.elim

/-- Validation computes the meaning of a field: on a constructed tree it gives a result for
every JSON value, whatever the options, and the result is empty exactly on the values that
the field stands for. -/
theorem validation_decides_meaning (hexclusive : Format.Exclusive) {f : Field} (hf : f.Constructed)
    (hcustom : f.Everywhere NotCustom) (htypes : f.Everywhere HasDeclaredTypes)
    (hreal : f.Everywhere HasRealBounds) (htags : f.Everywhere HasPlainTags) {v : Value}
    (hv : v.Checked) (o : Options) (path : Path) :
    (∃ violations, f.validate o path v = .ok violations) ∧
      (f.validate o path v = .ok [] ↔ Means o.strict f v) := by
  have hregular : f.Everywhere Regular := fun g hg =>
    { toAnalysable := hf.analysable hcustom hreal g hg
      declaredTypes := htypes g hg
      plainTags := htags g hg }
  exact ⟨validate_returns hregular (.inr hv), means_of_validate hreal hv,
    validate_of_means hexclusive hregular hv⟩

end

/-- A union of two objects that a text under `kind` tells apart. -/
theorem validation_decides_meaning_tagged :
    let tagged : String → Field := fun tag => .object [⟨"kind", true, .literal (.text tag)⟩]
    let shape : Field := .union [tagged "circle", tagged "square"] (some "kind")
    let v : Value := .object [(.text "kind", .text "square")]
    (∃ violations, shape.check {} v = .ok violations) ∧
      (shape.check {} v = .ok [] ↔ Means true shape v) := by
  intro tagged shape v
  have htagged : ∀ tag, (tagged tag).Constructed := fun tag =>
    @Constructed.object _ [(.text "kind", .literal (.text tag))] .null _
      (List.forall_mem_singleton.mpr (@Constructed.literal _ (.text tag) _ rfl)) rfl
  have hshape : shape.Constructed :=
    @Constructed.union _ [tagged "circle", tagged "square"] (.text "kind") _
      (List.forall_mem_cons.mpr ⟨htagged _, List.forall_mem_singleton.mpr (htagged _)⟩) rfl
  have hall : ∀ {P : Field → Prop}, P shape → (∀ tag, P (tagged tag)) →
      (∀ tag, P (.literal (.text tag))) → shape.Everywhere P := by
    intro P hP htag hliteral
    have hvariant : ∀ tag, (tagged tag).Everywhere P := fun tag =>
      everywhere_object (htag tag)
        (List.forall_mem_singleton.mpr (everywhere_leaf (hliteral tag) rfl))
    exact everywhere_of hP
      (List.forall_mem_cons.mpr ⟨hvariant _, List.forall_mem_singleton.mpr (hvariant _)⟩)
  have hplain : HasPlainTags shape := List.forall_mem_cons.mpr
    ⟨nofun, List.forall_mem_singleton.mpr nofun⟩
  have hv : v.Checked := rfl
  exact validation_decides_meaning Email.exclusive hshape
    (hall trivial (fun _ => trivial) fun _ => trivial)
    (hall trivial (fun _ => trivial) fun _ => trivial)
    (hall trivial (fun _ => trivial) fun _ => trivial)
    (hall hplain (fun _ => trivial) fun _ => trivial) hv {} .root

end Field
end Lineage
