import Lineage.Proofs.Field.Constructed
import Lineage.Proofs.Field.OverlapAnswer
import Lineage.Proofs.Validation.Meant
import Lineage.Proofs.Value.Equality

/-
Soundness of the analysis of overlaps.

A value that two fields stand for is a reason for the analysis to report an overlap.
Turned around, fields that it tells apart have no value in common, and no value is
accepted by both, whatever the options.  What is an e-mail address is not for this
program to say; that no unique identifier is one is what the analysis relies on.
-/

namespace Lineage

namespace Format

variable [Externals]

/-- No text is both an e-mail address and a unique identifier. -/
def Exclusive : Prop := ∀ s, Externals.isEmail s = true → Uuid.isUuid s = false

/-- If so, no text has both well-known forms. -/
theorem Exclusive.eq (h : Exclusive) {f g : Format} {s : String} (hf : f.matchesText s = true)
    (hg : g.matchesText s = true) : f = g := by
  have hnever : Externals.isEmail s = true → Uuid.isUuid s = true → False := by
    intro hemail huuid
    rw [h s hemail] at huuid
    cases huuid
  cases f with
  | email =>
    cases g with
    | email => rfl
    | uuid => exact (hnever hf hg).elim
  | uuid =>
    cases g with
    | email => exact (hnever hg hf).elim
    | uuid => rfl

end Format

namespace Field

open Validation

/-! ## Kinds -/

theorem anyMayAccept_iff {kind : Kind} {variants : List Field} :
    anyMayAccept kind variants = true ↔ ∃ f ∈ variants, f.mayAccept kind = true := by
  induction variants with
  | nil => simp [anyMayAccept]
  | cons f rest ih => simp [anyMayAccept, ih]

variable [Externals]

/-- A field can accept the kinds of the values that it stands for. -/
theorem Means.mayAccept {strict : Bool} {f : Field} {v : Value} {kind : Kind}
    (h : Means strict f v) (hkind : v.kind? = some kind) : f.mayAccept kind = true := by
  induction f with
  | string low high pattern format =>
    simp only [Means] at h
    obtain ⟨s, rfl, -⟩ := h
    cases hkind
    rfl
  | number low high integerOnly =>
    simp only [Means] at h
    obtain ⟨n, rfl, -⟩ := h
    cases hkind
    rfl
  | boolean =>
    simp only [Means] at h
    obtain ⟨b, rfl⟩ := h
    cases hkind
    rfl
  | null =>
    simp only [Means] at h
    subst h
    cases hkind
    rfl
  | any => rfl
  | literal value =>
    simp only [Means] at h
    obtain ⟨s, rfl, hs⟩ := h
    cases hkind
    exact beq_iff_eq.mpr (Scalar.kind_eq_of_equal hs).symm
  | array element low high =>
    simp only [Means] at h
    obtain ⟨items, rfl, -⟩ := h
    cases hkind
    rfl
  | tuple fields =>
    rw [means_tuple] at h
    obtain ⟨items, rfl, -⟩ := h
    cases hkind
    rfl
  | object members =>
    rw [means_object] at h
    obtain ⟨entries, rfl, -⟩ := h
    cases hkind
    rfl
  | optional inner ih =>
    simp only [Means] at h
    rw [Field.mayAccept, Bool.or_eq_true]
    rcases h with rfl | h
    · cases hkind
      exact .inl rfl
    · exact .inr (ih h)
  | defaulted inner value ih =>
    simp only [Means] at h
    exact ih h
  | union variants key ih =>
    rw [means_union] at h
    obtain ⟨f, hf, h⟩ := h
    exact anyMayAccept_iff.mpr ⟨f, hf, ih f hf h⟩
  | custom check name => rfl

omit [Externals] in
/-- A field of a kind of its own accepts no other. -/
theorem eq_ownKind_of_mayAccept {f : Field} {own kind : Kind} (hown : f.ownKind? = some own)
    (h : f.mayAccept kind = true) : kind = own := by
  cases f with
  | any | literal | optional | defaulted | union | custom => cases hown
  | _ =>
    cases hown
    exact beq_iff_eq.mp h

/-! ## Bounds -/

section

omit [Externals]

/-- Ranges that share a number are not disjoint. -/
theorem rangesDisjoint_of_inBounds {lowA highA lowB highB : Option Number} {n : Number}
    (ha : InBounds lowA highA n) (hb : InBounds lowB highB n) :
    rangesDisjoint lowA highA lowB highB = false := by
  have hapart : ∀ {low high : Option Number}, (∀ b, low = some b → b.atMost n = true) →
      (∀ b, high = some b → n.atMost b = true) →
      high.any (fun h => low.any h.lt) = false := by
    intro low high hlow hhigh
    cases high with
    | none => rfl
    | some h =>
      cases low with
      | none => rfl
      | some l =>
        refine Bool.eq_false_iff.mpr fun hlt => ?_
        exact Number.not_between hlt (hhigh h rfl) (hlow l rfl)
  unfold rangesDisjoint
  rw [hapart hb.1 ha.2, hapart ha.1 hb.2]
  rfl

theorem inBounds_exact {n : Number} (hn : n.isReal = true) : InBounds (some n) (some n) n := by
  have hself : n.atMost n = true := by
    rw [Number.atMost, Number.same_refl hn, Bool.or_true]
  constructor
  · rintro b ⟨⟩
    exact hself
  · rintro b ⟨⟩
    exact hself

theorem lengthAllowed_of_inBounds {low high : Option Number} {n : Nat}
    (h : InBounds low high (count n)) : lengthAllowed n low high = true := by
  show (!rangesDisjoint (some (count n)) (some (count n)) low high) = true
  rw [rangesDisjoint_of_inBounds (inBounds_exact (isReal_count n)) h]
  rfl

/-- A lower bound on counts that lets zero through is zero. -/
theorem isZeroBound_of_inBounds {low high : Option Number} (hleast : low.isSome = true)
    (hnegative : NotNegative low) (h : InBounds low high (count 0)) :
    isZeroBound low = true := by
  obtain ⟨b, rfl⟩ := Option.isSome_iff_exists.mp hleast
  have hmost := h.1 b rfl
  rw [Number.atMost, Bool.or_eq_true] at hmost
  rcases hmost with hlt | hsame
  · exact absurd hlt (by rw [show count 0 = .int 0 from rfl, hnegative b rfl]; simp)
  · exact hsame

end

/-! ## Literals -/

theorem takes_iff {f : Field} {s : Scalar} :
    f.takes s = true ↔ f.check {} (.scalar s) = .ok [] := by
  unfold takes
  cases f.check {} (.scalar s) with
  | error e => simp
  | ok violations => simp

theorem takes_literal (a b : Scalar) : (literal b).takes a = b.equal a := by
  rw [Bool.eq_iff_iff, takes_iff, check, validate_literal_eq_nil]
  constructor
  · rintro ⟨s, ⟨⟩, h⟩
    exact h
  · intro h
    exact ⟨a, rfl, h⟩

theorem overlaps_literals (a b : Scalar) : overlaps (.literal a) (.literal b) = b.equal a := by
  rw [overlaps_literal_left a (g := .literal b) trivial, takes_literal]

/-- What a field accepts of a scalar it accepts of an equal one. -/
theorem takes_of_means {f : Field} {a s : Scalar} (hbasic : f.IsBasic)
    (hreal : HasRealBounds f) (hs : (Value.scalar s).Checked) (h : Means false f (.scalar s))
    (heq : a.equal s = true) : f.takes a = true := by
  rw [takes_iff]
  cases f with
  | string low high pattern format =>
    simp only [Means] at h
    obtain ⟨t, ⟨⟩, hbounds, hpattern, hformat⟩ := h
    obtain rfl : a = .text t := by
      cases a <;> simp_all [Scalar.equal]
    obtain ⟨hbelow, habove⟩ := (inBounds_iff (isReal_count _) hreal.1 hreal.2).mp hbounds
    exact validate_string_eq_nil.mpr ⟨t, rfl, hbelow, habove, hpattern, hformat⟩
  | number low high integerOnly =>
    simp only [Means] at h
    obtain ⟨n, ⟨⟩, hwhole, hbounds⟩ := h
    obtain ⟨m, rfl⟩ : ∃ m, a = .number m := by
      cases a <;> simp_all [Scalar.equal]
    obtain ⟨hbelow, habove⟩ := (inBounds_iff hs.isReal hreal.1 hreal.2).mp hbounds
    have hposition : m.position = n.position := Number.position_eq_of_same heq
    refine validate_number_eq_nil.mpr ⟨m, rfl, ?_, ?_, ?_⟩
    · rw [Number.isIntegral_congr hposition]
      exact hwhole
    · rw [← hbelow]
      cases low with
      | none => rfl
      | some b => exact Number.lt_congr_left hposition b
    · rw [← habove]
      cases high with
      | none => rfl
      | some b => exact Number.lt_congr_right hposition b
  | boolean =>
    simp only [Means] at h
    obtain ⟨b, ⟨⟩⟩ := h
    obtain ⟨c, rfl⟩ : ∃ c, a = .bool c := by
      cases a <;> simp_all [Scalar.equal]
    rfl
  | null =>
    simp only [Means] at h
    cases h
    obtain rfl : a = .null := by
      cases a <;> simp_all [Scalar.equal]
    rfl
  | literal value =>
    simp only [Means] at h
    obtain ⟨t, ⟨⟩, ht⟩ := h
    refine validate_literal_eq_nil.mpr ⟨a, rfl, ?_⟩
    exact Scalar.equal_trans ht (Scalar.equal_comm _ _ ▸ heq)
  | array element low high =>
    simp only [Means] at h
    obtain ⟨items, ⟨⟩, -⟩ := h
  | tuple fields =>
    rw [means_tuple] at h
    obtain ⟨items, ⟨⟩, -⟩ := h
  | object members =>
    rw [means_object] at h
    obtain ⟨entries, ⟨⟩, -⟩ := h
  | optional | defaulted | union | any | custom => cases hbasic

/-! ## The analysis -/

/-- What the analysis relies on at one field. -/
structure Analysable (f : Field) : Prop where
  notCustom : f.NotCustom
  realBounds : f.HasRealBounds
  sound : f.SoundHere

theorem Constructed.analysable {f : Field} (hf : f.Constructed) (hcustom : f.Everywhere NotCustom)
    (hreal : f.Everywhere HasRealBounds) : f.Everywhere Analysable :=
  fun g hg => ⟨hcustom g hg, hreal g hg, hf.sound g hg⟩

/-- Some value that both fields stand for. -/
def HaveCommon (f g : Field) : Prop := ∃ v : Value, v.Checked ∧ Means false f v ∧ Means false g v

theorem HaveCommon.symm {f g : Field} (h : f.HaveCommon g) : g.HaveCommon f := by
  obtain ⟨v, hv, hfv, hgv⟩ := h
  exact ⟨v, hv, hgv, hfv⟩

theorem overlaps_optional_of_common {inner g : Field} (h : (optional inner).HaveCommon g)
    (hinner : inner.HaveCommon g → overlaps inner g = true) :
    (g.mayAccept .null || overlaps inner g) = true := by
  obtain ⟨v, hv, hfv, hgv⟩ := h
  simp only [Means] at hfv
  rw [Bool.or_eq_true]
  rcases hfv with rfl | hfv
  · exact .inl (hgv.mayAccept rfl)
  · exact .inr (hinner ⟨v, hv, hfv, hgv⟩)

theorem overlaps_union_of_common {variants : List Field} {key : Option String} {g : Field}
    (h : (union variants key).HaveCommon g)
    (hvariants : ∀ k ∈ variants, k.HaveCommon g → overlaps k g = true) :
    (variants.any fun k => overlaps k g) = true := by
  obtain ⟨v, hv, hfv, hgv⟩ := h
  obtain ⟨k, hk, hkv⟩ := means_union.mp hfv
  exact List.any_eq_true.mpr ⟨k, hk, hvariants k hk ⟨v, hv, hkv, hgv⟩⟩

/-- A field takes a literal with which it has a value in common. -/
theorem takes_of_common {a : Scalar} {g : Field} (hbasic : g.IsBasic) (hreal : g.HasRealBounds)
    (h : (literal a).HaveCommon g) : g.takes a = true := by
  obtain ⟨v, hv, hfv, hgv⟩ := h
  simp only [Means] at hfv
  obtain ⟨s, rfl, hs⟩ := hfv
  exact takes_of_means hbasic hreal hv hgv hs

theorem formatsDisjoint_of_matches (hexclusive : Format.Exclusive) {a b : Option Format}
    {s : String} (ha : ∀ x, a = some x → x.matchesText s = true)
    (hb : ∀ x, b = some x → x.matchesText s = true) : formatsDisjoint a b = false := by
  cases a with
  | none => rfl
  | some x =>
    cases b with
    | none => rfl
    | some y =>
      rw [formatsDisjoint, hexclusive.eq (ha x rfl) (hb y rfl)]
      exact bne_self_eq_false y

theorem overlaps_string_of_common (hexclusive : Format.Exclusive)
    {minA maxA minB maxB : Option Number} {patternA patternB : Option PatternSource}
    {formatA formatB : Option Format}
    (h : (string minA maxA patternA formatA).HaveCommon (.string minB maxB patternB formatB)) :
    (!formatsDisjoint formatA formatB && !rangesDisjoint minA maxA minB maxB) = true := by
  obtain ⟨v, -, hfv, hgv⟩ := h
  simp only [Means] at hfv hgv
  obtain ⟨s, rfl, hboundsA, -, hformatA⟩ := hfv
  obtain ⟨t, ⟨⟩, hboundsB, -, hformatB⟩ := hgv
  rw [rangesDisjoint_of_inBounds hboundsA hboundsB,
    formatsDisjoint_of_matches hexclusive hformatA hformatB]
  rfl

theorem overlaps_number_of_common {minA maxA minB maxB : Option Number} {wholeA wholeB : Value}
    (h : (number minA maxA wholeA).HaveCommon (.number minB maxB wholeB)) :
    (!rangesDisjoint minA maxA minB maxB) = true := by
  obtain ⟨v, -, hfv, hgv⟩ := h
  simp only [Means] at hfv hgv
  obtain ⟨n, rfl, -, hboundsA⟩ := hfv
  obtain ⟨m, ⟨⟩, -, hboundsB⟩ := hgv
  rw [rangesDisjoint_of_inBounds hboundsA hboundsB]
  rfl

theorem membersOverlap_of_common {a b : List (Member Field)}
    (h : (object a).HaveCommon (.object b))
    (hmembers : ∀ m ∈ a, ∀ n ∈ b, m.field.HaveCommon n.field →
      overlaps m.field n.field = true) : membersOverlap a b = true := by
  obtain ⟨v, hv, hfv, hgv⟩ := h
  rw [means_object] at hfv hgv
  obtain ⟨entries, rfl, hmembersA, -⟩ := hfv
  obtain ⟨_, ⟨⟩, hmembersB, -⟩ := hgv
  refine membersOverlap_iff.mpr fun m hm n hn hrequired _ => ?_
  have hnmem := Member.mem_of_find? hn
  -- the value has an entry under the name, since the left object requires one
  cases hfind : Entries.find? (.text m.name) entries with
  | none =>
    have hmember := (meansMember_of_none hfind).mp (hmembersA m hm)
    rw [hrequired] at hmember
    cases hmember
  | some w =>
    have hmw := (meansMember_of_some hfind).mp (hmembersA m hm)
    rw [← Member.name_of_find? hn] at hfind
    have hnw := (meansMember_of_some hfind).mp (hmembersB n hnmem)
    exact hmembers m hm n hnmem ⟨w, hv.find? hfind, hmw, hnw⟩

theorem overlaps_array_of_common {elementA elementB : Field}
    {minA maxA minB maxB : Option Number} (hlowA : NotNegative minA) (hlowB : NotNegative minB)
    (h : (array elementA minA maxA).HaveCommon (.array elementB minB maxB))
    (helements : elementA.HaveCommon elementB → overlaps elementA elementB = true) :
    (!rangesDisjoint minA maxA minB maxB &&
      ((isZeroBound minA && isZeroBound minB) || overlaps elementA elementB)) = true := by
  obtain ⟨v, hv, hfv, hgv⟩ := h
  simp only [Means] at hfv hgv
  obtain ⟨items, rfl, hleastA, hboundsA, hitemsA⟩ := hfv
  obtain ⟨_, ⟨⟩, hleastB, hboundsB, hitemsB⟩ := hgv
  rw [rangesDisjoint_of_inBounds hboundsA hboundsB, Bool.not_false, Bool.true_and,
    Bool.or_eq_true]
  cases items with
  | nil =>
    refine .inl ?_
    rw [isZeroBound_of_inBounds hleastA hlowA hboundsA,
      isZeroBound_of_inBounds hleastB hlowB hboundsB]
    rfl
  | cons w rest =>
    have hw := List.mem_cons_self (a := w) (l := rest)
    exact .inr (helements ⟨w, Value.checked_array.mp hv w hw, hitemsA w hw, hitemsB w hw⟩)

theorem overlaps_tuple_of_common {a b : List Field} (h : (tuple a).HaveCommon (.tuple b))
    (hitems : ∀ k ∈ a, ∀ l ∈ b, k.HaveCommon l → overlaps k l = true) :
    (a.length == b.length && (a.zip b).all fun p => overlaps p.1 p.2) = true := by
  obtain ⟨v, hv, hfv, hgv⟩ := h
  rw [means_tuple] at hfv hgv
  obtain ⟨items, rfl, hitemsA⟩ := hfv
  obtain ⟨_, ⟨⟩, hitemsB⟩ := hgv
  rw [Bool.and_eq_true, beq_iff_eq, List.all_eq_true]
  have hbeside : List.Forall₂ (fun k l => overlaps k l = true) a b :=
    Alongside.meet hitemsA hitemsB fun k hk l hl w hw hkw hlw =>
      hitems k hk l hl ⟨w, Value.checked_array.mp hv w hw, hkw, hlw⟩
  exact ⟨hbeside.length_eq, fun p hp => List.forall₂_zip hbeside hp⟩

theorem overlaps_tuple_array_of_common {items : List Field} {element : Field}
    {low high : Option Number} (h : (tuple items).HaveCommon (.array element low high))
    (hitems : ∀ k ∈ items, k.HaveCommon element → overlaps k element = true) :
    (lengthAllowed items.length low high && items.all fun k => overlaps k element) = true := by
  obtain ⟨v, hv, hfv, hgv⟩ := h
  rw [means_tuple] at hfv
  simp only [Means] at hgv
  obtain ⟨values, rfl, hvalues⟩ := hfv
  obtain ⟨_, ⟨⟩, -, hbounds, helement⟩ := hgv
  rw [hvalues.length_eq, lengthAllowed_of_inBounds hbounds, Bool.true_and]
  refine List.all_eq_true.mpr fun k hk => ?_
  obtain ⟨w, hw, hkw⟩ := Alongside.exists_right hvalues hk
  exact hitems k hk ⟨w, Value.checked_array.mp hv w hw, hkw, helement w hw⟩

/-- Fields of different kinds have nothing in common. -/
theorem kind_eq_of_common {f g : Field} {kind kind' : Kind} (hf : f.ownKind? = some kind)
    (hg : g.ownKind? = some kind') (h : f.HaveCommon g) : kind = kind' := by
  obtain ⟨v, hv, hfv, hgv⟩ := h
  obtain ⟨k, hk⟩ := hv.kind
  rw [← eq_ownKind_of_mayAccept hf (hfv.mayAccept hk),
    ← eq_ownKind_of_mayAccept hg (hgv.mayAccept hk)]

/-- A value that two fields stand for is seen by the analysis. -/
theorem overlaps_of_common (hexclusive : Format.Exclusive) {f g : Field}
    (hf : f.Everywhere Analysable) (hg : g.Everywhere Analysable) (h : f.HaveCommon g) :
    overlaps f g = true := by
  induction f, g using overlapInduction with
  | custom_left => exact hf.here.notCustom.elim
  | custom_right => exact hg.here.notCustom.elim
  | defaulted_left inner value g ih =>
    rw [overlaps_defaulted_left]
    exact ih hf.defaultedInner hg (by simpa only [HaveCommon, Means] using h)
  | defaulted_right f inner value ih =>
    rw [overlaps_defaulted_right]
    exact ih hf hg.defaultedInner (by simpa only [HaveCommon, Means] using h)
  | optional_left inner g hbare ih =>
    rw [overlaps_optional_left inner hbare]
    exact overlaps_optional_of_common h (ih hf.optionalInner hg)
  | optional_right f inner hpresent ih =>
    rw [overlaps_optional_right hpresent]
    exact overlaps_optional_of_common h.symm (ih hg.optionalInner hf)
  | union_left variants key g hpresent ih =>
    rw [overlaps_union_left variants key hpresent]
    exact overlaps_union_of_common h fun k hk => ih k hk (hf.unionVariant hk) hg
  | union_right f variants key hplain ih =>
    rw [overlaps_union_right hplain]
    exact overlaps_union_of_common h.symm fun k hk => ih k hk (hg.unionVariant hk) hf
  | any_left g hplain => exact overlaps_any_left hplain
  | any_right f hbasic => exact overlaps_any_right hbasic.plain
  | literal_left a g hbasic =>
    rw [overlaps_literal_left a hbasic]
    exact takes_of_common hbasic hg.here.realBounds h
  | literal_right f b kind hkind =>
    rw [overlaps_literal_right hkind]
    exact takes_of_common (basic_of_ownKind hkind) hf.here.realBounds h.symm
  | string =>
    rw [overlaps]
    exact overlaps_string_of_common hexclusive h
  | number =>
    rw [overlaps]
    exact overlaps_number_of_common h
  | boolean | null => rw [overlaps]
  | object a b ih =>
    rw [overlaps_object]
    exact membersOverlap_of_common h fun m hm n hn =>
      ih m hm n hn (hf.objectMember hm) (hg.objectMember hn)
  | array elementA minA maxA elementB minB maxB ih =>
    rw [overlaps]
    exact overlaps_array_of_common hf.here.sound.low hg.here.sound.low h
      (ih hf.arrayElement hg.arrayElement)
  | tuple a b ih =>
    rw [overlaps_tuple]
    exact overlaps_tuple_of_common h fun k hk l hl =>
      ih k hk l hl (hf.tupleItem hk) (hg.tupleItem hl)
  | tuple_array items element low high ih =>
    rw [overlaps_tuple_array]
    exact overlaps_tuple_array_of_common h fun k hk => ih k hk (hf.tupleItem hk) hg.arrayElement
  | array_tuple element low high items ih =>
    rw [overlaps_array_tuple]
    exact overlaps_tuple_array_of_common h.symm fun k hk =>
      ih k hk (hg.tupleItem hk) hf.arrayElement
  | apart f g kind kind' hkind hkind' hne => exact absurd (kind_eq_of_common hkind hkind' h) hne

/-- Fields that the analysis tells apart accept no value in common, each under whatever
options. -/
theorem not_accepted_by_both (hexclusive : Format.Exclusive) {f g : Field}
    (hf : f.Everywhere Analysable) (hg : g.Everywhere Analysable) (h : mayOverlap f g = .ok false)
    {v : Value} (hv : v.Checked) {o o' : Options} {path path' : Path}
    (hfv : f.validate o path v = .ok []) :
    g.validate o' path' v ≠ .ok [] := by
  have hlenient : ∀ {strict : Bool} {k : Field}, Means strict k v → Means false k v := by
    intro strict k hk
    cases strict with
    | false => exact hk
    | true => exact hk.lenient
  intro hgv
  have hfmeans := hlenient (means_of_validate (fun k hk => (hf k hk).realBounds) hv hfv)
  have hgmeans := hlenient (means_of_validate (fun k hk => (hg k hk).realBounds) hv hgv)
  have hseen : overlaps f g = true := overlaps_of_common hexclusive hf hg ⟨v, hv, hfmeans, hgmeans⟩
  rw [overlaps_of_mayOverlap h] at hseen
  cases hseen

end Field
end Lineage
