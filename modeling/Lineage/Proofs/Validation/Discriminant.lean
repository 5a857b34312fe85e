import Lineage.Format.Email
import Lineage.Proofs.Field.Rebuilding
import Lineage.Proofs.Validation.Tags
import Lineage.Proofs.Validation.Total

/-
A discriminant only dispatches.

A union that is told apart by a tag can do without it: its variants exclude each other
as they stand, and trying them one by one accepts what following the tag accepts.  Tags
are followed by identity and literals are compared by value, and the two differ on
numbers alone, where `1` and `1.0` are equal but not identical.  So the theorem
`dispatches_only` asks that tags are spelled as the variants spell them, which goes
without saying for texts, truth values and null.
-/

namespace Lineage
namespace Field

open Validation

variable {o : Options} {path : Path} {v : Value} {key : String} {variants : List Field}

/-- The tags of variants that equal a scalar are identical to it. -/
def Spelled (key : String) (variants : List Field) (s : Scalar) : Prop :=
  ∀ g ∈ variants, ∀ tag, g.tagOf? key = some tag → tag.equal s = true → tag.identical s = true

/-- What a value carries under the discriminant is spelled as the variants spell it. -/
def CarriesSpelled (key : String) (variants : List Field) (v : Value) : Prop :=
  ∀ entries s, v = .object entries → Entries.find? (.text key) entries = some (.scalar s) →
    Spelled key variants s

theorem spelled_of_plain (hplain : ∀ f ∈ variants, ∀ n, f.tagOf? key ≠ some (.number n))
    (s : Scalar) : Spelled key variants s := by
  intro g hg tag htag hs
  have htagplain : ∀ n, tag ≠ .number n := fun n hn => hplain g hg n (hn ▸ htag)
  exact Scalar.eq_of_equal htagplain hs ▸
    Scalar.identical_self (Scalar.checked_of_plain htagplain)

/-! ## Variants exclude each other -/

/-- No two variants have equal tags. -/
def TagsUnequal (key : String) (variants : List Field) : Prop :=
  variants.Pairwise fun f g =>
    ∀ a b, f.tagOf? key = some a → g.tagOf? key = some b → b.equal a = false

theorem TagsDistinct.unequal (h : TagsDistinct key variants)
    (hspelled : ∀ f ∈ variants, ∀ tag, f.tagOf? key = some tag → Spelled key variants tag) :
    TagsUnequal key variants := by
  refine h.distinct.imp_of_mem fun {f g} hf hg hfg a b ha hb => ?_
  refine Bool.eq_false_iff.mpr fun hequal => ?_
  have hidentical := hspelled f hf a ha g hg b hb hequal
  rw [hfg a b ha hb] at hidentical
  cases hidentical

section

variable [Externals]

/-- Objects that require unequal literals under one name do not overlap. -/
theorem overlaps_of_tags {f g : Field} {a b : Scalar} (hf : f.tagOf? key = some a)
    (hg : g.tagOf? key = some b) (hne : b.equal a = false) : overlaps f g = false := by
  obtain ⟨members, rfl, hmember⟩ := tagOf?_eq_some hf
  obtain ⟨others, rfl, hother⟩ := tagOf?_eq_some hg
  rw [overlaps_object, Bool.eq_false_iff]
  intro hmembers
  have hliterals : overlaps (.literal a) (.literal b) = true :=
    membersOverlap_iff.mp hmembers _ (Member.mem_of_find? hmember) _ hother rfl rfl
  rw [overlaps_literals, hne] at hliterals
  cases hliterals

theorem TagsUnequal.exclusive (h : TagsUnequal key variants)
    (htagged : ∀ f ∈ variants, ∃ tag, f.tagOf? key = some tag)
    (hpattern : ∀ f ∈ variants, f.Everywhere HasTextPattern) : SoundUnion variants none := by
  refine h.imp_of_mem fun {f g} hf hg hfg => ?_
  obtain ⟨a, ha⟩ := htagged f hf
  obtain ⟨b, hb⟩ := htagged g hg
  rw [mayOverlap_eq (hpattern f hf) (hpattern g hg), overlaps_of_tags ha hb (hfg a b ha hb)]

/-! ## Values carry the tag of the variant that accepts them -/

/-- The tags of two variants that accept one value are equal. -/
theorem equal_of_validate {f g : Field} {a b : Scalar} {o' : Options} {path' : Path}
    (hf : f.tagOf? key = some a) (hg : g.tagOf? key = some b) (hfv : f.validate o path v = .ok [])
    (hgv : g.validate o' path' v = .ok []) : b.equal a = true := by
  obtain ⟨entries, s, rfl, hs, has⟩ := tag_of_validate hf hfv
  obtain ⟨_, t, ⟨⟩, ht, hbt⟩ := tag_of_validate hg hgv
  rw [hs] at ht
  cases ht
  exact Scalar.equal_trans hbt (Scalar.equal_comm _ _ ▸ has)

theorem TagsUnequal.atMostOneEmpty (h : TagsUnequal key variants)
    (htagged : ∀ f ∈ variants, ∃ tag, f.tagOf? key = some tag) {results : List (List Violation)}
    (hall : List.Forall₂ (fun f r => f.validate o path v = .ok r) variants results) :
    AtMostOneEmpty results := by
  refine Alongside.pairwise_right hall h fun f hf g hg r s hfg hr hs => ?_
  rintro ⟨rfl, rfl⟩
  obtain ⟨a, ha⟩ := htagged f hf
  obtain ⟨b, hb⟩ := htagged g hg
  have hequal := equal_of_validate ha hb hr hs
  rw [hfg a b ha hb] at hequal
  cases hequal

/-! ## With and without the discriminant -/

theorem validate_of_undiscriminated (htags : TagsDistinct key variants) (hv : v ≠ .missing)
    (hspelled : CarriesSpelled key variants v)
    (h : (union variants none).validate o path v = .ok []) :
    (union variants (some key)).validate o path v = .ok [] := by
  obtain ⟨results, hall, hjudge⟩ := (validate_union_eq_ok hv).mp h
  obtain ⟨f, hf, hfv⟩ := Alongside.exists_left hall (mem_of_judgeUnion hjudge)
  obtain ⟨tag, htag⟩ := htags.tagged f hf
  obtain ⟨entries, s, rfl, hentry, hs⟩ := tag_of_validate htag hfv
  have hidentical := hspelled entries s rfl hentry f hf tag htag hs
  exact (validate_discriminated_eq_nil hv).mpr ⟨entries, .scalar s, f, rfl, hentry,
    find?_hasTag htags hf htag hidentical, hfv⟩

/-- Where every variant gives a result, the union without the discriminant accepts what one
of its variants accepts. -/
theorem validate_undiscriminated (hunequal : TagsUnequal key variants)
    (htagged : ∀ f ∈ variants, ∃ tag, f.tagOf? key = some tag) (hv : v ≠ .missing)
    (hreturns : ((union variants none).validate o path v).Returns) {f : Field} (hf : f ∈ variants)
    (hfv : f.validate o path v = .ok []) : (union variants none).validate o path v = .ok [] := by
  obtain ⟨violations, hviolations⟩ := hreturns
  obtain ⟨results, hall, -⟩ := (validate_union_eq_ok hv).mp hviolations
  obtain ⟨r, hr, hfr⟩ := Alongside.exists_right hall hf
  rw [hfv] at hfr
  cases hfr
  exact (validate_union_eq_ok hv).mpr
    ⟨results, hall, (judgeUnion_eq_nil (hunequal.atMostOneEmpty htagged hall)).mpr hr⟩

omit [Externals] in
theorem union_answerable (hvariants : ∀ f ∈ variants, f.Everywhere Answerable)
    (discriminant : Option String) : (union variants discriminant).Everywhere Answerable :=
  everywhere_of ⟨trivial, trivial, trivial, trivial⟩ hvariants

/-- Where patterns are texts, a union with a discriminant constructs without it.  Where tags are
spelled as the variants spell them both accept the same JSON values, whatever the options.
Attributes of the declared types ensure that both give a result; otherwise the union without
the discriminant, which tries every variant, may fail where the other does not look. -/
theorem dispatches_only (hf : (union variants (some key)).Constructed)
    (hcustom : ∀ g ∈ variants, g.Everywhere NotCustom)
    (hspelled : ∀ g ∈ variants, ∀ tag, g.tagOf? key = some tag → Spelled key variants tag) :
    ((∀ g ∈ variants, g.Everywhere HasTextPattern) →
      makeUnion (variants.map .field) .null = .ok (.union variants none)) ∧
      ∀ (o : Options) (path : Path) (v : Value), v.Checked →
        ((∀ g ∈ variants, g.Everywhere HasDeclaredTypes) →
          ((union variants (some key)).validate o path v).Returns ∧
            ((union variants none).validate o path v).Returns) ∧
        (((union variants none).validate o path v).Returns → CarriesSpelled key variants v →
          ((union variants (some key)).validate o path v = .ok [] ↔
            (union variants none).validate o path v = .ok [])) := by
  obtain ⟨hlength, htags⟩ : 2 ≤ variants.length ∧ TagsDistinct key variants := hf.sound.here
  have hunequal := htags.unequal hspelled
  refine ⟨fun hpattern => makeUnion_of hlength (hunequal.exclusive htags.tagged hpattern),
    fun o path v hv => ⟨?_, ?_⟩⟩
  · intro htypes
    have hanswerable : ∀ g ∈ variants, g.Everywhere Answerable := by
      intro g hg k hk
      exact ⟨hcustom g hg k hk, (htypes g hg k hk).textPattern, (htypes g hg k hk).leastCount,
        (hf.sound.unionVariant hg k hk).checkedDefault⟩
    exact ⟨validate_answers (union_answerable hanswerable _) (.inr hv.kinded),
      validate_answers (union_answerable hanswerable _) (.inr hv.kinded)⟩
  · intro hreturns hcarries
    refine ⟨fun h => ?_, validate_of_undiscriminated htags hv.ne_missing hcarries⟩
    obtain ⟨_, _, f, -, -, hfind, hfv⟩ := (validate_discriminated_eq_nil hv.ne_missing).mp h
    exact validate_undiscriminated hunequal htags.tagged hv.ne_missing hreturns
      (List.mem_of_find?_eq_some hfind) hfv

/-- An object whose one member is a literal. -/
def labelled (tag : Scalar) : Field := .object [⟨"k", true, .literal tag⟩]

theorem labelled_constructed (tag : Scalar) : (labelled tag).Constructed :=
  @Constructed.object _ [(.text "k", .literal tag)] .null _
    (List.forall_mem_singleton.mpr (@Constructed.literal _ (.scalar tag) _ rfl)) rfl

omit [Externals] in
theorem labelled_everywhere {P : Field → Prop} {tag : Scalar} (hobject : P (labelled tag))
    (hliteral : P (.literal tag)) : (labelled tag).Everywhere P :=
  everywhere_object hobject (List.forall_mem_singleton.mpr (everywhere_leaf hliteral rfl))

omit [Externals] in
theorem labelled_answerable (tag : Scalar) : (labelled tag).Everywhere Answerable :=
  labelled_everywhere ⟨trivial, trivial, trivial, trivial⟩ ⟨trivial, trivial, trivial, trivial⟩

theorem labelled_accepts {tag s : Scalar} (h : tag.equal s = true) :
    (labelled tag).validate o path (.object [(.text "k", .scalar s)]) = .ok [] := by
  have hliteral : (literal tag).validate o (path.key "k") (.scalar s) = .ok [] :=
    validate_literal_eq_nil.mpr ⟨s, rfl, h⟩
  exact validate_object_eq_nil.mpr ⟨_, rfl, List.forall_mem_singleton.mpr hliteral,
    fun _ => List.forall_mem_singleton.mpr rfl⟩

end

/-- Null and a truth value as tags, and the object that carries the latter. -/
theorem dispatches_only_labelled :
    let variants : List Field := [labelled .null, labelled (.bool true)]
    let v : Value := .object [(.text "k", .bool true)]
    makeUnion (variants.map .field) .null = .ok (.union variants none) ∧
      ((union variants (some "k")).check {} v = .ok [] ↔
        (union variants none).check {} v = .ok []) := by
  intro variants v
  have hboth : ∀ {P : Field → Prop}, P (labelled .null) → P (labelled (.bool true)) →
      ∀ f ∈ variants, P f :=
    fun hnull htrue => List.forall_mem_cons.mpr ⟨hnull, List.forall_mem_singleton.mpr htrue⟩
  have hconstructed : (union variants (some "k")).Constructed :=
    @Constructed.union _ variants (.text "k") _
      (hboth (labelled_constructed _) (labelled_constructed _)) rfl
  have hall : ∀ {P : Field → Prop}, (∀ tag, P (labelled tag)) → (∀ tag, P (.literal tag)) →
      ∀ f ∈ variants, f.Everywhere P :=
    fun hobject hliteral => hboth (labelled_everywhere (hobject _) (hliteral _))
      (labelled_everywhere (hobject _) (hliteral _))
  have hplain : ∀ f ∈ variants, ∀ n, f.tagOf? "k" ≠ some (.number n) := hboth nofun nofun
  have hspelled := spelled_of_plain hplain
  obtain ⟨hmake, hsame⟩ := dispatches_only hconstructed (hall (fun _ => trivial) fun _ => trivial)
    fun _ _ tag _ => hspelled tag
  obtain ⟨hreturns, haccepts⟩ := hsame {} .root v rfl
  have htexts : ∀ f ∈ variants, f.Everywhere HasTextPattern :=
    hall (fun _ => trivial) fun _ => trivial
  have htypes : ∀ f ∈ variants, f.Everywhere HasDeclaredTypes :=
    hall (fun _ => trivial) fun _ => trivial
  exact ⟨hmake htexts, haccepts (hreturns htypes).2 fun _ s _ _ => hspelled s⟩

/-- The number one as a double is not the tag `1`, though the literal takes it for `1`: the
discriminant turns a value away that a variant accepts. -/
theorem dispatches_by_spelling :
    let variants : List Field := [labelled (.number (.int 1)), labelled (.number (.int 2))]
    let v : Value := .object [(.text "k", .number (.float (.units unitsPerOne)))]
    makeUnion (variants.map .field) (.text "k") = .ok (.union variants (some "k")) ∧
      makeUnion (variants.map .field) .null = .ok (.union variants none) ∧ v.Checked ∧
      (union variants (some "k")).check {} v ≠ .ok [] ∧
      (union variants none).check {} v = .ok [] := by
  intro variants v
  have hone : (Scalar.number (.int 1)).equal (.number (.float (.units unitsPerOne))) = true := by
    decide +kernel
  have htwo : (Scalar.number (.int 2)).equal (.number (.int 1)) = false := by decide +kernel
  have hunequal : TagsUnequal "k" variants := by
    refine List.pairwise_pair.mpr fun a b ha hb => ?_
    cases ha
    cases hb
    exact htwo
  have htagged : ∀ f ∈ variants, ∃ tag, f.tagOf? "k" = some tag :=
    List.forall_mem_cons.mpr ⟨⟨_, rfl⟩, List.forall_mem_singleton.mpr ⟨_, rfl⟩⟩
  have hexclusive : SoundUnion variants none := hunequal.exclusive htagged
    (List.forall_mem_cons.mpr ⟨labelled_everywhere trivial trivial,
      List.forall_mem_singleton.mpr (labelled_everywhere trivial trivial)⟩)
  have hv : v ≠ .missing := nofun
  have hchecked : v.Checked := rfl
  have hlength : 2 ≤ variants.length := Nat.le_refl 2
  refine ⟨rfl, makeUnion_of hlength hexclusive, hchecked, ?_, ?_⟩
  · intro h
    obtain ⟨entries, tag, f, hentries, hentry, hfind, -⟩ := (validate_discriminated_eq_nil hv).mp h
    obtain rfl := Value.object.inj hentries
    cases hentry
    have hnone : (variants.find? (hasTag "k" (.number (.float (.units unitsPerOne))))).isSome =
        false := rfl
    rw [hfind] at hnone
    cases hnone
  · have hanswerable : ∀ f ∈ variants, f.Everywhere Answerable := List.forall_mem_cons.mpr
      ⟨labelled_answerable _, List.forall_mem_singleton.mpr (labelled_answerable _)⟩
    have hreturns : ((union variants none).check {} v).Returns :=
      validate_answers (union_answerable hanswerable none) (.inr hchecked.kinded)
    exact validate_undiscriminated hunequal htagged hv hreturns List.mem_cons_self
      (labelled_accepts hone)

end Field
end Lineage
