import Lineage.Format.Email
import Lineage.Proofs.Format.Exclusive
import Lineage.Proofs.Sample.Number
import Lineage.Proofs.Validation.Alike
import Lineage.Proofs.Validation.Leniency
import Lineage.Proofs.Validation.Tags

/-
Generated samples conform.

What a field generates has the shape that the field asks for, so validation has nothing
to report about it: not about numbers and counts, which are drawn within the bounds; not
about texts, which are tried before they are given; and not about unions, since a value
of one variant is none of the others.  What can still happen is that validation fails, at
an array without a least count or a pattern of octets in a variant that the value is not
from.
-/

namespace Lineage
namespace Validation

/-! ## Results that report nothing -/

/-- If there is a result, nothing is found. -/
def Silent (r : Result) : Prop := ∀ violations, r = .ok violations → violations = []

theorem silent_of_eq_nil {r : Result} (h : r = .ok []) : Silent r := by
  rintro violations hr
  rw [h] at hr
  exact (Except.ok.inj hr).symm

theorem Silent.append {x y : Result} (hx : Silent x) (hy : Silent y) :
    Silent (do let a ← x; let b ← y; return a ++ b) := by
  intro violations h
  obtain ⟨a, ha, h⟩ := Outcome.bind_eq_ok.mp h
  obtain ⟨b, hb, h⟩ := Outcome.bind_eq_ok.mp h
  cases h
  rw [hx a ha, hy b hb]
  rfl

theorem silent_each {item : Path → Value → Result} {path : Path} {index : Nat}
    {items : List Value} (h : ∀ v ∈ items, ∀ q, Silent (item q v)) :
    Silent (validateEach item path index items) := by
  induction items generalizing index with
  | nil => exact silent_of_eq_nil rfl
  | cons v rest ih =>
    obtain ⟨hv, hrest⟩ := List.forall_mem_cons.mp h
    exact (hv _).append (ih hrest)

end Validation

namespace Field

open Validation Sample

variable {σ : Type} {o : Options} {path : Path} {f : Field} {v : Value}

section

variable [Externals]

theorem silent_items {fields : List Field} {index : Nat} {items : List Value}
    (h : List.Forall₂ (fun f v => ∀ q, Silent (f.validate o q v)) fields items) :
    Silent (validateItems o fields path index items) := by
  induction h generalizing index with
  | nil => exact silent_of_eq_nil rfl
  | cons hv _ ih => exact (hv _).append ih

theorem silent_members {members : List (Member Field)} {entries : List (Key × Value)}
    (h : ∀ m ∈ members, Silent (validateMember o path entries m)) :
    Silent (validateMembers o members path entries) := by
  induction members with
  | nil => exact silent_of_eq_nil rfl
  | cons m rest ih =>
    obtain ⟨hm, hrest⟩ := List.forall_mem_cons.mp h
    rw [validateMembers_cons]
    exact hm.append (ih hrest)

/-! ## Samples -/

/-- A bound of numbers that is a double is one that doubles hold. -/
def HasRoundedBounds : Field → Prop
  | number low high _ =>
    (∀ n, low = some n → n.IsRounded) ∧ ∀ n, high = some n → n.IsRounded
  | _ => True

/-- What the generator needs at one field. -/
structure Samplable (f : Field) : Prop where
  analysable : f.Analysable
  finite : f.HasFiniteNumbers
  rounded : f.HasRoundedBounds

/-- A value that a field may generate: validation reports nothing about it under any
options, and tags stand in it as they are. -/
structure Sampled (f : Field) (v : Value) : Prop where
  checked : v.Checked
  silent (o : Options) (path : Path) : Silent (f.validate o path v)
  literal : ∀ tag, f = .literal tag → v = .scalar tag
  tagged : ∀ key tag, f.tagOf? key = some tag →
    ∃ entries, v = .object entries ∧ Entries.find? (.text key) entries = some (.scalar tag)

/-- A field that is neither a literal nor an object has no tags. -/
theorem sampled_of_silent (hchecked : v.Checked)
    (hsilent : ∀ o path, Silent (f.validate o path v)) (hliteral : ∀ tag, f ≠ .literal tag)
    (hobject : ∀ members, f ≠ .object members) : Sampled f v where
  checked := hchecked
  silent := hsilent
  literal tag h := absurd h (hliteral tag)
  tagged key tag h := by
    obtain ⟨members, hf, -⟩ := tagOf?_eq_some h
    exact absurd hf (hobject members)

omit [Externals] in
theorem heldBound_of_rounded {bound : Option Number} (hfinite : FiniteBound bound)
    (hrounded : ∀ n, bound = some n → n.IsRounded) : HeldBound bound :=
  fun n hn => (hrounded n hn).held (hfinite n hn)

/-! ## Scalars -/

section Scalars

variable (src : Source σ)

/-- A text is given once the field itself has accepted it. -/
theorem yields_firstFitting (minLen maxLen : Option Number) (texts : List String) :
    Yields (firstFitting src f minLen maxLen texts) fun v =>
      ∃ s, v = .text s ∧ f.check {} (.text s) = .ok [] := by
  induction texts with
  | nil => exact yields_throw
  | cons s rest ih =>
    refine yields_bind fun fitted => ?_
    refine Yields.bind (yields_lift fun _ h => h) fun violations hviolations => ?_
    refine yields_ite (fun hempty => yields_pure ⟨fitted, rfl, ?_⟩) fun _ => ih
    rw [hviolations, List.isEmpty_iff.mp hempty]

theorem yields_string (low high : Option Number) (pattern : Option PatternSource)
    (format : Option Format) (name : Option String) :
    Yields ((string low high pattern format).generate src name)
      (Sampled (string low high pattern format)) := by
  refine yields_bind fun texts => (yields_firstFitting src low high texts).imp ?_
  rintro _ ⟨s, rfl, hs⟩
  have hparts := validate_string_eq_nil.mp hs
  exact sampled_of_silent (Value.checked_text s)
    (fun o path => silent_of_eq_nil (validate_string_eq_nil.mpr hparts)) nofun nofun

theorem yields_number {low high : Option Number} {integerOnly : Value}
    (hf : (number low high integerOnly).Samplable) (name : Option String) :
    Yields ((number low high integerOnly).generate src name)
      (Sampled (number low high integerOnly)) := by
  have hlow := heldBound_of_rounded hf.finite.1 hf.rounded.1
  have hhigh := heldBound_of_rounded hf.finite.2 hf.rounded.2
  refine (yields_drawNumber src hf.analysable.sound hlow hhigh integerOnly.truthy name).imp ?_
  rintro _ ⟨n, rfl, hfits⟩
  refine sampled_of_silent (Value.checked_number hfits.finite)
    (fun o path => silent_of_eq_nil (validate_number_eq_nil.mpr ?_)) nofun nofun
  exact ⟨n, rfl, hfits.whole, hfits.notBelow, hfits.notAbove⟩

end Scalars

theorem sampled_literal {tag : Scalar} (hfinite : (literal tag).HasFiniteNumbers) :
    Sampled (literal tag) (.scalar tag) := by
  have hchecked : (Value.scalar tag).Checked := by
    cases tag with
    | number n => exact Value.checked_number (hfinite n rfl)
    | _ => rfl
  refine ⟨hchecked, fun o path => silent_of_eq_nil ?_, ?_, nofun⟩
  · exact validate_literal_eq_nil.mpr ⟨tag, rfl, Scalar.equal_self hchecked⟩
  · rintro _ ⟨⟩
    rfl

/-! ## Wrappers -/

section Wrappers

variable {inner : Field} {value : Value}

/-- The value of a default conforms under all options, not only under those of the
construction. -/
theorem accepts_default (hexclusive : Format.Exclusive)
    (hf : (defaulted inner value).Everywhere Analysable) :
    inner.validate o path value = .ok [] := by
  obtain ⟨hjson, hvalid⟩ := hf.here.sound
  have hhere := (validate_elsewhere inner value .root path).mp hvalid
  exact accepts_of_laxer hexclusive hf.defaultedInner (.inr hjson.checked) (fun _ => rfl) hhere

theorem sampled_null : Sampled (optional inner) .null :=
  sampled_of_silent Value.checked_null
    (fun o path => by rw [validate_optional]; exact silent_of_eq_nil rfl) nofun nofun

theorem sampled_optional (hv : Sampled inner v) : Sampled (optional inner) v := by
  refine sampled_of_silent hv.checked (fun o path => ?_) nofun nofun
  rw [validate_optional]
  split
  · exact silent_of_eq_nil rfl
  · exact silent_of_eq_nil rfl
  · exact hv.silent o path

theorem sampled_default (hexclusive : Format.Exclusive)
    (hf : (defaulted inner value).Everywhere Analysable) :
    Sampled (defaulted inner value) value := by
  have hchecked : value.Checked := hf.here.sound.1.checked
  refine sampled_of_silent hchecked (fun o path => silent_of_eq_nil ?_) nofun nofun
  rw [validate_defaulted_present hchecked.ne_missing]
  exact accepts_default hexclusive hf

theorem sampled_defaulted (hv : Sampled inner v) : Sampled (defaulted inner value) v := by
  refine sampled_of_silent hv.checked (fun o path => ?_) nofun nofun
  rw [validate_defaulted_present hv.checked.ne_missing]
  exact hv.silent o path

end Wrappers

/-! ## Arrays and tuples -/

section Items

variable {element : Field} {low high : Option Number} {fields : List Field} {items : List Value}

theorem sampled_array (hcount : low.isSome = true ∧ below (count items.length) low = false ∧
      above (count items.length) high = false) (hitems : ∀ v ∈ items, Sampled element v) :
    Sampled (array element low high) (.array items) := by
  refine sampled_of_silent (Value.checked_array.mpr fun v hv => (hitems v hv).checked)
    (fun o path => ?_) nofun nofun
  rw [validate_array]
  exact (silent_of_eq_nil (validateItemCount_eq_nil.mpr hcount)).append
    (silent_each fun v hv q => (hitems v hv).silent o q)

theorem sampled_tuple (h : List.Forall₂ Sampled fields items) :
    Sampled (tuple fields) (.array items) := by
  have hchecked : ∀ v ∈ items, v.Checked := by
    intro v hv
    obtain ⟨f, -, hf⟩ := Alongside.exists_left h hv
    exact hf.checked
  refine sampled_of_silent (Value.checked_array.mpr hchecked) (fun o path => ?_) nofun nofun
  rw [validate_tuple]
  simp only [if_pos h.length_eq.symm]
  exact silent_items (h.imp fun f v hv q => hv.silent o q)

theorem yields_generateEach (src : Source σ) (name : Option String)
    (h : ∀ f ∈ fields, Yields (f.generate src name) (Sampled f)) :
    Yields (generateEach src name fields) fun items => List.Forall₂ Sampled fields items := by
  induction fields with
  | nil => exact yields_pure .nil
  | cons f rest ih =>
    obtain ⟨hf, hrest⟩ := List.forall_mem_cons.mp h
    exact hf.bind fun v hv => (ih hrest).bind fun vs hvs => yields_pure (.cons hv hvs)

end Items

/-! ## Objects -/

section Members

variable {members rest : List (Member Field)} {entries : List (Key × Value)} {m : Member Field}

/-- Entries as they are generated: each under a name that is declared, with a sample of the
field of that name, and one for each name that is required. -/
structure Filled (members : List (Member Field)) (entries : List (Key × Value)) : Prop where
  declared : ∀ e ∈ entries, ∃ m ∈ members, e.1 = .text m.name ∧ Sampled m.field e.2
  required : ∀ m ∈ members, m.required = true → ∃ v, (Key.text m.name, v) ∈ entries

theorem Filled.keep (hv : Sampled m.field v) (h : Filled rest entries) :
    Filled (m :: rest) ((.text m.name, v) :: entries) where
  declared := by
    refine List.forall_mem_cons.mpr ⟨⟨m, List.mem_cons_self, rfl, hv⟩, fun e he => ?_⟩
    obtain ⟨n, hn, hsampled⟩ := h.declared e he
    exact ⟨n, List.mem_cons_of_mem _ hn, hsampled⟩
  required := by
    refine List.forall_mem_cons.mpr ⟨fun _ => ⟨v, List.mem_cons_self⟩, fun n hn hrequired => ?_⟩
    obtain ⟨w, hw⟩ := h.required n hn hrequired
    exact ⟨w, List.mem_cons_of_mem _ hw⟩

theorem Filled.skip (hm : m.required = false) (h : Filled rest entries) :
    Filled (m :: rest) entries where
  declared e he := by
    obtain ⟨n, hn, hsampled⟩ := h.declared e he
    exact ⟨n, List.mem_cons_of_mem _ hn, hsampled⟩
  required := by
    refine List.forall_mem_cons.mpr ⟨fun hrequired => ?_, h.required⟩
    rw [hm] at hrequired
    cases hrequired

theorem yields_generateMembers (src : Source σ)
    (h : ∀ m ∈ members, ∀ name, Yields (m.field.generate src name) (Sampled m.field)) :
    Yields (generateMembers src members) (Filled members) := by
  induction members with
  | nil => exact yields_pure ⟨List.forall_mem_nil _, List.forall_mem_nil _⟩
  | cons m rest ih =>
    obtain ⟨hm, hrest⟩ := List.forall_mem_cons.mp h
    obtain ⟨name, required, f⟩ := m
    have homitted : Yields (omits src required)
        fun omitted => omitted = true → required = false := by
      refine yields_ite (fun _ => yields_pure nofun) fun hrequired => ?_
      intro s omitted s' _ _
      exact Bool.not_eq_true _ |>.mp hrequired
    refine homitted.bind fun omitted hrequired => ?_
    refine yields_ite (fun hskip => (ih hrest).imp fun entries => ?_) fun _ => ?_
    · exact Filled.skip (hrequired hskip)
    · exact (hm (some name)).bind fun v hv => (ih hrest).bind fun entries hentries =>
        yields_pure (hentries.keep hv)

/-- An object may lack what accepts absence. -/
theorem silent_missing (hexclusive : Format.Exclusive) (hf : f.Everywhere Analysable)
    (habsence : f.acceptsAbsence = true) : Silent (f.validate o path .missing) := by
  cases f with
  | optional inner =>
    rw [validate_optional]
    exact silent_of_eq_nil rfl
  | defaulted inner value =>
    rw [validate_defaulted]
    exact silent_of_eq_nil (accepts_default hexclusive hf)
  | _ => cases habsence

theorem sampled_object (hexclusive : Format.Exclusive) (hf : (object members).Everywhere Analysable)
    (h : Filled members entries) : Sampled (object members) (.object entries) := by
  have hnodup : (Member.names members).Nodup := hf.here.sound
  have hfound : ∀ m ∈ members, ∀ w, Entries.find? (.text m.name) entries = some w →
      Sampled m.field w := by
    intro m hm w hw
    obtain ⟨n, hn, hname, hsampled⟩ := h.declared _ (Entries.mem_of_find?_text hw)
    obtain rfl := Member.eq_of_name hnodup hm hn (by simpa using hname)
    exact hsampled
  have hpresent : ∀ m ∈ members, m.required = true →
      ∃ w, Entries.find? (.text m.name) entries = some w := by
    intro m hm hrequired
    obtain ⟨w, hw⟩ := h.required m hm hrequired
    exact Option.ne_none_iff_exists'.mp fun hnone => Entries.find?_eq_none.mp hnone _ hw rfl
  have hmember : ∀ o path, ∀ m ∈ members, Silent (validateMember o path entries m) := by
    intro o path m hm
    unfold validateMember
    split
    · next w hw => exact (hfound m hm w hw).silent o _
    · next hnone =>
      split
      · next hrequired =>
        obtain ⟨w, hw⟩ := hpresent m hm hrequired
        rw [hw] at hnone
        cases hnone
      · split
        · next habsence => exact silent_missing hexclusive (hf.objectMember hm) habsence
        · exact silent_of_eq_nil rfl
  refine ⟨?_, fun o path => ?_, nofun, fun key tag htag => ?_⟩
  · refine Value.checked_object.mpr fun e he => ?_
    obtain ⟨m, -, hname, hsampled⟩ := h.declared e he
    exact ⟨⟨m.name, hname⟩, hsampled.checked⟩
  · rw [validate_object_entries]
    refine (silent_members (hmember o path)).append ?_
    unfold undeclaredIf
    split
    · refine silent_of_eq_nil (undeclared_eq_nil.mpr fun e he => ?_)
      obtain ⟨m, hm, hname, -⟩ := h.declared e he
      rw [hname]
      exact Member.declares_of_mem hm
    · exact silent_of_eq_nil rfl
  · obtain ⟨members', hmembers, hfind⟩ := tagOf?_eq_some htag
    cases hmembers
    have hm := Member.mem_of_find? hfind
    obtain ⟨w, hw⟩ := hpresent _ hm rfl
    rw [← (hfound _ hm w hw).literal tag rfl]
    exact ⟨entries, rfl, hw⟩

end Members

/-! ## Unions -/

section Variants

variable {variants : List Field} {g : Field}

theorem yields_generateVariant (src : Source σ) (name : Option String) (index : Nat)
    (h : ∀ g ∈ variants, Yields (g.generate src name) (Sampled g)) :
    Yields (generateVariant src name index variants) fun v => ∃ g ∈ variants, Sampled g v := by
  induction variants generalizing index with
  | nil => cases index <;> exact yields_throw
  | cons g rest ih =>
    obtain ⟨hg, hrest⟩ := List.forall_mem_cons.mp h
    cases index with
    | zero => exact hg.imp fun v hv => ⟨g, List.mem_cons_self, hv⟩
    | succ index =>
      refine (ih index hrest).imp ?_
      rintro v ⟨k, hk, hv⟩
      exact ⟨k, List.mem_cons_of_mem _ hk, hv⟩

/-- A sample of a variant is one of the union: no other variant accepts it, or the tag in it
leads back to its own. -/
theorem sampled_union (hexclusive : Format.Exclusive) {discriminant : Option String}
    (hf : (union variants discriminant).Everywhere Analysable) (hg : g ∈ variants)
    (hv : Sampled g v) : Sampled (union variants discriminant) v := by
  have hne := hv.checked.ne_missing
  refine sampled_of_silent hv.checked (fun o path => ?_) nofun nofun
  cases discriminant with
  | none =>
    intro violations h
    obtain ⟨results, hall, rfl⟩ := (validate_union_eq_ok hne).mp h
    have hone := atMostOneEmpty_of_variants hexclusive (fun f hfmem => hf.unionVariant hfmem)
      hf.here.sound.2 hv.checked hall
    obtain ⟨r, hr, hgr⟩ := Alongside.exists_right hall hg
    obtain rfl := hv.silent o path r hgr
    exact (judgeUnion_eq_nil hone).mpr hr
  | some key =>
    have hdistinct : TagsDistinct key variants := hf.here.sound.2
    obtain ⟨tag, htag⟩ := hdistinct.tagged g hg
    obtain ⟨entries, rfl, hfind⟩ := hv.tagged key tag htag
    have hidentical := Scalar.identical_self (hv.checked.find? hfind)
    rw [validate_union]
    simp only [hfind]
    rw [validateTagged_eq, find?_hasTag hdistinct hg htag hidentical]
    exact hv.silent o path

end Variants

/-! ## Whole trees -/

/-- Whatever is drawn, a value that is generated is a sample of its field. -/
theorem yields_generate (hexclusive : Format.Exclusive) (src : Source σ) {f : Field}
    (hf : f.Everywhere Samplable) (name : Option String) :
    Yields (f.generate src name) (Sampled f) := by
  have hanalysable : f.Everywhere Analysable := hf.imp fun g hg => hg.analysable
  induction f generalizing name with
  | string low high pattern format => exact yields_string src low high pattern format name
  | number => exact yields_number src hf.here name
  | boolean =>
    refine yields_bind fun k => yields_pure ?_
    exact sampled_of_silent (Value.checked_bool _) (fun o path => silent_of_eq_nil rfl) nofun nofun
  | null =>
    exact yields_pure
      (sampled_of_silent Value.checked_null (fun o path => silent_of_eq_nil rfl) nofun nofun)
  | any =>
    refine yields_bind fun s => yields_pure ?_
    exact sampled_of_silent (Value.checked_text s)
      (fun o path => silent_of_eq_nil (validate_any_eq_nil.mpr (Value.checked_text s))) nofun nofun
  | literal tag => exact yields_pure (sampled_literal hf.here.finite)
  | array element low high ih =>
    refine (yields_itemCount src hf.here.analysable.sound hf.here.finite.2).bind fun n hn => ?_
    have helement := ih hf.arrayElement name hanalysable.arrayElement
    refine (yields_repeated helement n).bind fun items hitems => yields_pure ?_
    exact sampled_array (hitems.1.symm ▸ hn) hitems.2
  | tuple fields ih =>
    have heach := yields_generateEach src name fun f hfmem =>
      ih f hfmem (hf.tupleItem hfmem) name (hanalysable.tupleItem hfmem)
    exact heach.bind fun items hitems => yields_pure (sampled_tuple hitems)
  | object members ih =>
    have hmembers := yields_generateMembers src fun m hm name =>
      ih m hm (hf.objectMember hm) name (hanalysable.objectMember hm)
    exact hmembers.bind fun entries hentries =>
      yields_pure (sampled_object hexclusive hanalysable hentries)
  | optional inner ih =>
    refine yields_bind fun absent => yields_ite (fun _ => yields_pure sampled_null) fun _ => ?_
    exact (ih hf.optionalInner name hanalysable.optionalInner).imp fun v => sampled_optional
  | defaulted inner value ih =>
    refine yields_bind fun absent =>
      yields_ite (fun _ => yields_pure (sampled_default hexclusive hanalysable)) fun _ => ?_
    exact (ih hf.defaultedInner name hanalysable.defaultedInner).imp fun v => sampled_defaulted
  | union variants discriminant ih =>
    refine yields_bind fun index => ?_
    have hvariant := yields_generateVariant src name index fun g hg =>
      ih g hg (hf.unionVariant hg) name (hanalysable.unionVariant hg)
    refine hvariant.imp ?_
    rintro v ⟨g, hg, hv⟩
    exact sampled_union hexclusive hanalysable hg hv
  | custom => exact hf.here.analysable.notCustom.elim

theorem Constructed.samplable (hf : f.Constructed) (hcustom : f.Everywhere NotCustom)
    (hfinite : f.Everywhere HasFiniteNumbers) (hrounded : f.Everywhere HasRoundedBounds) :
    f.Everywhere Samplable := by
  have hreal : f.Everywhere HasRealBounds := hfinite.imp fun g hg => by
    cases g with
    | string | number | array => exact hg.imp realBound_of_finite realBound_of_finite
    | _ => exact trivial
  have hanalysable := hf.analysable hcustom hreal
  exact fun g hg => ⟨hanalysable g hg, hfinite g hg, hrounded g hg⟩

/-- Whatever the source of choices gives, validation finds nothing in a value that a
constructed field generates, if it gives a result, under any options.  It does give one
if patterns are texts and each array has a least count. -/
theorem generated_conforms (hexclusive : Format.Exclusive) {σ : Type} (src : Source σ) {f : Field}
    (hf : f.Constructed) (hcustom : f.Everywhere NotCustom)
    (hfinite : f.Everywhere HasFiniteNumbers) (hrounded : f.Everywhere HasRoundedBounds)
    {name : Option String} {s s' : σ} {v : Value} (h : f.generate src name s = .ok (v, s')) :
    (∀ o path violations, f.validate o path v = .ok violations → violations = []) ∧
      (f.Everywhere HasTextPattern → f.Everywhere HasLeastCount →
        ∀ o path, f.validate o path v = .ok []) := by
  have hsamplable := hf.samplable hcustom hfinite hrounded
  have hv := yields_generate hexclusive src hsamplable name s v s' h
  refine ⟨hv.silent, fun hpattern hcount o path => ?_⟩
  have hanswers := hf.answerable hcustom hpattern hcount
  obtain ⟨violations, hviolations⟩ : (f.validate o path v).Returns :=
    validate_answers hanswers (.inr hv.checked.kinded)
  rw [hviolations, hv.silent o path violations hviolations]

end

/-- An age from twenty-one on beside a truth value, from a source that gives the least. -/
theorem generated_conforms_age :
    let age : Field := .number (some (.int 21)) none (.bool true)
    let pair : Field := .tuple [age, .boolean]
    ∃ v, pair.generate least (some "age") () = .ok (v, ()) ∧
      ∀ o path, pair.validate o path v = .ok [] := by
  intro age pair
  have hage : age.Constructed :=
    .number (show makeNumber (.int 21) .null (.bool true) = .ok age from rfl)
  have hitems : ∀ g ∈ [age, .boolean], g.Constructed :=
    List.forall_mem_cons.mpr ⟨hage, List.forall_mem_singleton.mpr .boolean⟩
  have hpair : pair.Constructed := .tuple hitems rfl
  have heverywhere : ∀ {P : Field → Prop}, P pair → P age → P .boolean → pair.Everywhere P := by
    intro P hP hage hboolean
    refine everywhere_of hP (List.forall_mem_cons.mpr ⟨everywhere_leaf hage rfl, ?_⟩)
    exact List.forall_mem_singleton.mpr (everywhere_leaf hboolean rfl)
  have hfinite : age.HasFiniteNumbers := by
    refine ⟨?_, nofun⟩
    rintro _ ⟨⟩
    rfl
  have hrounded : age.HasRoundedBounds := by
    refine ⟨?_, nofun⟩
    rintro _ ⟨⟩
    exact trivial
  have hreturns : (pair.generate least (some "age") ()).isOk = true := by decide +kernel
  cases h : pair.generate least (some "age") () with
  | error e =>
    rw [h] at hreturns
    cases hreturns
  | ok drawn =>
    obtain ⟨v, ⟨⟩⟩ := drawn
    exact ⟨v, rfl, (generated_conforms Email.exclusive least hpair
      (heverywhere trivial trivial trivial) (heverywhere trivial hfinite trivial)
      (heverywhere trivial hrounded trivial) h).2
      (heverywhere trivial trivial trivial) (heverywhere trivial trivial trivial)⟩

/-- Where a variant is an array without a least count, validation fails at a list that
another variant generates. -/
theorem generated_fails_uncounted :
    ∃ (f : Field) (v : Value), f.Constructed ∧ f.Everywhere NotCustom ∧
      f.Everywhere HasFiniteNumbers ∧ f.Everywhere HasRoundedBounds ∧
      f.generate least none () = .ok (v, ()) ∧ f.check {} v = .error Error.badType := by
  let one : Field := .literal (.number (.int 1))
  let two : Field := .literal (.number (.int 2))
  let variants : List Field := [.tuple [one], .array two none none]
  have hone : one.Constructed := .literal (show makeLiteral (.int 1) = .ok one from rfl)
  have htwo : two.Constructed := .literal (show makeLiteral (.int 2) = .ok two from rfl)
  have hitems : ∀ g ∈ [one], g.Constructed := List.forall_mem_singleton.mpr hone
  have htuple : (tuple [one]).Constructed := .tuple hitems rfl
  have harray : (array two none none).Constructed :=
    .array htwo (show makeArray (.field two) .null .null = .ok _ from rfl)
  have hexclusive : mayOverlap (.tuple [one]) (.array two none none) = .ok false := by
    have hunequal : overlaps one two = false := by
      rw [overlaps_literals]
      decide +kernel
    have hleft : (tuple [one]).Everywhere HasTextPattern :=
      everywhere_of trivial (List.forall_mem_singleton.mpr (everywhere_leaf trivial rfl))
    have hright : (array two none none).Everywhere HasTextPattern :=
      everywhere_array trivial (everywhere_leaf trivial rfl)
    rw [mayOverlap_eq hleft hright, overlaps_tuple_array]
    simp [hunequal]
  have hvariants : ∀ g ∈ variants, g.Constructed :=
    List.forall_mem_cons.mpr ⟨htuple, List.forall_mem_singleton.mpr harray⟩
  have hmade : makeUnion (variants.map .field) .null = .ok (union variants none) := by
    simp [variants, makeUnion, children?, child?, firstOverlap, overlapsWith?, hexclusive]
  have hunion : (union variants none).Constructed := .union hvariants hmade
  have heverywhere : ∀ {P : Field → Prop}, P (union variants none) → P (tuple [one]) → P one →
      P (array two none none) → P two → (union variants none).Everywhere P := by
    intro P hP htuple hone harray htwo
    refine everywhere_of hP (List.forall_mem_cons.mpr ⟨?_, List.forall_mem_singleton.mpr ?_⟩)
    · exact everywhere_of htuple (List.forall_mem_singleton.mpr (everywhere_leaf hone rfl))
    · exact everywhere_array harray (everywhere_leaf htwo rfl)
  have hfinite : ∀ k : Int, (literal (.number (.int k))).HasFiniteNumbers := by
    rintro k _ ⟨⟩
    rfl
  have hunbounded : FiniteBound none := by
    intro n hn
    cases hn
  exact ⟨union variants none, .array [.int 1], hunion,
    heverywhere trivial trivial trivial trivial trivial,
    heverywhere trivial trivial (hfinite 1) ⟨hunbounded, hunbounded⟩ (hfinite 2),
    heverywhere trivial trivial trivial trivial trivial, rfl, rfl⟩

end Field
end Lineage
