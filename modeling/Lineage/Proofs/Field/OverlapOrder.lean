import Lineage.AuthorFn.Catalogue
import Lineage.Format.Email
import Lineage.Proofs.Field.Overlap
import Lineage.Proofs.Field.Rebuilding
import Mathlib.Data.List.Pairwise
import Mathlib.Data.List.Zip

/-
Where the analysis of overlaps depends on the order of two fields.

The analysis looks through wrappers first, left before right, and asks of an optional field
whether the other side can accept null, where a custom check counts as accepting it.  Once
it has come to a custom check itself, there is no overlap.  So a union with an optional
variant and a union with a custom check as a variant overlap in one order and not in the
other.  Apart from this the order is of no consequence.

The proof is by induction on both fields at once, with a second statement beside it: a
union on the right may be taken apart, too.
-/

namespace Lineage
namespace Field

open Validation

/-! ## Trees that do not mix -/

/-- A field without the defaults around it. -/
def behindDefaults : Field → Field
  | defaulted inner _ => inner.behindDefaults
  | f => f

def IsOptional : Field → Prop
  | optional _ => True
  | _ => False

/-- No variant of a union is a custom check. -/
def HasAnalysedVariants : Field → Prop
  | union variants _ => ∀ v ∈ variants, v.behindDefaults.NotCustom
  | _ => True

/-- No variant of a union is optional. -/
def HasPresentVariants : Field → Prop
  | union variants _ => ∀ v ∈ variants, ¬v.behindDefaults.IsOptional
  | _ => True

/-- Not one tree with custom checks as variants and the other with optional variants. -/
structure Unmixed (f g : Field) : Prop where
  left : f.Everywhere HasAnalysedVariants ∨ g.Everywhere HasPresentVariants
  right : g.Everywhere HasAnalysedVariants ∨ f.Everywhere HasPresentVariants

variable {f g : Field}

theorem Unmixed.symm (h : f.Unmixed g) : g.Unmixed f := ⟨h.right, h.left⟩

theorem Unmixed.child_left (h : f.Unmixed g) {k : Field} (hk : k ∈ f.children) : k.Unmixed g where
  left := h.left.imp_left (·.child hk)
  right := h.right.imp_right (·.child hk)

theorem Unmixed.child_right (h : f.Unmixed g) {k : Field} (hk : k ∈ g.children) : f.Unmixed k :=
  (h.symm.child_left hk).symm

theorem anyMayAccept_eq (kind : Kind) (variants : List Field) :
    anyMayAccept kind variants = variants.any fun v => v.mayAccept kind := by
  rw [Bool.eq_iff_iff, anyMayAccept_iff, List.any_eq_true]

/-! ## Wrappers -/

section

variable [Externals]

/-- An optional field lets null through to what is not a custom check behind its defaults. -/
theorem overlaps_optional_behind (inner : Field) (hg : g.behindDefaults.NotCustom) :
    overlaps (.optional inner) g = (g.mayAccept .null || overlaps inner g) := by
  induction g with
  | custom => cases hg
  | defaulted g _ ih =>
    rw [overlaps_defaulted_right, overlaps_defaulted_right, ih hg]
    rfl
  | _ => exact overlaps_optional_left inner trivial

/-- An optional field may stand on either side. -/
theorem overlaps_optional_comm (f inner : Field) :
    overlaps f (.optional inner) = overlaps (.optional inner) f := by
  induction f with
  | custom => rw [overlaps_custom_left, overlaps_custom_right]
  | defaulted f _ ih => rw [overlaps_defaulted_left, overlaps_defaulted_right, ih]
  | optional f =>
    rw [overlaps_optional_left f (g := .optional inner) trivial,
      overlaps_optional_left inner (g := .optional f) trivial]
    rfl
  | _ => rw [overlaps_optional_left inner, overlaps_optional_right] <;> exact trivial

/-- A union is taken apart before anything on the right but what is optional behind its
defaults. -/
theorem overlaps_union_behind (variants : List Field) (key : Option String)
    (hg : ¬g.behindDefaults.IsOptional) :
    overlaps (.union variants key) g = variants.any fun v => overlaps v g := by
  induction g with
  | custom => simp [overlaps_custom_right]
  | defaulted g _ ih => simp only [overlaps_defaulted_right, ih hg]
  | optional => exact absurd trivial hg
  | _ => exact overlaps_union_left variants key trivial

omit [Externals] in
theorem IsPlain.not_optional (hf : f.IsPlain) : ¬f.behindDefaults.IsOptional := by
  cases f with
  | custom | defaulted | optional | union => cases hf
  | _ => exact id

/-! ## Plain fields -/

omit [Externals] in
theorem formatsDisjoint_comm (a b : Option Format) : formatsDisjoint a b = formatsDisjoint b a := by
  cases a with
  | none => cases b <;> rfl
  | some a =>
    cases b with
    | none => rfl
    | some b => exact bne_comm

omit [Externals] in
theorem rangesDisjoint_comm (lowA highA lowB highB : Option Number) :
    rangesDisjoint lowA highA lowB highB = rangesDisjoint lowB highB lowA highA :=
  Bool.or_comm _ _

theorem zip_overlaps_comm {a b : List Field}
    (h : ∀ f ∈ a, ∀ g ∈ b, overlaps f g = overlaps g f) :
    ((a.zip b).all fun p => overlaps p.1 p.2) = (b.zip a).all fun p => overlaps p.1 p.2 := by
  rw [← List.zip_swap a b, List.all_map, Bool.eq_iff_iff, List.all_eq_true, List.all_eq_true]
  refine forall_congr' fun p => imp_congr_right fun hp => ?_
  obtain ⟨hf, hg⟩ := List.of_mem_zip (show (p.1, p.2) ∈ a.zip b from hp)
  rw [h p.1 hf p.2 hg]
  rfl

/-- One direction: a name of either object finds its member in the other. -/
theorem membersOverlap_swap {a b : List (Member Field)} (hb : (Member.names b).Nodup)
    (hab : ∀ m ∈ a, ∀ n ∈ b, overlaps m.field n.field = overlaps n.field m.field)
    (h : membersOverlap a b = true) : membersOverlap b a = true := by
  rw [membersOverlap_iff] at h ⊢
  intro n hn m hm hrequired' hrequired
  have hmem : m ∈ a := Member.mem_of_find? hm
  have hname : m.name = n.name := Member.name_of_find? hm
  rw [← hab m hmem n hn]
  refine h m hmem n ?_ hrequired hrequired'
  rw [hname]
  exact Member.find?_of_mem hb hn

/-- Plain fields overlap in both orders if their children do. -/
theorem overlaps_plain_comm (hf : f.IsPlain) (hg : g.IsPlain) (hsound : f.SoundHere)
    (hsound' : g.SoundHere)
    (hchildren : ∀ k ∈ f.children, ∀ l ∈ g.children, overlaps k l = overlaps l k) :
    overlaps f g = overlaps g f := by
  induction f, g using overlapInduction with
  | custom_left | defaulted_left | optional_left | union_left => exact hf.elim
  | custom_right | defaulted_right | optional_right | union_right => exact hg.elim
  | any_left g => rw [overlaps_any_left hg, overlaps_any_right hg]
  | any_right f => rw [overlaps_any_left hf, overlaps_any_right hf]
  | literal_left a g hbasic =>
    rw [overlaps_literal_left a hbasic]
    rcases hbasic.literal_or_ownKind with ⟨b, rfl⟩ | ⟨kind, hkind⟩
    · rw [overlaps_literals, takes_literal, Scalar.equal_comm]
    · rw [overlaps_literal_right hkind]
  | literal_right f b kind hkind =>
    rw [overlaps_literal_right hkind, overlaps_literal_left b (basic_of_ownKind hkind)]
  | string => rw [overlaps, overlaps, formatsDisjoint_comm, rangesDisjoint_comm]
  | number => rw [overlaps, overlaps, rangesDisjoint_comm]
  | boolean | null => rfl
  | object a b =>
    have hmembers : ∀ m ∈ a, ∀ n ∈ b, overlaps m.field n.field = overlaps n.field m.field :=
      fun m hm n hn => hchildren _ (List.mem_map_of_mem hm) _ (List.mem_map_of_mem hn)
    rw [overlaps_object, overlaps_object, Bool.eq_iff_iff]
    exact ⟨membersOverlap_swap hsound' hmembers,
      membersOverlap_swap hsound fun n hn m hm => (hmembers m hm n hn).symm⟩
  | array elementA minA maxA elementB minB maxB =>
    rw [overlaps, overlaps, rangesDisjoint_comm, Bool.and_comm (isZeroBound minA),
      hchildren elementA List.mem_cons_self elementB List.mem_cons_self]
  | tuple a b =>
    have hitems : ∀ k ∈ a, ∀ l ∈ b, overlaps k l = overlaps l k := hchildren
    rw [overlaps_tuple, overlaps_tuple, zip_overlaps_comm hitems, BEq.comm]
  | tuple_array => rw [overlaps_tuple_array, overlaps_array_tuple]
  | array_tuple => rw [overlaps_tuple_array, overlaps_array_tuple]
  | apart f g kind kind' hkind hkind' hne =>
    rw [overlaps_apart hkind hkind' hne, overlaps_apart hkind' hkind hne.symm]

/-! ## Both orders -/

/-- What is looked through before a union is, or not looked into at all. -/
def IsWrapper : Field → Prop
  | custom _ _ | defaulted _ _ | optional _ => True
  | _ => False

omit [Externals] in
theorem plain_or_union
    (hf : ¬f.IsWrapper) : f.IsPlain ∨ ∃ variants key, f = .union variants key := by
  cases f with
  | custom | defaulted | optional => exact absurd trivial hf
  | union variants key => exact .inr ⟨variants, key, rfl⟩
  | _ => exact .inl trivial

theorem overlaps_wrapper_comm (hf : f.IsWrapper)
    (hchildren : ∀ k ∈ f.children, overlaps k g = overlaps g k) :
    overlaps f g = overlaps g f := by
  cases f with
  | custom => rw [overlaps_custom_left, overlaps_custom_right]
  | defaulted inner =>
    rw [overlaps_defaulted_left, overlaps_defaulted_right, hchildren inner List.mem_cons_self]
  | optional inner => exact (overlaps_optional_comm g inner).symm
  | _ => exact False.elim hf

omit [Externals] in
theorem any_any_comm {as bs : List Field} {p : Field → Field → Bool} :
    (as.any fun a => bs.any fun b => p a b) = bs.any fun b => as.any fun a => p a b := by
  rw [Bool.eq_iff_iff]
  simp only [List.any_eq_true]
  constructor
  · rintro ⟨a, ha, b, hb, h⟩
    exact ⟨b, hb, a, ha, h⟩
  · rintro ⟨b, hb, a, ha, h⟩
    exact ⟨a, ha, b, hb, h⟩

omit [Externals] in
theorem any_or_any {as : List Field} {p q : Field → Bool} :
    (as.any p || as.any q) = as.any fun a => p a || q a := by
  induction as with
  | nil => rfl
  | cons a rest ih =>
    simp only [List.any_cons, ← ih]
    ac_rfl

omit [Externals] in
theorem any_congr {as : List Field} {p q : Field → Bool} (h : ∀ a ∈ as, p a = q a) :
    as.any p = as.any q := by
  rw [Bool.eq_iff_iff]
  simp only [List.any_eq_true]
  exact exists_congr fun a => and_congr_right fun ha => by rw [h a ha]

mutual

theorem overlaps_comm {f g : Field} (hf : f.Sound) (hg : g.Sound) (h : f.Unmixed g) :
    overlaps f g = overlaps g f := by
  by_cases hfw : f.IsWrapper
  · refine overlaps_wrapper_comm hfw fun k hk => ?_
    have := sizeOf_child_lt hk
    exact overlaps_comm (hf.child hk) hg (h.child_left hk)
  by_cases hgw : g.IsWrapper
  · refine (overlaps_wrapper_comm hgw fun k hk => ?_).symm
    have := sizeOf_child_lt hk
    exact (overlaps_comm hf (hg.child hk) (h.child_right hk)).symm
  rcases plain_or_union hfw with hfp | ⟨vs, j, rfl⟩ <;>
    rcases plain_or_union hgw with hgp | ⟨ws, k, rfl⟩
  · refine overlaps_plain_comm hfp hgp hf.here hg.here fun k hk l hl => ?_
    have := sizeOf_child_lt hk
    have := sizeOf_child_lt hl
    exact overlaps_comm (hf.child hk) (hg.child hl) ((h.child_left hk).child_right hl)
  · rw [overlaps_union_right hfp, overlaps_union_behind ws k hfp.not_optional]
  · rw [overlaps_union_right hgp, overlaps_union_behind vs j hgp.not_optional]
  · have hleft : ∀ v ∈ vs, overlaps v (.union ws k) = ws.any fun w => overlaps v w :=
      fun v hv =>
        have := sizeOf_child_lt (f := .union vs j) hv
        overlaps_union_any (hf.unionVariant hv) hg (h.child_left hv)
          (h.right.imp (·.here) (·.here v hv))
    have hright : ∀ w ∈ ws, overlaps w (.union vs j) = vs.any fun v => overlaps w v :=
      fun w hw =>
        have := sizeOf_child_lt (f := .union ws k) hw
        overlaps_union_any (hg.unionVariant hw) hf (h.symm.child_left hw)
          (h.left.imp (·.here) (·.here w hw))
    rw [overlaps_union_behind vs j (g := .union ws k) id,
      overlaps_union_behind ws k (g := .union vs j) id, any_congr hleft, any_congr hright,
      any_any_comm]
    refine any_congr fun w hw => any_congr fun v hv => ?_
    have := sizeOf_child_lt (f := .union vs j) hv
    have := sizeOf_child_lt (f := .union ws k) hw
    exact overlaps_comm (hf.unionVariant hv) (hg.unionVariant hw)
      ((h.child_left hv).child_right hw)
termination_by sizeOf f + sizeOf g
decreasing_by all_goals subst_vars; omega

/-- A union on the right is taken apart, too, unless this meets an optional field with a
custom check. -/
theorem overlaps_union_any {f : Field} {variants : List Field} {key : Option String}
    (hf : f.Sound) (hg : (union variants key).Sound) (h : f.Unmixed (.union variants key))
    (hnull : (∀ v ∈ variants, v.behindDefaults.NotCustom) ∨ ¬f.behindDefaults.IsOptional) :
    overlaps f (.union variants key) = variants.any fun v => overlaps f v := by
  by_cases hfp : f.IsPlain
  · rw [overlaps_union_right hfp]
    refine any_congr fun v hv => ?_
    have := sizeOf_child_lt (f := .union variants key) hv
    exact (overlaps_comm hf (hg.unionVariant hv) (h.child_right hv)).symm
  cases f with
  | custom => simp [overlaps_custom_left]
  | defaulted inner value =>
    simp only [overlaps_defaulted_left]
    exact overlaps_union_any hf.defaultedInner hg (h.child_left List.mem_cons_self) hnull
  | optional inner =>
    have hanalysed := hnull.resolve_right (not_not_intro trivial)
    have hinner := overlaps_union_any hf.optionalInner hg (h.child_left List.mem_cons_self)
      (.inl hanalysed)
    rw [overlaps_optional_left inner (g := .union variants key) trivial, hinner, mayAccept,
      anyMayAccept_eq, any_or_any]
    exact any_congr fun v hv => (overlaps_optional_behind inner (hanalysed v hv)).symm
  | union inner j =>
    have hinner : ∀ u ∈ inner, overlaps u (.union variants key) =
        variants.any fun v => overlaps u v := fun u hu =>
      have := sizeOf_child_lt (f := .union inner j) hu
      overlaps_union_any (hf.unionVariant hu) hg (h.child_left hu)
        (h.right.imp (·.here) (·.here u hu))
    have houter : ∀ v ∈ variants, overlaps (.union inner j) v =
        inner.any fun u => overlaps u v := by
      intro v hv
      have := sizeOf_child_lt (f := .union variants key) hv
      rw [overlaps_comm hf (hg.unionVariant hv) (h.child_right hv),
        overlaps_union_any (hg.unionVariant hv) hf (h.child_right hv).symm
          (h.left.imp (·.here) (·.here v hv))]
      refine any_congr fun u hu => ?_
      have := sizeOf_child_lt (f := .union inner j) hu
      exact overlaps_comm (hg.unionVariant hv) (hf.unionVariant hu)
        ((h.child_left hu).child_right hv).symm
    rw [overlaps_union_behind inner j (g := .union variants key) id, any_congr hinner,
      any_congr houter, any_any_comm]
  | _ => exact absurd trivial hfp
termination_by sizeOf f + sizeOf (union variants key)
decreasing_by
  all_goals
    subst_vars
    simp only [defaulted.sizeOf_spec, optional.sizeOf_spec, union.sizeOf_spec] at *
    omega

end

/-- Where patterns are texts, the analysis gives an answer, and the same in both orders. -/
theorem mayOverlap_comm {f g : Field} (hf : f.Sound) (hg : g.Sound) (h : f.Unmixed g)
    (hftext : f.Everywhere HasTextPattern) (hgtext : g.Everywhere HasTextPattern) :
    mayOverlap f g = mayOverlap g f := by
  rw [mayOverlap_eq hftext hgtext, mayOverlap_eq hgtext hftext, overlaps_comm hf hg h]

/-! ## Unions in any order -/

theorem returns_makeUnion {variants : List Field} :
    (makeUnion (variants.map .field) .null).Returns ↔
      2 ≤ variants.length ∧ variants.Pairwise fun f g => mayOverlap f g = .ok false := by
  constructor
  · rintro ⟨f, hf⟩
    obtain ⟨hlength, hsound, -⟩ := makeUnion_eq_ok hf
    exact ⟨hlength, hsound⟩
  · rintro ⟨hlength, hsound⟩
    exact ⟨_, @makeUnion_of _ variants none hlength hsound⟩

theorem returns_makeUnion_pair (f g : Field) :
    (makeUnion ([f, g].map .field) .null).Returns ↔ mayOverlap f g = .ok false := by
  rw [returns_makeUnion, List.pairwise_pair]
  exact and_iff_right (Nat.le_refl 2)

theorem constructed_pair (hf : f.Constructed) (hg : g.Constructed)
    (h : mayOverlap f g = .ok false) : (union [f, g] none).Constructed :=
  @Constructed.union _ [f, g] .null _
    (List.forall_mem_cons.mpr ⟨hf, List.forall_mem_singleton.mpr hg⟩)
    (@makeUnion_of _ [f, g] none (Nat.le_refl 2) (List.pairwise_pair.mpr h))

theorem returns_makeUnion_perm {variants variants' : List Field}
    (hconstructed : ∀ f ∈ variants, f.Constructed) (hunmixed : variants.Pairwise Unmixed)
    (hpattern : ∀ f ∈ variants, f.Everywhere HasTextPattern) (hperm : variants.Perm variants')
    (h : (makeUnion (variants.map .field) .null).Returns) :
    (makeUnion (variants'.map .field) .null).Returns := by
  let Apart : Field → Field → Prop := fun f g =>
    mayOverlap f g = .ok false ∧ mayOverlap g f = .ok false
  obtain ⟨hlength, hdisjoint⟩ := returns_makeUnion.mp h
  have hapart : variants.Pairwise Apart :=
    (hdisjoint.and hunmixed).imp_of_mem fun {f g} hf hg hfg => by
      have hcomm : mayOverlap f g = mayOverlap g f :=
        mayOverlap_comm (hconstructed f hf).sound (hconstructed g hg).sound hfg.2
          (hpattern f hf) (hpattern g hg)
      exact ⟨hfg.1, hcomm ▸ hfg.1⟩
  have hapart' : variants'.Pairwise Apart := (hperm.pairwise_iff And.symm).mp hapart
  exact returns_makeUnion.mpr ⟨hperm.length_eq ▸ hlength, hapart'.imp And.left⟩

omit [Externals] in
theorem forall_pairs {variants : List Field} {R : Field → Field → Prop}
    (hself : ∀ f ∈ variants, R f f) (hsymm : ∀ f g, R f g → R g f)
    (h : variants.Pairwise R) : ∀ f ∈ variants, ∀ g ∈ variants, R f g := by
  have : Std.Symm R := ⟨hsymm⟩
  exact fun f hf g hg => List.Pairwise.forall_of_forall hself h hf hg

/-- Where the analysis answers for two of the variants in both orders, the answers are equal,
if no two of them have custom checks as variants in the one and optional variants in the
other.  If patterns are texts as well, it does answer, and a union that its variants alone tell
apart is built from them in every order or in none. -/
theorem overlap_orderless {variants variants' : List Field}
    (hconstructed : ∀ f ∈ variants, f.Constructed) (hunmixed : variants.Pairwise Unmixed)
    (hperm : variants.Perm variants') :
    (∀ f ∈ variants, ∀ g ∈ variants, ∀ a b : Bool,
        mayOverlap f g = .ok a → mayOverlap g f = .ok b → a = b) ∧
      ((∀ f ∈ variants, f.Everywhere HasTextPattern) →
        (∀ f ∈ variants, ∀ g ∈ variants,
          (mayOverlap f g).Returns ∧ mayOverlap f g = mayOverlap g f) ∧
        ((makeUnion (variants.map .field) .null).Returns ↔
          (makeUnion (variants'.map .field) .null).Returns)) := by
  have hcomm : ∀ f ∈ variants, ∀ g ∈ variants, overlaps f g = overlaps g f :=
    forall_pairs (fun _ _ => rfl) (fun _ _ => Eq.symm) (hunmixed.imp_of_mem fun hf hg h =>
      overlaps_comm (hconstructed _ hf).sound (hconstructed _ hg).sound h)
  refine ⟨fun f hf g hg a b ha hb => ?_, fun hpattern => ⟨fun f hf g hg => ?_, ?_⟩⟩
  · rw [← overlaps_of_mayOverlap ha, ← overlaps_of_mayOverlap hb, hcomm f hf g hg]
  · rw [mayOverlap_eq (hpattern f hf) (hpattern g hg),
      mayOverlap_eq (hpattern g hg) (hpattern f hf), hcomm f hf g hg]
    exact ⟨Outcome.returns_ok _, rfl⟩
  · have hback : ∀ f ∈ variants', f ∈ variants := fun f hf => hperm.mem_iff.mpr hf
    exact ⟨returns_makeUnion_perm hconstructed hunmixed hpattern hperm,
      returns_makeUnion_perm (fun f hf => hconstructed f (hback f hf))
        ((hperm.pairwise_iff Unmixed.symm).mp hunmixed) (fun f hf => hpattern f (hback f hf))
        hperm.symm⟩

end

/-- Custom checks as variants on one side, and no optional variants on the other. -/
theorem overlap_orderless_present :
    let even : AuthorFn := ⟨"even", AuthorFn.Catalogue.even⟩
    let f : Field := .union [.boolean, .null] none
    let g : Field := .union [.custom even (.text "custom"), .null] none
    f.Constructed ∧ g.Constructed ∧ f.Unmixed g ∧
      f.Everywhere HasTextPattern ∧ g.Everywhere HasTextPattern ∧
      (mayOverlap f g).Returns ∧ mayOverlap f g = mayOverlap g f ∧
      ((makeUnion ([f, g].map .field) .null).Returns ↔
        (makeUnion ([g, f].map .field) .null).Returns) := by
  intro even f g
  have hf : f.Constructed := constructed_pair .boolean .null (by rw [mayOverlap] <;> simp)
  have hg : g.Constructed :=
    constructed_pair (.custom rfl) .null (mayOverlap_custom_left even _ .null)
  have hleaves : ∀ {P : Field → Prop}, P .boolean → P .null →
      ∀ k ∈ [Field.boolean, Field.null], k.Everywhere P := fun hb hn =>
    List.forall_mem_cons.mpr
      ⟨everywhere_leaf hb rfl, List.forall_mem_singleton.mpr (everywhere_leaf hn rfl)⟩
  have hanalysed : f.Everywhere HasAnalysedVariants := everywhere_of
    (List.forall_mem_cons.mpr ⟨trivial, List.forall_mem_singleton.mpr trivial⟩)
    (hleaves trivial trivial)
  have hpresent : f.Everywhere HasPresentVariants := everywhere_of
    (List.forall_mem_cons.mpr ⟨id, List.forall_mem_singleton.mpr id⟩)
    (hleaves trivial trivial)
  have hunmixed : f.Unmixed g := ⟨.inl hanalysed, .inr hpresent⟩
  have hftext : f.Everywhere HasTextPattern := everywhere_of trivial (hleaves trivial trivial)
  have hgtext : g.Everywhere HasTextPattern := everywhere_of trivial
    (List.forall_mem_cons.mpr
      ⟨everywhere_leaf trivial rfl, List.forall_mem_singleton.mpr (everywhere_leaf trivial rfl)⟩)
  have htext : ∀ k ∈ [f, g], k.Everywhere HasTextPattern :=
    List.forall_mem_cons.mpr ⟨hftext, List.forall_mem_singleton.mpr hgtext⟩
  obtain ⟨hanswers, hreturns⟩ := (@overlap_orderless _ [f, g] [g, f]
    (List.forall_mem_cons.mpr ⟨hf, List.forall_mem_singleton.mpr hg⟩)
    (List.pairwise_pair.mpr hunmixed) (.swap g f [])).2 htext
  obtain ⟨hanswer, hcomm⟩ :=
    hanswers f List.mem_cons_self g (List.mem_cons_of_mem _ List.mem_cons_self)
  exact ⟨hf, hg, hunmixed, hftext, hgtext, hanswer, hcomm, hreturns⟩

/-- An optional variant beside a custom check.  Asked first, the optional variant takes the
check for one that accepts null; asked first itself, the check overlaps with nothing. -/
theorem overlap_depends_on_order :
    let even : AuthorFn := ⟨"even", AuthorFn.Catalogue.even⟩
    let f : Field := .union [.optional (.string none none none none), .boolean] none
    let g : Field := .union [.custom even (.text "custom"), .number none none (.bool false)] none
    f.Constructed ∧ g.Constructed ∧ mayOverlap f g = .ok true ∧ mayOverlap g f = .ok false ∧
      ¬(makeUnion ([f, g].map .field) .null).Returns ∧
      (makeUnion ([g, f].map .field) .null).Returns := by
  intro even f g
  have htext : (Field.string none none none none).Constructed :=
    @Constructed.string _ .null .null .null .null _ rfl
  have hnumber : (Field.number none none (.bool false)).Constructed :=
    @Constructed.number _ .null .null (.bool false) _ rfl
  have hf : f.Constructed :=
    constructed_pair (.optional htext rfl) .boolean (by simp [mayOverlap, mayAccept])
  have hg : g.Constructed :=
    constructed_pair (.custom rfl) hnumber (mayOverlap_custom_left even _ _)
  have hone : mayOverlap f g = .ok true := by
    simp [f, g, mayOverlap, anyMayOverlap, mayAccept, anyMayAccept]
  have hother : mayOverlap g f = .ok false := by
    simp [f, g, mayOverlap, anyMayOverlap, mayAccept]
  have hdiffer : (Except.ok true : Outcome Bool) ≠ .ok false := by simp
  rw [returns_makeUnion_pair, returns_makeUnion_pair, hone, hother]
  exact ⟨hf, hg, rfl, rfl, hdiffer, rfl⟩

end Field
end Lineage
