import Lineage.Field.Construction
import Lineage.Proofs.Field.Attributes
import Lineage.Proofs.Outcome
import Lineage.Proofs.Value.Json

/-
Fields that checked construction lets through.

`Constructed` holds of the field trees that the checked constructors give from the
leaves up.  `Sound` is what their checks leave behind at each field, in terms of the
field itself: bounds in order, patterns that compile, names that differ, defaults
that conform and variants that cannot be confused.
-/

namespace Lineage
namespace Field

variable [Externals]

/-- Field trees that are built by checked construction.  Attributes may be any values
whose objects name each key once. -/
inductive Constructed : Field → Prop
  | string {minLen maxLen pattern format : Value} {f : Field}
      (h : makeString minLen maxLen pattern format = .ok f) : Constructed f
  | number {min max integerOnly : Value} {f : Field}
      (h : makeNumber min max integerOnly = .ok f) : Constructed f
  | boolean : Constructed .boolean
  | null : Constructed .null
  | any : Constructed .any
  | literal {v : Value} {f : Field} (h : makeLiteral v = .ok f) : Constructed f
  | array {element : Field} {minItems maxItems : Value} {f : Field}
      (helement : Constructed element)
      (h : makeArray (.field element) minItems maxItems = .ok f) : Constructed f
  | tuple {items : List Field} {f : Field} (hitems : ∀ g ∈ items, Constructed g)
      (h : makeTuple (items.map .field) = .ok f) : Constructed f
  | object {fields : List (Key × Field)} {required : Value} {f : Field}
      (hfields : ∀ e ∈ fields, Constructed e.2)
      (h : makeObject (fields.map fun e => (e.1, .field e.2)) required = .ok f) : Constructed f
  | optional {inner f : Field} (hinner : Constructed inner)
      (h : makeOptional (.field inner) = .ok f) : Constructed f
  | defaulted {inner f : Field} {v : Value} (hinner : Constructed inner)
      (hv : v.KeysDistinct) (h : makeDefaulted (.field inner) v = .ok f) : Constructed f
  | union {variants : List Field} {discriminant : Value} {f : Field}
      (hvariants : ∀ g ∈ variants, Constructed g)
      (h : makeUnion (variants.map .field) discriminant = .ok f) : Constructed f
  | custom {check : AuthorFn} {name : Value} {f : Field}
      (h : makeCustom (some check) name = .ok f) : Constructed f

/-- Where both bounds are there, the upper is not below the lower. -/
def BoundsOrdered (low high : Option Number) : Prop :=
  ∀ l h, low = some l → high = some h → h.lt l = false

def NotNegative (bound : Option Number) : Prop := ∀ n, bound = some n → n.lt (.int 0) = false

/-- Bounds on a count. -/
structure CountBounds (low high : Option Number) : Prop where
  ordered : BoundsOrdered low high
  low : NotNegative low
  high : NotNegative high

/-- Each variant has a tag of its own. -/
structure TagsDistinct (key : String) (variants : List Field) : Prop where
  tagged : ∀ f ∈ variants, ∃ tag, f.tagOf? key = some tag
  distinct : variants.Pairwise fun f g =>
    ∀ a b, f.tagOf? key = some a → g.tagOf? key = some b → b.identical a = false

/-- What the checks of a union leave behind. -/
def SoundUnion (variants : List Field) : Option String → Prop
  | none => variants.Pairwise fun f g => mayOverlap f g = .ok false
  | some key => TagsDistinct key variants

/-- What checked construction leaves behind at one field. -/
def SoundHere : Field → Prop
  | string low high pattern _ =>
    CountBounds low high ∧ ∀ p, pattern = some p → ∃ r, p.compile = .ok r
  | number low high _ => BoundsOrdered low high
  | array _ low high => CountBounds low high
  | object members => (Member.names members).Nodup
  | defaulted inner value => value.IsJson ∧ inner.check {} value = .ok []
  | union variants discriminant => 2 ≤ variants.length ∧ SoundUnion variants discriminant
  | _ => True

/-- What it leaves behind at every field of a tree. -/
abbrev Sound : Field → Prop := Everywhere SoundHere

/-! ## Attributes -/

section

omit [Externals]

theorem bound?_eq_ok {owner : String} {allowNegative : Bool} {v : Value}
    {bound : Option Number} (h : bound? owner allowNegative v = .ok bound) :
    (v = .null ∧ bound = none) ∨
      ∃ n, v = .number n ∧ bound = some n ∧ (allowNegative = false → n.lt (.int 0) = false) := by
  unfold bound? at h
  split at h
  · cases h
    exact .inl ⟨rfl, rfl⟩
  · next n =>
    split at h
    · cases h
    · next hsign =>
      cases h
      refine .inr ⟨n, rfl, rfl, ?_⟩
      rintro rfl
      simpa using hsign
  · cases h

theorem bounds?_eq_ok {owner : String} {allowNegative : Bool} {low high : Value}
    {l h : Option Number} (heq : bounds? owner allowNegative low high = .ok (l, h)) :
    bound? owner allowNegative low = .ok l ∧ bound? owner allowNegative high = .ok h ∧
      BoundsOrdered l h := by
  obtain ⟨l', hl, heq⟩ := Outcome.bind_eq_ok.mp heq
  obtain ⟨h', hh, heq⟩ := Outcome.bind_eq_ok.mp heq
  split at heq
  · next a b =>
    split at heq
    · cases heq
    · next hlt =>
      cases heq
      refine ⟨hl, hh, ?_⟩
      intro l h hl hh
      cases hl
      cases hh
      exact Bool.not_eq_true _ |>.mp hlt
  · next hnone =>
    cases heq
    exact ⟨hl, hh, fun a b ha hb => (hnone a b ha hb).elim⟩

theorem notNegative_of_bound? {owner : String} {v : Value} {bound : Option Number}
    (h : bound? owner false v = .ok bound) : NotNegative bound := by
  rintro n rfl
  rcases bound?_eq_ok h with ⟨-, hnone⟩ | ⟨m, -, hsome, hsign⟩
  · cases hnone
  · cases hsome
    exact hsign rfl

theorem countBounds_of_bounds? {owner : String} {low high : Value} {l h : Option Number}
    (heq : bounds? owner false low high = .ok (l, h)) : CountBounds l h := by
  obtain ⟨hl, hh, hordered⟩ := bounds?_eq_ok heq
  exact ⟨hordered, notNegative_of_bound? hl, notNegative_of_bound? hh⟩

end

theorem compile_of_pattern? {v : Value} {p : PatternSource}
    (h : pattern? v = .ok (some p)) : ∃ r, p.compile = .ok r := by
  unfold pattern? at h
  simp only at h
  split at h
  · cases h
  · -- A pattern of text.
    split at h
    · next r hr =>
      cases h
      exact ⟨r, hr⟩
    all_goals cases h
  · -- A pattern of bytes.
    split at h
    · next r hr =>
      cases h
      exact ⟨r, hr⟩
    all_goals cases h
  · cases h

/-! ## Children -/

section

omit [Externals]

theorem children?_map_field (owner : String) (fields : List Field) :
    children? owner (fields.map .field) = .ok fields := by
  induction fields with
  | nil => rfl
  | cons f rest ih =>
    rw [List.map_cons, children?, ih]
    rfl

theorem memberFields?_eq_ok {fields : List (Key × FieldArg)} {named : List (String × Field)}
    (h : memberFields? fields = .ok named) :
    fields = named.map fun e => (Key.text e.1, FieldArg.field e.2) := by
  induction fields generalizing named with
  | nil =>
    cases h
    rfl
  | cons e rest ih =>
    obtain ⟨key, arg⟩ := e
    unfold memberFields? at h
    split at h
    · cases h
    · next name hname =>
      obtain ⟨f, hf, h⟩ := Outcome.bind_eq_ok.mp h
      obtain ⟨fs, hfs, h⟩ := Outcome.bind_eq_ok.mp h
      cases h
      obtain rfl := Key.text?_eq_some.mp hname
      cases arg with
      | field g =>
        cases hf
        rw [List.map_cons, ih hfs]
      | other v => cases hf

theorem memberFields?_map_field (named : List (String × Field)) :
    memberFields? (named.map fun e => (Key.text e.1, FieldArg.field e.2)) = .ok named := by
  induction named with
  | nil => rfl
  | cons e rest ih =>
    rw [List.map_cons]
    show (do
      let f ← child? "ObjectField" (.field e.2)
      let fs ← memberFields? (rest.map fun e : String × Field => (Key.text e.1, FieldArg.field e.2))
      return (e.1, f) :: fs) = _
    rw [ih]
    rfl

/-- Names of entries that stand once. -/
theorem distinct_text_iff {named : List (String × Field)} :
    Entries.Distinct (named.map fun e => (Key.text e.1, FieldArg.field e.2)) ↔
      (named.map Prod.fst).Nodup := by
  unfold Entries.Distinct List.Nodup
  rw [List.pairwise_map, List.pairwise_map]
  simp

end

/-! ## Unions -/

theorem overlapsWith?_eq_none {f : Field} {index : Nat} {others : List Field}
    (h : overlapsWith? f index others = .ok none) : ∀ g ∈ others, mayOverlap f g = .ok false := by
  induction others generalizing index with
  | nil => exact List.forall_mem_nil _
  | cons g rest ih =>
    obtain ⟨overlap, hoverlap, h⟩ := Outcome.bind_eq_ok.mp h
    cases overlap with
    | true => cases h
    | false => exact List.forall_mem_cons.mpr ⟨hoverlap, ih h⟩

theorem firstOverlap_eq_none {index : Nat} {variants : List Field}
    (h : firstOverlap index variants = .ok none) :
    variants.Pairwise fun f g => mayOverlap f g = .ok false := by
  induction variants generalizing index with
  | nil => exact .nil
  | cons f rest ih =>
    obtain ⟨later, hlater, h⟩ := Outcome.bind_eq_ok.mp h
    cases later with
    | some j => cases h
    | none => exact List.pairwise_cons.mpr ⟨overlapsWith?_eq_none hlater, ih h⟩

omit [Externals] in
/-- What a check of tags lets through: a text as the key, and under it tags that
differ from each other and from those seen before. -/
theorem checkTags_eq_ok {discriminant : Value} {index : Nat} {seen : List Scalar}
    {variants : List Field} (hne : variants ≠ [])
    (h : checkTags discriminant index seen variants = .ok ()) :
    ∃ key, discriminant = .text key ∧ TagsDistinct key variants ∧
      ∀ f ∈ variants, ∀ tag, f.tagOf? key = some tag → ∀ s ∈ seen, tag.identical s = false := by
  induction variants generalizing index seen with
  | nil => exact absurd rfl hne
  | cons f rest ih =>
    unfold checkTags at h
    simp only at h
    split at h
    · cases h
    · cases h
    · next members key hmembers hkey =>
      split at h
      · cases h
      · next tag htag =>
        split at h
        · cases h
        · next hseen =>
          obtain ⟨name, hname, htag⟩ := Option.bind_eq_some_iff.mp htag
          have hdiscriminant : discriminant = .text name := by
            cases discriminant with
            | scalar s =>
              cases hkey
              cases s <;> simp_all [Key.text?]
            | tuple items =>
              obtain ⟨ks, -, rfl⟩ := Option.map_eq_some_iff.mp hkey
              cases hname
            | bytes s => cases hkey; cases hname
            | thing => cases hkey; cases hname
            | missing => cases hkey; cases hname
            | array _ => cases hkey
            | object _ => cases hkey
            | set _ => cases hkey
          have hfresh : ∀ s ∈ seen, tag.identical s = false := by
            simpa using hseen
          cases rest with
          | nil =>
            refine ⟨name, hdiscriminant, ⟨?_, List.pairwise_singleton _ _⟩, ?_⟩
            · intro g hg
              rw [List.mem_singleton.mp hg]
              exact ⟨tag, htag⟩
            · intro g hg t ht
              rw [List.mem_singleton.mp hg, htag] at ht
              cases ht
              exact hfresh
          | cons g more =>
            obtain ⟨name', heq, ⟨htagged, hdistinct⟩, hlater⟩ := ih (List.cons_ne_nil _ _) h
            obtain rfl : name = name' := by
              rw [hdiscriminant] at heq
              cases heq
              rfl
            refine ⟨name, hdiscriminant, ⟨?_, ?_⟩, ?_⟩
            · exact List.forall_mem_cons.mpr ⟨⟨tag, htag⟩, htagged⟩
            · refine List.pairwise_cons.mpr ⟨fun k hk a b ha hb => ?_, hdistinct⟩
              rw [htag] at ha
              cases ha
              exact hlater k hk b hb tag List.mem_cons_self
            · refine List.forall_mem_cons.mpr ⟨fun t ht => ?_, fun k hk t ht s hs => ?_⟩
              · rw [htag] at ht
                cases ht
                exact hfresh
              · exact hlater k hk t ht s (List.mem_cons_of_mem _ hs)

theorem makeUnion_eq_ok {variants : List Field} {discriminant : Value} {f : Field}
    (h : makeUnion (variants.map .field) discriminant = .ok f) :
    2 ≤ variants.length ∧ SoundUnion variants discriminant.text? ∧
      f = .union variants discriminant.text? := by
  unfold makeUnion at h
  rw [List.length_map, children?_map_field] at h
  split at h
  · cases h
  · next hlength =>
    have htwo : 2 ≤ variants.length := Nat.le_of_not_lt hlength
    rw [Outcome.ok_bind] at h
    split at h
    · obtain ⟨first, hfirst, h⟩ := Outcome.bind_eq_ok.mp h
      cases first with
      | some pair => cases h
      | none =>
        cases h
        exact ⟨htwo, firstOverlap_eq_none hfirst, rfl⟩
    · obtain ⟨⟨⟩, htags, h⟩ := Outcome.bind_eq_ok.mp h
      cases h
      have hne : variants ≠ [] := by
        rintro rfl
        cases htwo
      obtain ⟨key, rfl, hdistinct, -⟩ := checkTags_eq_ok hne htags
      exact ⟨htwo, hdistinct, rfl⟩

/-! ## Objects -/

omit [Externals] in
/-- What a checked object holds: the fields under their names, in their order, with
the names that are required. -/
theorem makeObject_eq_ok {fields : List (Key × FieldArg)} {required : Value} {f : Field}
    (h : makeObject fields required = .ok f) :
    ∃ (named : List (String × Field)) (isRequired : String × Field → Bool),
      Entries.ofPairs fields = named.map (fun e => (Key.text e.1, FieldArg.field e.2)) ∧
        f = .object (named.map fun e => ⟨e.1, isRequired e, e.2⟩) := by
  obtain ⟨named, hnamed, h⟩ := Outcome.bind_eq_ok.mp h
  refine ⟨named, ?_⟩
  rw [memberFields?_eq_ok hnamed]
  split at h
  · cases h
    exact ⟨fun e => !e.2.acceptsAbsence, rfl, rfl⟩
  · obtain ⟨keys, -, h⟩ := Outcome.bind_eq_ok.mp h
    obtain ⟨members, hmembers, h⟩ := Outcome.bind_eq_ok.mp h
    cases h
    refine ⟨fun e => keys.any (·.same (.text e.1)), rfl, ?_⟩
    unfold withRequired at hmembers
    simp only at hmembers
    split at hmembers
    · cases hmembers
    · cases hmembers
      rfl
    · cases hmembers

omit [Externals] in
theorem nodup_of_makeObject {fields : List (Key × FieldArg)} {named : List (String × Field)}
    (h : Entries.ofPairs fields = named.map fun e => (Key.text e.1, FieldArg.field e.2)) :
    (named.map Prod.fst).Nodup := by
  rw [← distinct_text_iff, ← h]
  exact Entries.distinct_ofPairs fields

omit [Externals] in
/-- The fields of a checked object are among those it was made from. -/
theorem mem_of_ofPairs {fields : List (Key × Field)} {named : List (String × Field)}
    (h : Entries.ofPairs (fields.map fun e => (e.1, FieldArg.field e.2)) =
      named.map fun e => (Key.text e.1, FieldArg.field e.2))
    {e : String × Field} (he : e ∈ named) : ∃ d ∈ fields, d.2 = e.2 := by
  have hmem : (Key.text e.1, FieldArg.field e.2) ∈
      Entries.ofPairs (fields.map fun e => (e.1, FieldArg.field e.2)) := by
    rw [h]
    exact List.mem_map_of_mem he
  obtain ⟨d, hd, hvalue⟩ := Entries.mem_ofPairs hmem
  obtain ⟨c, hc, rfl⟩ := List.mem_map.mp hd
  exact ⟨c, hc, FieldArg.field.inj hvalue⟩

/-! ## Defaults -/

theorem makeDefaulted_eq_ok {inner f : Field} {v : Value}
    (h : makeDefaulted (.field inner) v = .ok f) :
    v.Checked ∧ inner.check {} v = .ok [] ∧ f = .defaulted inner v := by
  unfold makeDefaulted child? at h
  rw [Outcome.ok_bind] at h
  split at h
  · cases h
  · next hchecked =>
    obtain ⟨violations, hv, h⟩ := Outcome.bind_eq_ok.mp h
    split at h
    · cases h
      exact ⟨hchecked, hv, rfl⟩
    · cases h

/-- A value that a field may have for its default. -/
structure Suits (f : Field) (v : Value) : Prop where
  checked : v.Checked
  valid : f.check {} v = .ok []

/-! ## Whole trees -/

theorem Constructed.sound {f : Field} (h : Constructed f) : Sound f := by
  induction h with
  | string h =>
    obtain ⟨⟨low, high⟩, hbounds, h⟩ := Outcome.bind_eq_ok.mp h
    obtain ⟨format, -, h⟩ := Outcome.bind_eq_ok.mp h
    obtain ⟨pattern, hpattern, h⟩ := Outcome.bind_eq_ok.mp h
    cases h
    refine everywhere_leaf ⟨countBounds_of_bounds? hbounds, ?_⟩ rfl
    rintro p rfl
    exact compile_of_pattern? hpattern
  | number h =>
    obtain ⟨⟨low, high⟩, hbounds, h⟩ := Outcome.bind_eq_ok.mp h
    cases h
    exact everywhere_leaf (bounds?_eq_ok hbounds).2.2 rfl
  | boolean => exact everywhere_leaf trivial rfl
  | null => exact everywhere_leaf trivial rfl
  | any => exact everywhere_leaf trivial rfl
  | literal h =>
    unfold makeLiteral at h
    split at h <;> cases h
    exact everywhere_leaf trivial rfl
  | array _ h ih =>
    unfold makeArray child? at h
    rw [Outcome.ok_bind] at h
    obtain ⟨⟨low, high⟩, hbounds, h⟩ := Outcome.bind_eq_ok.mp h
    cases h
    exact everywhere_array (countBounds_of_bounds? hbounds) ih
  | tuple _ h ih =>
    unfold makeTuple at h
    rw [children?_map_field] at h
    cases h
    exact everywhere_of trivial ih
  | @object fields required f _ h ih =>
    obtain ⟨named, isRequired, hnamed, rfl⟩ := makeObject_eq_ok h
    refine everywhere_object ?_ fun m hm => ?_
    · have hnodup := nodup_of_makeObject hnamed
      show (List.map Member.name _).Nodup
      rwa [List.map_map]
    · obtain ⟨e, he, rfl⟩ := List.mem_map.mp hm
      obtain ⟨d, hd, heq⟩ := mem_of_ofPairs hnamed he
      show Sound e.2
      rw [← heq]
      exact ih d hd
  | optional _ h ih =>
    cases h
    exact everywhere_optional trivial ih
  | defaulted _ hdistinct h ih =>
    obtain ⟨hchecked, hconforms, rfl⟩ := makeDefaulted_eq_ok h
    exact everywhere_defaulted ⟨⟨hchecked, hdistinct⟩, hconforms⟩ ih
  | union _ h ih =>
    obtain ⟨hlength, hsound, rfl⟩ := makeUnion_eq_ok h
    exact everywhere_of ⟨hlength, hsound⟩ ih
  | custom h =>
    cases h
    exact everywhere_leaf trivial rfl

end Field
end Lineage
