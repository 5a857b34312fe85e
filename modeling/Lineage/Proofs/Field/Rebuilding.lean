import Lineage.Field.Document
import Lineage.Proofs.Field.Constructed

/-
Construction lets through what it left behind.

The attributes of a constructed field, written as values again, pass every check of
construction, and the field that comes out is the one they were taken from.
-/

namespace Lineage
namespace Field

/-! ## Attributes -/

theorem bound?_boundValue {owner : String} {allowNegative : Bool} {bound : Option Number}
    (h : allowNegative = false → NotNegative bound) :
    bound? owner allowNegative (boundValue bound) = .ok bound := by
  cases bound with
  | none => rfl
  | some n =>
    show (if (!allowNegative && n.lt (.int 0)) = true then _ else _) = _
    rw [if_neg]
    cases allowNegative with
    | true => simp
    | false => simp [h rfl n rfl]

theorem bounds?_boundValue {owner : String} {allowNegative : Bool} {low high : Option Number}
    (hordered : BoundsOrdered low high) (hlow : allowNegative = false → NotNegative low)
    (hhigh : allowNegative = false → NotNegative high) :
    bounds? owner allowNegative (boundValue low) (boundValue high) = .ok (low, high) := by
  unfold bounds?
  rw [bound?_boundValue hlow, bound?_boundValue hhigh, Outcome.ok_bind, Outcome.ok_bind]
  cases low with
  | none => rfl
  | some l =>
    cases high with
    | none => rfl
    | some h =>
      show (if h.lt l = true then _ else _) = _
      rw [hordered l h rfl rfl]
      rfl

theorem CountBounds.bounds? {owner : String} {low high : Option Number}
    (h : CountBounds low high) :
    Field.bounds? owner false (boundValue low) (boundValue high) = .ok (low, high) :=
  bounds?_boundValue h.ordered (fun _ => h.low) fun _ => h.high

/-- A pattern, or null where there is none. -/
def patternValue (pattern : Option PatternSource) : Value :=
  (pattern.map PatternSource.toValue).getD .null

/-- A well-known form by its name, or null where there is none. -/
def formatValue (format : Option Format) : Value := (format.map fun f => .text f.name).getD .null

variable [Externals]

theorem pattern?_patternValue {pattern : Option PatternSource}
    (h : ∀ p, pattern = some p → ∃ r, p.compile = .ok r) :
    pattern? (patternValue pattern) = .ok pattern := by
  cases pattern with
  | none => rfl
  | some p =>
    obtain ⟨r, hr⟩ := h p rfl
    cases p with
    | text s =>
      simp only [patternValue, Option.map_some, Option.getD_some, PatternSource.toValue, pattern?,
        hr]
    | bytes s =>
      simp only [patternValue, Option.map_some, Option.getD_some, PatternSource.toValue, pattern?,
        hr]

omit [Externals] in
theorem format?_formatValue (format : Option Format) :
    format? (formatValue format) = .ok format := by
  cases format with
  | none => rfl
  | some f => cases f <;> rfl

omit [Externals] in
theorem checked_literal {value : Scalar} (h : ∀ n, value = .number n → n.isFinite = true) :
    (Value.scalar value).Checked := by
  cases value with
  | number n => exact Value.checked_number (h n rfl)
  | _ => rfl

/-! ## Fields -/

theorem makeString_of {low high : Option Number} {pattern : Option PatternSource}
    {format : Option Format} (hcount : CountBounds low high)
    (hpattern : ∀ p, pattern = some p → ∃ r, p.compile = .ok r) :
    makeString (boundValue low) (boundValue high) (patternValue pattern) (formatValue format) =
      .ok (.string low high pattern format) := by
  unfold makeString
  rw [hcount.bounds?, format?_formatValue, pattern?_patternValue hpattern]
  rfl

omit [Externals] in
theorem makeNumber_of {low high : Option Number} (hordered : BoundsOrdered low high)
    (integerOnly : Value) :
    makeNumber (boundValue low) (boundValue high) integerOnly =
      .ok (.number low high integerOnly) := by
  have hbounds : bounds? "NumberField" true (boundValue low) (boundValue high) = .ok (low, high) :=
    bounds?_boundValue hordered nofun nofun
  unfold makeNumber
  rw [hbounds]
  rfl

omit [Externals] in
theorem makeArray_of {element : Field} {low high : Option Number} (hcount : CountBounds low high) :
    makeArray (.field element) (boundValue low) (boundValue high) =
      .ok (.array element low high) := by
  unfold makeArray
  rw [hcount.bounds?]
  rfl

omit [Externals] in
theorem makeTuple_of (items : List Field) : makeTuple (items.map .field) = .ok (.tuple items) := by
  unfold makeTuple
  rw [children?_map_field]
  rfl

theorem makeDefaulted_of {inner : Field} {v : Value} (hv : v.Checked)
    (h : inner.check {} v = .ok []) : makeDefaulted (.field inner) v = .ok (.defaulted inner v) := by
  unfold makeDefaulted child?
  rw [Outcome.ok_bind, hv.check, h]
  rfl

/-! ## Unions -/

theorem overlapsWith?_of_forall {f : Field} {index : Nat} {others : List Field}
    (h : ∀ g ∈ others, mayOverlap f g = .ok false) : overlapsWith? f index others = .ok none := by
  induction others generalizing index with
  | nil => rfl
  | cons g rest ih =>
    obtain ⟨hg, hrest⟩ := List.forall_mem_cons.mp h
    rw [overlapsWith?, hg]
    exact ih hrest

theorem firstOverlap_of_pairwise {index : Nat} {variants : List Field}
    (h : variants.Pairwise fun f g => mayOverlap f g = .ok false) :
    firstOverlap index variants = .ok none := by
  induction variants generalizing index with
  | nil => rfl
  | cons f rest ih =>
    obtain ⟨hf, hrest⟩ := List.pairwise_cons.mp h
    rw [firstOverlap, overlapsWith?_of_forall hf]
    exact ih hrest

omit [Externals] in
theorem checkTags_of_distinct {key : String} {index : Nat} {seen : List Scalar}
    {variants : List Field} (h : TagsDistinct key variants)
    (hfresh : ∀ f ∈ variants, ∀ tag, f.tagOf? key = some tag →
      ∀ s ∈ seen, tag.identical s = false) :
    checkTags (.text key) index seen variants = .ok () := by
  induction variants generalizing index seen with
  | nil => rfl
  | cons f rest ih =>
    obtain ⟨htagged, hdistinct⟩ := h
    obtain ⟨⟨tag, htag⟩, htagged⟩ := List.forall_mem_cons.mp htagged
    obtain ⟨hf, hrest⟩ := List.forall_mem_cons.mp hfresh
    obtain ⟨hfirst, hdistinct⟩ := List.pairwise_cons.mp hdistinct
    obtain ⟨members, hmembers⟩ : ∃ members, f.members? = some members := by
      cases f with
      | object members => exact ⟨members, rfl⟩
      | _ => cases htag
    have hunseen : seen.any tag.identical = false :=
      List.any_eq_false.mpr fun s hs => by rw [hf tag htag s hs]; exact Bool.false_ne_true
    rw [checkTags]
    simp only [hmembers, Value.toKey?, Key.text?, Option.bind_some, htag, hunseen,
      Bool.false_eq_true, if_false]
    refine ih ⟨htagged, hdistinct⟩ fun g hg t ht => ?_
    exact List.forall_mem_cons.mpr ⟨hfirst g hg tag t htag ht, hrest g hg t ht⟩

/-- A discriminant, or null where there is none. -/
def discriminantValue (discriminant : Option String) : Value :=
  (discriminant.map Value.text).getD .null

theorem makeUnion_of {variants : List Field} {discriminant : Option String}
    (hlength : 2 ≤ variants.length) (h : SoundUnion variants discriminant) :
    makeUnion (variants.map .field) (discriminantValue discriminant) =
      .ok (.union variants discriminant) := by
  unfold makeUnion
  rw [List.length_map, if_neg (Nat.not_lt.mpr hlength), children?_map_field, Outcome.ok_bind]
  cases discriminant with
  | none =>
    simp only [discriminantValue, Option.map_none, Option.getD_none, firstOverlap_of_pairwise h]
    rfl
  | some key =>
    show (do
      checkTags (.text key) 0 [] variants
      return Field.union variants (some key)) = _
    rw [checkTags_of_distinct h fun _ _ _ _ s hs => absurd hs List.not_mem_nil]
    rfl

/-! ## Objects -/

/-- Fields under their names, as construction takes them. -/
def namedArgs (named : List (String × Field)) : List (Key × FieldArg) :=
  named.map fun e => (.text e.1, .field e.2)

section

omit [Externals]

theorem makeObject_derived {named : List (String × Field)} (h : (named.map Prod.fst).Nodup) :
    makeObject (namedArgs named) .null = .ok (.object (Member.derived named)) := by
  unfold makeObject namedArgs
  rw [Entries.ofPairs_of_distinct (distinct_text_iff.mpr h), memberFields?_map_field]
  rfl

theorem keysOf?_texts (names : List String) :
    keysOf? (.array (names.map .text)) = .ok (names.map .text) := by
  have hkeys : Value.toKeys? (names.map Value.text) = some (names.map Key.text) := by
    induction names with
    | nil => rfl
    | cons name rest ih =>
      rw [List.map_cons, Value.toKeys?, ih]
      rfl
  have hitems : (Value.array (names.map .text)).items?.bind Value.toKeys? =
      some (names.map Key.text) := hkeys
  unfold keysOf?
  rw [hitems]

theorem mem_distinct {keys : List Key} {k : Key} (h : k ∈ Key.distinct keys) : k ∈ keys := by
  have hfold : ∀ (more kept : List Key), k ∈ more.foldl (fun kept k =>
      if kept.any (·.same k) then kept else kept ++ [k]) kept → k ∈ kept ∨ k ∈ more := by
    intro more
    induction more with
    | nil => exact fun kept h => .inl h
    | cons l rest ih =>
      intro kept h
      rcases ih _ h with h | h
      · simp only at h
        split at h
        · exact .inl h
        · rcases List.mem_append.mp h with h | h
          · exact .inl h
          · exact .inr (List.mem_singleton.mp h ▸ List.mem_cons_self)
      · exact .inr (List.mem_cons_of_mem _ h)
  exact (hfold keys [] h).resolve_left List.not_mem_nil

/-- Names that are all declared are required as they are listed. -/
theorem withRequired_texts {named : List (String × Field)} {names : List String}
    (h : ∀ name ∈ names, ∃ e ∈ named, e.1 = name) :
    withRequired named (names.map .text) =
      .ok (named.map fun e => ⟨e.1, names.contains e.1, e.2⟩) := by
  have hunknown : (Key.distinct (names.map Key.text)).filter (fun k => !isNameIn named k) = [] := by
    refine List.filter_eq_nil_iff.mpr fun k hk => ?_
    obtain ⟨name, hname, rfl⟩ := List.mem_map.mp (mem_distinct hk)
    obtain ⟨e, he, rfl⟩ := h name hname
    have hin : isNameIn named (.text e.1) = true :=
      List.any_eq_true.mpr ⟨e, he, beq_iff_eq.mpr rfl⟩
    rw [hin]
    exact Bool.false_ne_true
  have hcontains : ∀ name, (names.map Key.text).any (·.same (.text name)) = names.contains name := by
    intro name
    rw [Bool.eq_iff_iff, List.any_map, List.any_eq_true, List.contains_iff_mem]
    constructor
    · rintro ⟨other, hother, hsame⟩
      have heq : other = name := by simpa using hsame
      exact heq ▸ hother
    · intro hname
      exact ⟨name, hname, Key.same_text_iff.mpr rfl⟩
  unfold withRequired
  simp only [hunknown, hcontains]
  rfl

theorem makeRequiring_texts {named : List (String × Field)} {names : List String}
    (hnodup : (named.map Prod.fst).Nodup) (h : ∀ name ∈ names, ∃ e ∈ named, e.1 = name) :
    makeRequiring (namedArgs named) (.array (names.map .text)) =
      .ok (.object (named.map fun e => ⟨e.1, names.contains e.1, e.2⟩)) := by
  have hobject : makeObject (namedArgs named) (.array (names.map .text)) =
      .ok (.object (named.map fun e => ⟨e.1, names.contains e.1, e.2⟩)) := by
    unfold makeObject namedArgs
    rw [Entries.ofPairs_of_distinct (distinct_text_iff.mpr hnodup), memberFields?_map_field,
      Outcome.ok_bind]
    simp only [keysOf?_texts, Outcome.ok_bind, withRequired_texts h]
    rfl
  unfold makeRequiring
  simp only [keysOf?_texts, Outcome.ok_bind, hobject]

end

end Field
end Lineage
