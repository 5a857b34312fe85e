import Lineage.Proofs.Field.DocumentParts
import Lineage.Proofs.Validation.LeastCount

/-
What documents are refused with.

A document that describes no field is refused by a complaint about the definition, wherever
the checked constructors look at what they are given.  They do not look at everything: some
options of a document with a tag are used as they stand, and a default is validated against
the field it is for.  Where every document inside can be used in that way, nothing but a
complaint can come out.
-/

namespace Lineage

/-- The error says what is wrong with a definition. -/
def Error.IsDefinition (e : Error) : Prop := ∃ d, e = .definition d

/-- If this fails, then with a complaint about a definition. -/
abbrev Outcome.Complains {α : Type} (x : Outcome α) : Prop := x.FailsOnly Error.IsDefinition

namespace Key

/-! ## Keys in order -/

/-- Any two keys can be compared. -/
def Comparable (keys : List Key) : Prop := ∀ a ∈ keys, ∀ b ∈ keys, (a.before? b).isSome = true

theorem insertSorted?_isSome {k : Key} {keys : List Key}
    (h : ∀ l ∈ keys, (k.before? l).isSome = true) :
    ∃ sorted, insertSorted? k keys = some sorted ∧ ∀ a ∈ sorted, a = k ∨ a ∈ keys := by
  induction keys with
  | nil => exact ⟨[k], rfl, fun a ha => .inl (List.mem_singleton.mp ha)⟩
  | cons l rest ih =>
    obtain ⟨hl, hrest⟩ := List.forall_mem_cons.mp h
    obtain ⟨first, hfirst⟩ := Option.isSome_iff_exists.mp hl
    obtain ⟨sorted, hsorted, hmem⟩ := ih hrest
    unfold insertSorted?
    rw [hfirst]
    cases first with
    | true => exact ⟨k :: l :: rest, rfl, fun a ha => List.mem_cons.mp ha⟩
    | false =>
      refine ⟨l :: sorted, by rw [hsorted]; rfl, fun a ha => ?_⟩
      rcases List.mem_cons.mp ha with rfl | ha
      · exact .inr List.mem_cons_self
      · exact (hmem a ha).imp_right (List.mem_cons_of_mem l)

/-- Keys that can be compared can be put in order. -/
theorem sorted?_isSome {keys : List Key} (h : Comparable keys) : (sorted? keys).isSome = true := by
  have hfold : ∀ (rest sorted : List Key), (∀ a ∈ rest, a ∈ keys) → (∀ a ∈ sorted, a ∈ keys) →
      (rest.foldlM (fun sorted k => insertSorted? k sorted) sorted).isSome = true := by
    intro rest
    induction rest with
    | nil => exact fun _ _ _ => rfl
    | cons k rest ih =>
      intro sorted hrest hsorted
      obtain ⟨hk, hrest⟩ := List.forall_mem_cons.mp hrest
      obtain ⟨next, hnext, hmem⟩ := insertSorted?_isSome fun l hl => h k hk l (hsorted l hl)
      rw [List.foldlM_cons, hnext]
      refine ih next hrest fun a ha => ?_
      rcases hmem a ha with rfl | ha
      · exact hk
      · exact hsorted a ha
  exact hfold keys [] (fun _ ha => ha) (List.forall_mem_nil _)

theorem mem_of_distinct {keys : List Key} {k : Key} (h : k ∈ distinct keys) : k ∈ keys := by
  have hfold : ∀ (rest kept : List Key), k ∈ rest.foldl
      (fun kept k => if kept.any (·.same k) then kept else kept ++ [k]) kept →
      k ∈ kept ∨ k ∈ rest := by
    intro rest
    induction rest with
    | nil => exact fun _ hk => .inl hk
    | cons l rest ih =>
      intro kept hk
      rw [List.foldl_cons] at hk
      rcases ih _ hk with hk | hk
      · split at hk
        · exact .inl hk
        · rcases List.mem_append.mp hk with hk | hk
          · exact .inl hk
          · exact .inr (List.mem_singleton.mp hk ▸ List.mem_cons_self)
      · exact .inr (List.mem_cons_of_mem l hk)
  exact (hfold keys [] h).resolve_left List.not_mem_nil

end Key

namespace Field

open Outcome

variable {d p v : Value} {entries : List (Key × Value)} {at_ : String} {t : Tag} {f : Field}

/-! ## Options that can be used -/

variable [Externals]

/-- A pattern is a text, and if it does not compile that can be reported. -/
def UsablePattern (v : Value) : Prop :=
  v = .null ∨ ∃ s, v = .text s ∧ ∀ flaw, (PatternSource.text s).compile = .error flaw →
    flaw ≠ .hugeCount ∧ flaw ≠ .clashingFlags

/-- Required names are keys that can be compared with one another. -/
def UsableNames (v : Value) : Prop :=
  v = .null ∨ ∃ keys, keysOf? v = .ok keys ∧ Key.Comparable keys

/-- The options of a document with a tag can be used as its field uses them: a pattern, the
required names, a discriminant that can be looked up, and under a default arrays whose
length can be compared with their least count. -/
def UsableOptions (entries : List (Key × Value)) : Tag → Prop
  | .string => UsablePattern (optionOr entries "pattern" .null)
  | .object => UsableNames (optionOr entries "required" .null)
  | .union => ∃ key, (optionOr entries "discriminant" .null).toKey? = some key
  | .defaulted =>
    ∀ d, Entries.find? (.text "type") entries = some d → EveryDocument Counted d
  | .number | .boolean | .null | .any | .literal | .array | .tuple | .optional => True

def UsableHere : Value → Prop
  | .object entries => ∀ t, Tag.of? entries = some t → UsableOptions entries t
  | _ => True

/-- Every document in a document can be used. -/
abbrev Usable : Value → Prop := EveryDocument UsableHere

/-! ## Constructors -/

section

omit [Externals]

theorem define_complains {α : Type} (e : DefinitionError) : (define e : Outcome α).Complains :=
  failsOnly_error ⟨e, rfl⟩

theorem bound?_complains (owner : String) (allowNegative : Bool) (v : Value) :
    (bound? owner allowNegative v).Complains := by
  unfold bound?
  split
  · exact failsOnly_ok _
  · split
    · exact define_complains _
    · exact failsOnly_ok _
  · exact define_complains _

theorem bounds?_complains (owner : String) (allowNegative : Bool) (low high : Value) :
    (bounds? owner allowNegative low high).Complains := by
  refine (bound?_complains owner allowNegative low).bind fun l _ =>
    (bound?_complains owner allowNegative high).bind fun h _ => ?_
  split
  · split
    · exact define_complains _
    · exact failsOnly_ok _
  · exact failsOnly_ok _

theorem format?_complains (v : Value) : (format? v).Complains := by
  unfold format?
  split
  · exact failsOnly_ok _
  · split
    · exact failsOnly_ok _
    · exact define_complains _

end

theorem pattern?_complains (h : UsablePattern v) : (pattern? v).Complains := by
  rcases h with rfl | ⟨s, rfl, hflaw⟩
  · exact failsOnly_ok _
  · unfold pattern?
    simp only
    split
    · exact failsOnly_ok _
    · next hhuge => exact ((hflaw _ hhuge).1 rfl).elim
    · next hclash => exact ((hflaw _ hclash).2 rfl).elim
    · exact define_complains _

theorem makeString_complains {low high pattern format : Value} (h : UsablePattern pattern) :
    (makeString low high pattern format).Complains :=
  (bounds?_complains _ _ _ _).bind fun _ _ => (format?_complains _).bind fun _ _ =>
    (pattern?_complains h).bind fun _ _ => failsOnly_ok _

section

omit [Externals]

theorem makeNumber_complains (low high integerOnly : Value) :
    (makeNumber low high integerOnly).Complains :=
  (bounds?_complains _ _ _ _).bind fun _ _ => failsOnly_ok _

theorem makeLiteral_complains (v : Value) : (makeLiteral v).Complains := by
  unfold makeLiteral
  split
  · exact failsOnly_ok _
  all_goals exact define_complains _

theorem child?_complains (owner : String) (arg : FieldArg) : (child? owner arg).Complains := by
  cases arg with
  | field f => exact failsOnly_ok _
  | other v => exact define_complains _

theorem children?_complains (owner : String) (args : List FieldArg) :
    (children? owner args).Complains := by
  induction args with
  | nil => exact failsOnly_ok _
  | cons arg rest ih =>
    exact (child?_complains owner arg).bind fun _ _ => ih.bind fun _ _ => failsOnly_ok _

theorem makeArray_complains (element : FieldArg) (low high : Value) :
    (makeArray element low high).Complains :=
  (child?_complains _ element).bind fun _ _ =>
    (bounds?_complains _ _ _ _).bind fun _ _ => failsOnly_ok _

theorem makeTuple_complains (items : List FieldArg) : (makeTuple items).Complains :=
  (children?_complains _ items).bind fun _ _ => failsOnly_ok _

theorem makeOptional_complains (inner : FieldArg) : (makeOptional inner).Complains :=
  (child?_complains _ inner).bind fun _ _ => failsOnly_ok _

end

/-- A default is refused as such where its validation gives a result. -/
theorem makeDefaulted_complains {inner : Field} (h : (inner.check {} v).Returns) :
    (makeDefaulted (.field inner) v).Complains := by
  refine FailsOnly.bind (child?_complains _ _) fun g hg => ?_
  cases hg
  split
  · exact define_complains _
  · refine h.failsOnly.bind fun violations _ => ?_
    split
    · exact failsOnly_ok _
    · exact define_complains _

section

omit [Externals]

theorem memberFields?_complains (fields : List (Key × FieldArg)) :
    (memberFields? fields).Complains := by
  induction fields with
  | nil => exact failsOnly_ok _
  | cons e rest ih =>
    obtain ⟨key, arg⟩ := e
    unfold memberFields?
    split
    · exact define_complains _
    · exact (child?_complains _ arg).bind fun _ _ => ih.bind fun _ _ => failsOnly_ok _

theorem withRequired_complains {fields : List (String × Field)} {keys : List Key}
    (h : Key.Comparable keys) : (withRequired fields keys).Complains := by
  have hunknown : Key.Comparable ((Key.distinct keys).filter fun k => !isNameIn fields k) :=
    fun a ha b hb => h a (Key.mem_of_distinct (List.mem_filter.mp ha).1) b
      (Key.mem_of_distinct (List.mem_filter.mp hb).1)
  obtain ⟨sorted, hsorted⟩ := Option.isSome_iff_exists.mp (Key.sorted?_isSome hunknown)
  unfold withRequired
  simp only [hsorted]
  cases sorted with
  | nil => exact failsOnly_ok _
  | cons k rest => exact define_complains _

theorem keysOf?_complains (h : UsableNames v) (hne : v ≠ .null) : (keysOf? v).Complains := by
  obtain ⟨keys, hkeys, -⟩ := h.resolve_left hne
  rw [hkeys]
  exact failsOnly_ok _

theorem makeObject_complains {fields : List (Key × FieldArg)} {required : Value}
    (h : UsableNames required) : (makeObject fields required).Complains := by
  refine (memberFields?_complains _).bind fun named _ => ?_
  split
  · exact failsOnly_ok _
  · next hne =>
    obtain ⟨keys, hkeys, hcomparable⟩ := h.resolve_left hne
    rw [hkeys]
    exact (withRequired_complains hcomparable).bind fun _ _ => failsOnly_ok _

theorem makeRequiring_complains {fields : List (Key × FieldArg)} {required : Value}
    (h : UsableNames required) : (makeRequiring fields required).Complains := by
  unfold makeRequiring
  split
  · exact makeObject_complains (.inl rfl)
  · next hne => exact (keysOf?_complains h hne).bind fun _ _ => makeObject_complains h

theorem checkTags_complains {discriminant : Value} {key : Key}
    (h : discriminant.toKey? = some key) (index : Nat) (seen : List Scalar)
    (variants : List Field) : (checkTags discriminant index seen variants).Complains := by
  induction variants generalizing index seen with
  | nil => exact failsOnly_ok _
  | cons f rest ih =>
    unfold checkTags
    rw [h]
    split
    · next heq => cases heq
    · exact define_complains _
    · split
      · exact define_complains _
      · split
        · exact define_complains _
        · exact ih _ _

end

theorem returns_overlapsWith? {f : Field} {index : Nat} {others : List Field}
    (h : ∀ g ∈ others, (mayOverlap f g).Returns) : (overlapsWith? f index others).Returns := by
  induction others generalizing index with
  | nil => exact Outcome.returns_ok _
  | cons g rest ih =>
    obtain ⟨hg, hrest⟩ := List.forall_mem_cons.mp h
    refine hg.bind fun overlap _ => ?_
    cases overlap with
    | true => exact Outcome.returns_ok _
    | false => exact ih hrest

/-- Where patterns are texts, variants can be told apart or not, but not fail to be. -/
theorem returns_firstOverlap {index : Nat} {variants : List Field}
    (h : ∀ f ∈ variants, f.Everywhere HasTextPattern) : (firstOverlap index variants).Returns := by
  induction variants generalizing index with
  | nil => exact Outcome.returns_ok _
  | cons f rest ih =>
    obtain ⟨hf, hrest⟩ := List.forall_mem_cons.mp h
    have hothers : ∀ g ∈ rest, (mayOverlap f g).Returns := fun g hg => by
      rw [mayOverlap_eq hf (hrest g hg)]
      exact Outcome.returns_ok _
    refine (returns_overlapsWith? hothers).bind fun later _ => ?_
    cases later with
    | some j => exact Outcome.returns_ok _
    | none => exact ih hrest

theorem makeUnion_complains {variants : List Field} {discriminant : Value} {key : Key}
    (h : discriminant.toKey? = some key) (hpattern : ∀ f ∈ variants, f.Everywhere HasTextPattern) :
    (makeUnion (variants.map .field) discriminant).Complains := by
  unfold makeUnion
  split
  · exact define_complains _
  · rw [children?_map_field, Outcome.ok_bind]
    split
    · refine (returns_firstOverlap hpattern).failsOnly.bind fun first _ => ?_
      cases first with
      | some pair => exact define_complains _
      | none => exact failsOnly_ok _
    · exact (checkTags_complains h _ _ _).bind fun _ _ => failsOnly_ok _

/-! ## Documents -/

omit [Externals] in
theorem ofTypeName_complains (at_ name : String) : (ofTypeName at_ name).Complains := by
  unfold ofTypeName
  split
  · exact failsOnly_ok _
  · split
    all_goals first | exact failsOnly_ok _ | exact define_complains _

omit [Externals] in
theorem jsonOption_complains (at_ : String) (v : Value) : (jsonOption at_ v).Complains := by
  unfold jsonOption
  split
  · exact failsOnly_ok _
  · exact define_complains _

theorem ofDocuments_complains {place : Nat → String} {index : Nat} {ds : List Value}
    (h : ∀ d ∈ ds, ∀ q, (ofDocument q d).Complains) : (ofDocuments place index ds).Complains := by
  induction ds generalizing index with
  | nil =>
    rw [ofDocuments]
    exact failsOnly_ok _
  | cons d rest ih =>
    obtain ⟨hd, hrest⟩ := List.forall_mem_cons.mp h
    rw [ofDocuments]
    exact (hd _).bind fun _ _ => (ih hrest).bind fun _ _ => failsOnly_ok _

theorem ofEntries_complains (h : ∀ d ∈ entries.map Prod.snd, ∀ q, (ofDocument q d).Complains) :
    (ofEntries at_ entries).Complains := by
  induction entries with
  | nil =>
    rw [ofEntries]
    exact failsOnly_ok _
  | cons e rest ih =>
    obtain ⟨key, d⟩ := e
    obtain ⟨hd, hrest⟩ := List.forall_mem_cons.mp h
    rw [ofEntries]
    exact (hd _).bind fun _ _ => (ih hrest).bind fun _ _ => failsOnly_ok _

omit [Externals] in
theorem isJson_taggedPart (hd : (Value.object entries).IsJson) (hp : p ∈ taggedParts entries t) :
    p.IsJson := by
  cases t with
  | array | optional | defaulted => exact isJson_find? hd (Option.mem_toList.mp hp)
  | tuple | union =>
    obtain ⟨items, hitems, hp⟩ := mem_listed hp
    exact Value.isJson_array.mp (isJson_find? hd hitems) p hp
  | object =>
    unfold taggedParts at hp
    simp only at hp
    split at hp
    · next fields hfields =>
      obtain ⟨e, he, rfl⟩ := List.mem_map.mp hp
      exact ((Value.isJson_object.mp (isJson_find? hd hfields)).2 e he).2
    · cases hp
  | string | number | boolean | null | any | literal => cases hp

omit [Externals] in
theorem isJson_part (hd : d.IsJson) (hp : p ∈ documentParts d) : p.IsJson := by
  unfold documentParts at hp
  split at hp
  · exact Value.isJson_array.mp hd p hp
  · split at hp
    · exact isJson_taggedPart hd hp
    · obtain ⟨e, he, rfl⟩ := List.mem_map.mp hp
      exact ((Value.isJson_object.mp hd).2 e he).2
  · cases hp

/-- A document with a tag is refused as such if the documents inside are and its options can
be used. -/
theorem ofTagged_complains (hd : (Value.object entries).IsJson) (husable : UsableOptions entries t)
    (h : ∀ p ∈ taggedParts entries t, ∀ q, (ofDocument q p).Complains) :
    (ofTagged at_ t entries).Complains := by
  cases t with
  | string =>
    rw [ofTagged]
    exact makeString_complains husable
  | number =>
    rw [ofTagged]
    exact makeNumber_complains _ _ _
  | boolean | null | any =>
    rw [ofTagged]
    exact failsOnly_ok _
  | literal =>
    rw [ofTagged]
    split
    · exact define_complains _
    · exact (jsonOption_complains _ _).bind fun _ _ => makeLiteral_complains _
  | array =>
    rw [ofTagged]
    split
    · exact define_complains _
    · next d hd' =>
      exact (h d (Option.mem_toList.mpr hd') _).bind fun _ _ => makeArray_complains _ _ _
  | tuple =>
    rw [ofTagged]
    split
    · exact define_complains _
    · next ds hds =>
      have hparts : taggedParts entries .tuple = ds := by rw [taggedParts, listed, hds]
      exact (ofDocuments_complains (hparts ▸ h)).bind fun _ _ => makeTuple_complains _
    · exact define_complains _
  | object =>
    rw [ofTagged]
    split
    · exact define_complains _
    · next fields hfields =>
      have hparts : taggedParts entries .object = fields.map Prod.snd := by
        rw [taggedParts]
        simp only [hfields]
      exact (ofEntries_complains (hparts ▸ h)).bind fun _ _ => makeRequiring_complains husable
    · exact define_complains _
  | optional =>
    rw [ofTagged]
    split
    · exact define_complains _
    · next d hd' =>
      exact (h d (Option.mem_toList.mpr hd') _).bind fun _ _ => makeOptional_complains _
  | defaulted =>
    rw [ofTagged]
    split
    · exact define_complains _
    · next d hd' =>
      refine (h d (Option.mem_toList.mpr hd') _).bind fun inner hinner => ?_
      split
      · exact define_complains _
      · next v hv =>
        refine (jsonOption_complains _ _).bind fun w hw => ?_
        obtain rfl := jsonOption_eq_ok hw
        -- The default meets no array whose length cannot be compared.
        have hread := read_document (isJson_find? hd hd') hinner
        have hanswerable := hread.answerable (hasLeastCount_of_counted (husable d hd') hinner)
        exact makeDefaulted_complains
          (validate_answers hanswerable (.inr (isJson_find? hd hv).checked.kinded))
  | union =>
    obtain ⟨key, hkey⟩ := husable
    rw [ofTagged]
    split
    · exact define_complains _
    · next ds hds =>
      have hparts : taggedParts entries .union = ds := by rw [taggedParts, listed, hds]
      refine (ofDocuments_complains (hparts ▸ h)).bind fun args hargs => ?_
      obtain ⟨fields, rfl, hfields⟩ := ofDocuments_eq_ok hargs
      refine makeUnion_complains hkey fun f hf => ?_
      obtain ⟨d, hmem, q, hread⟩ := hfields f hf
      have hjson : d.IsJson := Value.isJson_array.mp (isJson_find? hd hds) d hmem
      exact fun g hg => ((read_document hjson hread).documented g hg).textPattern
    · exact define_complains _

/-- A JSON document that can be used describes a field, or is refused by a complaint. -/
theorem ofDocument_complains (hd : d.IsJson) (husable : Usable d) :
    (ofDocument at_ d).Complains := by
  induction d using documentInduction generalizing at_ with
  | h d ih =>
    have hparts : ∀ p ∈ documentParts d, ∀ q, (ofDocument q p).Complains :=
      fun p hp q => ih p hp (isJson_part hd hp) (husable.part hp)
    unfold ofDocument
    split
    · exact ofTypeName_complains _ _
    · refine (ofDocuments_complains hparts).bind fun fields _ => ?_
      split
      · exact makeArray_complains _ _ _
      · exact makeTuple_complains _
    · next entries =>
      split
      · next t htag =>
        rw [documentParts, htag] at hparts
        exact ofTagged_complains hd (husable.here t htag) hparts
      · next htag =>
        rw [documentParts, htag] at hparts
        exact (ofEntries_complains hparts).bind fun _ _ => makeObject_complains (.inl rfl)
    · exact define_complains _

end Field
end Lineage
