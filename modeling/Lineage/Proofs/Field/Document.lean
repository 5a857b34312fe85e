import Lineage.Proofs.Field.ReadBack
import Lineage.Proofs.Field.Rebuilding

/-
Documents read back.

The document of a constructed field describes the field that `readBack` names.  Each
form that writing chooses is read as that form: a name of a type has no attributes to
lose, an array of one item is never a tuple, an object without a `$` is never taken for
a tagged one, and a tagged one holds only keys that its tag takes.
-/

namespace Lineage
namespace Field

/-! ## Attributes of tagged documents -/

theorem find?_part {α : Type} (name key : String) (part : Option α) (g : α → Value) :
    Entries.find? (.text key) (part.toList.map fun a => entry name (g a)) =
      if name = key then part.map g else none := by
  cases part with
  | none => simp [Entries.find?]
  | some a =>
    show (if (Key.text name).same (.text key) = true then some (g a) else none) = _
    rw [Key.text_same_text]
    simp

theorem find?_boundEntry (name key : String) (bound : Option Number) :
    Entries.find? (.text key) (boundEntry name bound) =
      if name = key then bound.map Value.number else none :=
  find?_part name key bound Value.number

/-- An entry with a key that a tag takes. -/
def Taken (t : Tag) (e : Key × Value) : Prop := ∃ name ∈ t.options, e.1 = .text name

theorem taken_part {α : Type} {t : Tag} {name : String} (h : name ∈ t.options)
    (part : Option α) (g : α → Value) :
    ∀ e ∈ part.toList.map (fun a => entry name (g a)), Taken t e := by
  intro e he
  obtain ⟨a, -, rfl⟩ := List.mem_map.mp he
  exact ⟨name, h, rfl⟩

theorem ofName?_name (t : Tag) : Tag.ofName? t.name = some t := by
  cases t <;> rfl

theorem of?_tagged {t : Tag} {options : List (Key × Value)} (h : ∀ e ∈ options, Taken t e) :
    Tag.of? ((Tag.key, .text t.name) :: options) = some t := by
  have htakes : t.takes ((Tag.key, .text t.name) :: options) = true := by
    refine List.all_eq_true.mpr (List.forall_mem_cons.mpr ⟨rfl, fun e he => ?_⟩)
    obtain ⟨name, hname, hkey⟩ := h e he
    rw [hkey, Bool.or_eq_true]
    exact .inr (List.contains_iff_mem.mpr hname)
  show (Tag.ofName? t.name).filter _ = _
  rw [ofName?_name, Option.filter_some, if_pos htakes]

variable [Externals]

theorem ofDocument_tagged {t : Tag} {options : List (Key × Value)} (at_ : String)
    (h : ∀ e ∈ options, Taken t e) :
    ofDocument at_ (tagged t options) =
      ofTagged at_ t ((Tag.key, .text t.name) :: options) := by
  rw [tagged, ofDocument, of?_tagged h]

omit [Externals] in
theorem find?_tagged {name : String} (hname : name ≠ "$") (tag : Value)
    (options : List (Key × Value)) :
    Entries.find? (.text name) ((Tag.key, tag) :: options) =
      Entries.find? (.text name) options := by
  rw [Entries.find?, Tag.key, Key.text_same_text, if_neg]
  simpa using hname.symm

/-! ## Scalars -/

omit [Externals] in
/-- What a sequence of optional parts says when it is empty. -/
theorem part_eq_nil {α : Type} {part : Option α} {g : α → Key × Value}
    (h : part.toList.map g = []) : part = none := by
  cases part with
  | none => rfl
  | some a => cases h

theorem ofDocument_stringDocument {low high : Option Number} {pattern : Option PatternSource}
    {format : Option Format} (hcount : CountBounds low high)
    (hpattern : ∀ p, pattern = some p → ∃ r, p.compile = .ok r) (at_ : String) :
    ofDocument at_ (stringDocument low high pattern format) =
      .ok (.string low high pattern format) := by
  unfold stringDocument
  split
  · next f =>
    rw [ofDocument, ofTypeName]
    cases f <;> rfl
  · unfold scalarDocument
    split
    · next hempty =>
      have hnil := List.isEmpty_iff.mp hempty
      obtain ⟨hnil, hformat⟩ := List.append_eq_nil_iff.mp hnil
      obtain ⟨hnil, hpattern⟩ := List.append_eq_nil_iff.mp hnil
      obtain ⟨hlow, hhigh⟩ := List.append_eq_nil_iff.mp hnil
      obtain rfl := part_eq_nil hformat
      obtain rfl := part_eq_nil hpattern
      obtain rfl := part_eq_nil hlow
      obtain rfl := part_eq_nil hhigh
      rw [ofDocument]
      rfl
    · have htaken : ∀ e ∈ boundEntry "min_len" low ++ boundEntry "max_len" high ++
          (pattern.toList.map fun p => entry "pattern" p.toValue) ++
          format.toList.map (fun f => entry "format" (.text f.name)), Taken .string e := by
        simp only [List.forall_mem_append]
        exact ⟨⟨⟨taken_part (by decide) _ _, taken_part (by decide) _ _⟩,
          taken_part (by decide) _ _⟩, taken_part (by decide) _ _⟩
      rw [ofDocument_tagged at_ htaken, ofTagged, ← makeString_of hcount hpattern]
      congr 1
      · simp [optionOr, find?_tagged, Entries.find?_append, find?_boundEntry, find?_part,
          boundValue]
      · simp [optionOr, find?_tagged, Entries.find?_append, find?_boundEntry, find?_part,
          boundValue]
      · simp [optionOr, find?_tagged, Entries.find?_append, find?_boundEntry, find?_part,
          patternValue]
      · simp [optionOr, find?_tagged, Entries.find?_append, find?_boundEntry, find?_part,
          formatValue]

theorem ofDocument_numberDocument {low high : Option Number} (hordered : BoundsOrdered low high)
    (integral : Bool) (at_ : String) :
    ofDocument at_ (numberDocument low high integral) =
      .ok (.number low high (.bool integral)) := by
  rw [numberDocument, scalarDocument]
  by_cases hempty : (boundEntry "min" low ++ boundEntry "max" high ++
      if integral = true then [entry "integer_only" (.bool true)] else []).isEmpty = true
  · rw [if_pos hempty]
    have hnil := List.isEmpty_iff.mp hempty
    obtain ⟨hnil, hflag⟩ := List.append_eq_nil_iff.mp hnil
    obtain ⟨hlow, hhigh⟩ := List.append_eq_nil_iff.mp hnil
    obtain rfl := part_eq_nil hlow
    obtain rfl := part_eq_nil hhigh
    cases integral with
    | true => cases hflag
    | false =>
      rw [ofDocument]
      rfl
  · rw [if_neg hempty]
    have htaken : ∀ e ∈ boundEntry "min" low ++ boundEntry "max" high ++
        (if integral = true then [entry "integer_only" (.bool true)] else []),
        Taken .number e := by
      simp only [List.forall_mem_append]
      refine ⟨⟨taken_part (by decide) _ _, taken_part (by decide) _ _⟩, ?_⟩
      cases integral with
      | false =>
        intro e he
        cases he
      | true => exact List.forall_mem_singleton.mpr ⟨"integer_only", by decide, rfl⟩
    rw [ofDocument_tagged at_ htaken, ofTagged, ← makeNumber_of hordered]
    congr 1
    · cases integral <;> simp [optionOr, Tag.key, Entries.find?, Entries.find?_append,
        find?_boundEntry, entry, boundValue]
    · cases integral <;> simp [optionOr, Tag.key, Entries.find?, Entries.find?_append,
        find?_boundEntry, entry, boundValue]
    · cases integral <;> simp [optionOr, Tag.key, Entries.find?, Entries.find?_append,
        find?_boundEntry, entry]

/-! ## Lists of fields -/

/-- A document is a field's own and is read back as `readBack` says. -/
structure Reads (f : Field) (d : Value) : Prop where
  written : f.toDocument = .ok d
  read : ∀ at_, ofDocument at_ d = .ok f.readBack

theorem reads_all {fields : List Field} (h : ∀ f ∈ fields, ∃ d, Reads f d) :
    ∃ ds, toDocuments fields = .ok ds ∧ ds.length = fields.length ∧
      ∀ place index, ofDocuments place index ds = .ok ((readBackAll fields).map .field) := by
  induction fields with
  | nil => exact ⟨[], rfl, rfl, fun _ _ => by rw [ofDocuments]; rfl⟩
  | cons f rest ih =>
    obtain ⟨⟨d, hwritten, hread⟩, hrest⟩ := List.forall_mem_cons.mp h
    obtain ⟨ds, hds, hlength, hreads⟩ := ih hrest
    refine ⟨d :: ds, ?_, congrArg (· + 1) hlength, fun place index => ?_⟩
    · rw [toDocuments, hwritten, hds]
      rfl
    · rw [ofDocuments, hread, hreads]
      rfl

/-- The fields of members under their names, as they are read back. -/
def readNamed (members : List (Member Field)) : List (String × Field) :=
  members.map fun m => (m.name, m.field.readBack)

theorem reads_members {members : List (Member Field)} (h : ∀ m ∈ members, ∃ d, Reads m.field d) :
    ∃ ds, memberDocuments members = .ok ds ∧
      (∀ name, (Entries.find? (.text name) ds).isSome = Member.declares members name) ∧
      ∀ at_, ofEntries at_ ds = .ok (namedArgs (readNamed members)) := by
  induction members with
  | nil => exact ⟨[], rfl, fun _ => rfl, fun _ => by rw [ofEntries]; rfl⟩
  | cons m rest ih =>
    obtain ⟨name, required, f⟩ := m
    obtain ⟨⟨d, hwritten, hread⟩, hrest⟩ := List.forall_mem_cons.mp h
    obtain ⟨ds, hds, hkeys, hreads⟩ := ih hrest
    simp only at hwritten hread
    refine ⟨entry name d :: ds, ?_, fun other => ?_, fun at_ => ?_⟩
    · rw [memberDocuments, hwritten, hds]
      rfl
    · have hkeys := hkeys other
      unfold Member.declares at hkeys ⊢
      rw [entry, Entries.find?, Member.find?, Key.text_same_text]
      by_cases hname : name = other
      · simp [hname]
      · simp [hname, hkeys]
    · rw [entry, ofEntries, hread, hreads]
      rfl

/-! ## Objects -/

section

omit [Externals]

theorem fst_readNamed (members : List (Member Field)) :
    (readNamed members).map Prod.fst = Member.names members := by
  unfold readNamed Member.names
  rw [List.map_map]
  rfl

theorem derived_readNamed {members : List (Member Field)} (h : isDerived members = true) :
    Member.derived (readNamed members) = readBackMembers members := by
  unfold Member.derived readNamed
  rw [readBackMembers_eq, List.map_map]
  refine List.map_congr_left fun m hm => ?_
  have hrequired := beq_iff_eq.mp (List.all_eq_true.mp h m hm)
  show Member.mk m.name (!m.field.readBack.acceptsAbsence) m.field.readBack = _
  rw [acceptsAbsence_readBack, hrequired]

theorem contains_sortedNames {members : List (Member Field)}
    (hnodup : (Member.names members).Nodup) {m : Member Field} (hm : m ∈ members) :
    (sortedNames (Member.requiredNames members)).contains m.name = m.required := by
  rw [Bool.eq_iff_iff, List.contains_iff_mem, sortedNames, List.mem_mergeSort]
  unfold Member.requiredNames Member.names
  constructor
  · intro h
    obtain ⟨n, hn, hname⟩ := List.mem_map.mp h
    obtain ⟨hmem, hrequired⟩ := List.mem_filter.mp hn
    obtain rfl := Member.eq_of_name hnodup hmem hm hname
    exact hrequired
  · intro hrequired
    exact List.mem_map_of_mem (List.mem_filter.mpr ⟨hm, hrequired⟩)

theorem required_readNamed {members : List (Member Field)}
    (hnodup : (Member.names members).Nodup) :
    ((readNamed members).map fun e =>
      (⟨e.1, (sortedNames (Member.requiredNames members)).contains e.1, e.2⟩ : Member Field)) =
      readBackMembers members := by
  unfold readNamed
  rw [readBackMembers_eq, List.map_map]
  refine List.map_congr_left fun m hm => ?_
  show Member.mk m.name _ m.field.readBack = _
  rw [contains_sortedNames hnodup hm]

end

theorem ofDocument_objectDocument {members : List (Member Field)} {ds : List (Key × Value)}
    (hnodup : (Member.names members).Nodup)
    (hkeys : ∀ name, (Entries.find? (.text name) ds).isSome = Member.declares members name)
    (hread : ∀ at_, ofEntries at_ ds = .ok (namedArgs (readNamed members))) (at_ : String) :
    ofDocument at_ (objectDocument members ds) = .ok (.object (readBackMembers members)) := by
  have hnames : ((readNamed members).map Prod.fst).Nodup := by
    rw [fst_readNamed]
    exact hnodup
  unfold objectDocument
  split
  · have htaken : ∀ e ∈ [entry "fields" (.object ds),
        entry "required" (.array ((sortedNames (Member.requiredNames members)).map .text))],
        Taken .object e := by
      refine List.forall_mem_cons.mpr ⟨⟨"fields", by decide, rfl⟩, ?_⟩
      exact List.forall_mem_singleton.mpr ⟨"required", by decide, rfl⟩
    have hdeclared : ∀ name ∈ sortedNames (Member.requiredNames members),
        ∃ e ∈ readNamed members, e.1 = name := by
      intro name hname
      rw [sortedNames, List.mem_mergeSort] at hname
      obtain ⟨m, hm, rfl⟩ := List.mem_map.mp hname
      exact ⟨_, List.mem_map_of_mem (List.mem_filter.mp hm).1, rfl⟩
    rw [ofDocument_tagged at_ htaken, ofTagged]
    split
    · next hnone => simp [Tag.key, entry, Entries.find?] at hnone
    · next fields hfields =>
      obtain rfl : ds = fields := by
        simpa [Tag.key, entry, Entries.find?] using hfields
      have hrequired : optionOr ((Tag.key, .text Tag.object.name) :: [entry "fields" (.object ds),
          entry "required" (.array ((sortedNames (Member.requiredNames members)).map .text))])
          "required" .null =
          .array ((sortedNames (Member.requiredNames members)).map .text) := by
        simp [optionOr, Tag.key, entry, Entries.find?]
      rw [hread, Outcome.ok_bind, hrequired, makeRequiring_texts hnames hdeclared,
        required_readNamed hnodup]
    · next other hother hfind =>
      refine (hother ds ?_).elim
      simpa [Tag.key, entry, Entries.find?] using hfind.symm
  · next hplain =>
    obtain ⟨hdollar, hderived⟩ := Bool.or_eq_false_iff.mp (Bool.not_eq_true _ |>.mp hplain)
    have hnone : Tag.of? ds = none := by
      have hfind : Entries.find? Tag.key ds = none := by
        have hsome := hkeys "$"
        rw [hdollar, Option.isSome_eq_false_iff, Option.isNone_iff_eq_none] at hsome
        exact hsome
      unfold Tag.of?
      rw [hfind]
    rw [ofDocument, hnone]
    show (do
      let fields ← ofEntries at_ ds
      makeObject fields .null) = _
    rw [hread, Outcome.ok_bind, makeObject_derived hnames,
      derived_readNamed (by simpa using hderived)]

/-! ## Whole trees -/

/-- What a document relies on at one field. -/
structure Documentable (f : Field) : Prop where
  notCustom : f.NotCustom
  sound : f.SoundHere
  finite : f.HasFiniteNumbers
  flag : f.HasTruthFlag

/-- What writing and reading back rely on at one field. -/
structure Writable (f : Field) : Prop where
  notCustom : f.NotCustom
  sound : f.SoundHere
  finite : f.HasFiniteNumbers

theorem Documentable.writable {f : Field} (h : f.Documentable) : f.Writable :=
  ⟨h.notCustom, h.sound, h.finite⟩

omit [Externals] in
theorem jsonOption_of {v : Value} (h : v.Checked) (at_ : String) : jsonOption at_ v = .ok v := by
  unfold jsonOption
  rw [h.check]

theorem soundUnion_readBack {variants : List Field} {discriminant : Option String}
    (h : SoundUnion variants discriminant) :
    SoundUnion (readBackAll variants) discriminant := by
  rw [readBackAll_eq]
  cases discriminant with
  | none =>
    refine List.pairwise_map.mpr (h.imp fun {f g} hfg => ?_)
    rw [mayOverlap_readBack, hfg]
  | some key =>
    obtain ⟨htagged, hdistinct⟩ := h
    refine ⟨fun _ hmem => ?_, List.pairwise_map.mpr (hdistinct.imp fun {f g} hfg => ?_)⟩
    · obtain ⟨f, hf, rfl⟩ := List.mem_map.mp hmem
      rw [tagOf?_readBack]
      exact htagged f hf
    · rw [tagOf?_readBack, tagOf?_readBack]
      exact hfg

omit [Externals] in
/-- The first option of a tagged document is found under its name. -/
theorem find?_first (name : String) (hname : name ≠ "$") (tag v : Value)
    (options : List (Key × Value)) :
    Entries.find? (.text name) ((Tag.key, tag) :: entry name v :: options) = some v := by
  rw [find?_tagged hname, entry, Entries.find?, Key.text_same_text, if_pos (by simp)]

theorem ofDocument_arrayDocument {element : Field} {low high : Option Number} {d : Value}
    (hcount : CountBounds low high) (hread : ∀ at_, ofDocument at_ d = .ok element) (at_ : String) :
    ofDocument at_ (arrayDocument d low high) = .ok (.array element (readLeast low high) high) := by
  unfold arrayDocument readLeast
  by_cases hshort : (low.any Number.isZero && high.isNone) = true
  · rw [if_pos hshort, if_pos hshort]
    obtain ⟨-, hnone⟩ := Bool.and_eq_true _ _ |>.mp hshort
    obtain rfl := Option.isNone_iff_eq_none.mp hnone
    have hzero : CountBounds (some (.int 0)) none :=
      { ordered := nofun
        low := by
          intro n hn
          rw [← Option.some.inj hn]
          exact Number.int_lt_zero (Int.le_refl 0)
        high := nofun }
    rw [ofDocument, ofDocuments, hread, ofDocuments]
    simp only [Outcome.ok_bind, Outcome.pure_eq_ok]
    have hmake : makeArray (.field element) (boundValue (some (.int 0))) (boundValue none) =
        .ok (.array element (some (.int 0)) none) := makeArray_of hzero
    exact hmake
  · rw [if_neg hshort, if_neg hshort]
    have htaken : ∀ e ∈ [entry "element" d, entry "min_items" (boundValue low)] ++
        boundEntry "max_items" high, Taken .array e := by
      refine List.forall_mem_append.mpr ⟨?_, taken_part (by decide) _ _⟩
      refine List.forall_mem_cons.mpr ⟨⟨"element", by decide, rfl⟩, ?_⟩
      exact List.forall_mem_singleton.mpr ⟨"min_items", by decide, rfl⟩
    have helement := find?_first "element" (by decide) (.text Tag.array.name) d
      (entry "min_items" (boundValue low) :: boundEntry "max_items" high)
    rw [ofDocument_tagged at_ htaken, ofTagged, ← makeArray_of hcount]
    split
    · next hnone => cases hnone.symm.trans helement
    · next d' hd' =>
      obtain rfl := Option.some.inj (hd'.symm.trans helement)
      rw [hread, Outcome.ok_bind]
      congr 1
      cases high <;> simp [optionOr, Tag.key, Entries.find?, entry, boundEntry, boundValue]

theorem ofDocument_tupleDocument {fields : List Field} {ds : List Value}
    (hlength : ds.length = fields.length)
    (hread : ∀ place index, ofDocuments place index ds = .ok (fields.map .field)) (at_ : String) :
    ofDocument at_ (tupleDocument ds) = .ok (.tuple fields) := by
  unfold tupleDocument
  split
  · next d =>
    have htaken : ∀ e ∈ [entry "items" (.array [d])], Taken .tuple e :=
      List.forall_mem_singleton.mpr ⟨"items", by decide, rfl⟩
    have hitems := find?_first "items" (by decide) (.text Tag.tuple.name) (.array [d]) []
    rw [ofDocument_tagged at_ htaken, ofTagged]
    split
    · next hnone => cases hnone.symm.trans hitems
    · next items hfind =>
      cases hfind.symm.trans hitems
      rw [hread, Outcome.ok_bind, makeTuple_of]
    · next other hother hfind => exact (hother _ (Option.some.inj (hfind.symm.trans hitems))).elim
  · next hmany =>
    rw [ofDocument, hread, Outcome.ok_bind]
    split
    · next one hone =>
      have hsingle : ds.length = 1 := by
        rw [hlength, ← List.length_map (f := FieldArg.field), hone]
        rfl
      obtain ⟨d, rfl⟩ := List.length_eq_one_iff.mp hsingle
      exact (hmany d rfl).elim
    · exact makeTuple_of fields

/-- The document of a constructed field can be written, and is read back. -/
theorem reads_of_writable {f : Field} (hf : f.Everywhere Writable) : ∃ d, Reads f d := by
  induction f with
  | string low high pattern format =>
    exact ⟨_, rfl, ofDocument_stringDocument hf.here.sound.1 hf.here.sound.2⟩
  | number low high integerOnly =>
    exact ⟨_, rfl, ofDocument_numberDocument hf.here.sound integerOnly.truthy⟩
  | boolean | null | any =>
    refine ⟨_, rfl, fun at_ => ?_⟩
    rw [ofDocument]
    rfl
  | literal value =>
    refine ⟨_, rfl, fun at_ => ?_⟩
    have htaken : ∀ e ∈ [entry "value" (.scalar value)], Taken .literal e :=
      List.forall_mem_singleton.mpr ⟨"value", by decide, rfl⟩
    rw [ofDocument_tagged at_ htaken, ofTagged]
    have hvalue : Entries.find? (.text "value")
        ((Tag.key, .text Tag.literal.name) :: [entry "value" (.scalar value)]) =
          some (.scalar value) := by
      simp [Tag.key, entry, Entries.find?]
    simp only [hvalue, jsonOption_of (checked_literal hf.here.finite)]
    rfl
  | array element low high ih =>
    obtain ⟨d, hwritten, hread⟩ := ih hf.arrayElement
    refine ⟨arrayDocument d low high, ?_, fun at_ => ?_⟩
    · rw [toDocument, hwritten]
      rfl
    · exact ofDocument_arrayDocument hf.here.sound hread at_
  | tuple fields ih =>
    obtain ⟨ds, hwritten, hlength, hread⟩ :=
      reads_all fun f hfmem => ih f hfmem (hf.tupleItem hfmem)
    refine ⟨tupleDocument ds, ?_, fun at_ => ?_⟩
    · rw [toDocument, hwritten]
      rfl
    · refine ofDocument_tupleDocument ?_ hread at_
      rw [hlength, readBackAll_eq, List.length_map]
  | object members ih =>
    obtain ⟨ds, hwritten, hkeys, hread⟩ :=
      reads_members fun m hm => ih m hm (hf.objectMember hm)
    refine ⟨objectDocument members ds, ?_,
      ofDocument_objectDocument hf.here.sound hkeys hread⟩
    rw [toDocument, hwritten]
    rfl
  | optional inner ih =>
    obtain ⟨d, hwritten, hread⟩ := ih hf.optionalInner
    refine ⟨tagged .optional [entry "type" d], ?_, fun at_ => ?_⟩
    · rw [toDocument, hwritten]
      rfl
    · have htaken : ∀ e ∈ [entry "type" d], Taken .optional e :=
        List.forall_mem_singleton.mpr ⟨"type", by decide, rfl⟩
      have htype := find?_first "type" (by decide) (.text Tag.optional.name) d []
      rw [ofDocument_tagged at_ htaken, ofTagged]
      split
      · next hnone => cases hnone.symm.trans htype
      · next d' hd' =>
        obtain rfl := Option.some.inj (hd'.symm.trans htype)
        rw [hread]
        rfl
  | defaulted inner value ih =>
    obtain ⟨d, hwritten, hread⟩ := ih hf.defaultedInner
    refine ⟨tagged .defaulted [entry "type" d, entry "default" value], ?_, fun at_ => ?_⟩
    · rw [toDocument, hwritten]
      rfl
    · have htaken : ∀ e ∈ [entry "type" d, entry "default" value], Taken .defaulted e :=
        List.forall_mem_cons.mpr ⟨⟨"type", by decide, rfl⟩,
          List.forall_mem_singleton.mpr ⟨"default", by decide, rfl⟩⟩
      have htype := find?_first "type" (by decide) (.text Tag.defaulted.name) d [entry "default" value]
      have hdefault : Entries.find? (.text "default") ((Tag.key, .text Tag.defaulted.name) ::
          [entry "type" d, entry "default" value]) = some value := by
        simp [Tag.key, entry, Entries.find?]
      have hchecked := hf.here.sound.1.checked
      have hconforms : inner.readBack.check {} value = .ok [] := by
        unfold check
        rw [validate_readBack]
        exact hf.here.sound.2
      rw [ofDocument_tagged at_ htaken, ofTagged]
      split
      · next hnone => cases hnone.symm.trans htype
      · next d' hd' =>
        obtain rfl := Option.some.inj (hd'.symm.trans htype)
        simp only [hread, Outcome.ok_bind, hdefault, jsonOption_of hchecked]
        exact makeDefaulted_of hchecked hconforms
  | union variants discriminant ih =>
    obtain ⟨ds, hwritten, hlength, hread⟩ :=
      reads_all fun f hfmem => ih f hfmem (hf.unionVariant hfmem)
    refine ⟨tagged .union (entry "variants" (.array ds) ::
      discriminant.toList.map fun key => entry "discriminant" (.text key)), ?_, fun at_ => ?_⟩
    · rw [toDocument, hwritten]
      rfl
    · have htaken : ∀ e ∈ entry "variants" (.array ds) ::
          discriminant.toList.map (fun key => entry "discriminant" (.text key)),
          Taken .union e :=
        List.forall_mem_cons.mpr ⟨⟨"variants", by decide, rfl⟩, taken_part (by decide) _ _⟩
      have hvariants := find?_first "variants" (by decide) (.text Tag.union.name) (.array ds)
        (discriminant.toList.map fun key => entry "discriminant" (.text key))
      have hkey : optionOr ((Tag.key, .text Tag.union.name) :: entry "variants" (.array ds) ::
          discriminant.toList.map fun key => entry "discriminant" (.text key))
          "discriminant" .null = discriminantValue discriminant := by
        cases discriminant <;>
          simp [optionOr, Tag.key, entry, Entries.find?, discriminantValue]
      have htwo : 2 ≤ (readBackAll variants).length := by
        rw [readBackAll_eq, List.length_map]
        exact hf.here.sound.1
      rw [ofDocument_tagged at_ htaken, ofTagged]
      split
      · next hnone => cases hnone.symm.trans hvariants
      · next items hfind =>
        cases hfind.symm.trans hvariants
        rw [hread, Outcome.ok_bind, hkey]
        exact makeUnion_of htwo (soundUnion_readBack hf.here.sound.2)
      · next other hother hfind =>
        exact (hother _ (Option.some.inj (hfind.symm.trans hvariants))).elim
  | custom check name => exact hf.here.notCustom.elim

theorem reads {f : Field} (hf : f.Everywhere Documentable) : ∃ d, Reads f d :=
  reads_of_writable (hf.imp fun _ => Documentable.writable)

end Field
end Lineage
