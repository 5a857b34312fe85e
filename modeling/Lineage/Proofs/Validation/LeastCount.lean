import Lineage.Format.Email
import Lineage.Proofs.Field.Document
import Lineage.Proofs.Field.Reading
import Lineage.Proofs.Validation.Tags
import Lineage.Proofs.Validation.Total

/-
Validation is total where arrays have a least count.

What a document describes meets all that validation needs, but for one thing: a document may
give `null` for the least count of an array.  The validator compares the length with it as
soon as it comes to an array there, so one such field anywhere in the tree is reached by some
JSON value, and validation of that value fails.
-/

namespace Lineage
namespace Field

open Validation

variable {o : Options} {path : Path} {f : Field}

section

variable [Externals]

theorem Read.answerable (hf : f.Read) (hcount : f.Everywhere HasLeastCount) :
    f.Everywhere Answerable :=
  hf.constructed.answerable (fun g hg => (hf.documented g hg).notCustom)
    (fun g hg => (hf.documented g hg).textPattern) hcount

/-! ## Where a whole gives a result so do its parts -/

/-- A JSON value apart from null, which optional fields do not look into. -/
structure Probe (v : Value) : Prop where
  json : v.IsJson
  notNull : v ≠ .null

omit [Externals] in
theorem Probe.ne_missing {v : Value} (h : Probe v) : v ≠ .missing := h.json.checked.ne_missing

omit [Externals] in
theorem probe_array {items : List Value} (h : ∀ v ∈ items, v.IsJson) : Probe (.array items) :=
  ⟨Value.isJson_array.mpr h, nofun⟩

omit [Externals] in
theorem probe_object {entries : List (Key × Value)} (hdistinct : Entries.Distinct entries)
    (h : ∀ e ∈ entries, (∃ name, e.1 = .text name) ∧ e.2.IsJson) : Probe (.object entries) :=
  ⟨Value.isJson_object.mpr ⟨hdistinct, h⟩, nofun⟩

/-- Validation against a field at a place gives a result for every such value. -/
def Answers (o : Options) (path : Path) (f : Field) : Prop :=
  ∀ v, Probe v → (f.validate o path v).Returns

section Parts

variable {low high : Option Number} {inner : Field} {value : Value} {variants : List Field}
variable {members : List (Member Field)} {entries : List (Key × Value)} {m : Member Field}
variable {key : String} {tag : Scalar}

/-- The length of the empty array is compared with the least count as well. -/
theorem Answers.leastCount (h : Answers o path (array inner low high)) : ∃ n, low = some n := by
  obtain ⟨violations, hempty⟩ := h (.array []) (probe_array (List.forall_mem_nil _))
  obtain ⟨counted, hcounted, -⟩ := Outcome.bind_eq_ok.mp hempty
  cases low with
  | none => cases hcounted
  | some n => exact ⟨n, rfl⟩

theorem Answers.element (h : Answers o path (array inner low high)) :
    Answers o (path.index 0) inner := by
  intro v hv
  obtain ⟨violations, hone⟩ :=
    h (.array [v]) (probe_array (List.forall_mem_singleton.mpr hv.json))
  obtain ⟨counted, -, hone⟩ := Outcome.bind_eq_ok.mp hone
  obtain ⟨inside, hinside, -⟩ := Outcome.bind_eq_ok.mp hone
  exact (Outcome.returns_append.mp ⟨inside, hinside⟩).1

theorem answers_of_validateItems {fields : List Field} {index : Nat}
    (h : ∀ v, Probe v → (validateItems o fields path index (fields.map fun _ => v)).Returns) :
    ∀ f ∈ fields, ∃ q, Answers o q f := by
  induction fields generalizing index with
  | nil => exact List.forall_mem_nil _
  | cons f rest ih =>
    refine List.forall_mem_cons.mpr ⟨⟨path.index index, fun v hv => ?_⟩, ?_⟩
    · exact (Outcome.returns_append.mp (h v hv)).1
    · have hlater : ∀ v, Probe v →
          (validateItems o rest path (index + 1) (rest.map fun _ => v)).Returns :=
        fun v hv => (Outcome.returns_append.mp (h v hv)).2
      exact ih hlater

theorem Answers.items {fields : List Field} (h : Answers o path (tuple fields)) :
    ∀ f ∈ fields, ∃ q, Answers o q f := by
  have hall : ∀ v, Probe v → (validateItems o fields path 0 (fields.map fun _ => v)).Returns := by
    intro v hv
    have hprobe : Probe (.array (fields.map fun _ => v)) := by
      refine probe_array fun w hw => ?_
      obtain ⟨_, -, rfl⟩ := List.mem_map.mp hw
      exact hv.json
    have hreturns := h _ hprobe
    rw [validate_tuple] at hreturns
    simpa only [List.length_map, if_true] using hreturns
  exact answers_of_validateItems hall

theorem returns_of_object (h : ((object members).validate o path (.object entries)).Returns)
    (hm : m ∈ members) {w : Value} (hw : Entries.find? (.text m.name) entries = some w) :
    (m.field.validate o (path.key m.name) w).Returns := by
  obtain ⟨violations, h⟩ := h
  obtain ⟨declared, hdeclared, -⟩ := Outcome.bind_eq_ok.mp h
  have hmember := validateMembers_returns.mp ⟨declared, hdeclared⟩ m hm
  unfold validateMember at hmember
  simpa only [hw] using hmember

theorem Answers.member (h : Answers o path (object members)) (hm : m ∈ members) :
    Answers o (path.key m.name) m.field := by
  intro w hw
  have hprobe : Probe (.object [(.text m.name, w)]) :=
    probe_object (List.pairwise_singleton _ _)
      (List.forall_mem_singleton.mpr ⟨⟨m.name, rfl⟩, hw.json⟩)
  exact returns_of_object (h _ hprobe) hm (by simp [Entries.find?])

theorem Answers.optionalInner (h : Answers o path (optional inner)) : Answers o path inner := by
  intro v hv
  have hreturns := h v hv
  rw [validate_optional] at hreturns
  split at hreturns
  · exact absurd rfl hv.ne_missing
  · exact absurd rfl hv.notNull
  · exact hreturns

theorem Answers.defaultedInner (h : Answers o path (defaulted inner value)) :
    Answers o path inner := by
  intro v hv
  have hreturns := h v hv
  rwa [validate_defaulted_present hv.ne_missing] at hreturns

theorem Answers.variant (h : Answers o path (union variants none)) (hf : f ∈ variants) :
    Answers o path f := by
  intro v hv
  obtain ⟨violations, hviolations⟩ := h v hv
  obtain ⟨results, hall, -⟩ := (validate_union_eq_ok hv.ne_missing).mp hviolations
  obtain ⟨r, -, hr⟩ := Alongside.exists_right hall hf
  exact ⟨r, hr⟩

/-- An object that carries a variant's tag is judged by that variant. -/
theorem validate_carrying (hdistinct : TagsDistinct key variants) (hf : f ∈ variants)
    (htag : f.tagOf? key = some tag) (hself : tag.identical tag = true)
    (hentry : Entries.find? (.text key) entries = some (.scalar tag)) :
    (union variants (some key)).validate o path (.object entries) =
      f.validate o path (.object entries) := by
  rw [validate_union]
  simp only [hentry]
  rw [validateTagged_eq, find?_hasTag hdistinct hf htag hself]

/-- Beside the tag, an object can hold any value under the name of another member. -/
theorem Answers.taggedMember (h : Answers o path (union variants (some key)))
    (hdistinct : TagsDistinct key variants) (hf : object members ∈ variants)
    (htag : (object members).tagOf? key = some tag) (hchecked : (Value.scalar tag).Checked)
    (hm : m ∈ members) (hne : key ≠ m.name) : Answers o (path.key m.name) m.field := by
  intro w hw
  have hprobe : Probe (.object [(.text key, .scalar tag), (.text m.name, w)]) := by
    refine probe_object (List.pairwise_pair.mpr ?_) ?_
    · simpa using hne
    · exact List.forall_mem_cons.mpr ⟨⟨⟨key, rfl⟩, Value.isJson_scalar hchecked⟩,
        List.forall_mem_singleton.mpr ⟨⟨m.name, rfl⟩, hw.json⟩⟩
  have hreturns := h _ hprobe
  rw [validate_carrying hdistinct hf htag (Scalar.identical_self hchecked)
    (by simp [Entries.find?])] at hreturns
  exact returns_of_object hreturns hm (by simp [Entries.find?, hne])

end Parts

/-! ## Every field is reached -/

/-- What the search for a failing value relies on at one field. -/
structure Reachable (f : Field) : Prop where
  sound : f.SoundHere
  checkedLiteral : f.HasCheckedLiteral

/-- An array without a least count fails on the empty array, and some JSON value leads there
past all tags on the way. -/
theorem hasLeastCount_of_answers {path : Path} {f : Field} (hf : f.Everywhere Reachable)
    (h : Answers o path f) : f.Everywhere HasLeastCount := by
  match f, hf, h with
  | .string .., _, _ | .number .., _, _ | .boolean, _, _ | .null, _, _ | .any, _, _
  | .literal _, _, _ | .custom .., _, _ => exact everywhere_leaf trivial rfl
  | .array element low high, hf, h =>
    exact everywhere_array h.leastCount (hasLeastCount_of_answers hf.arrayElement h.element)
  | .tuple fields, hf, h =>
    refine everywhere_of trivial fun g (hg : g ∈ fields) => ?_
    have := List.sizeOf_lt_of_mem hg
    obtain ⟨q, hq⟩ := h.items g hg
    exact hasLeastCount_of_answers (hf.tupleItem hg) hq
  | .object members, hf, h =>
    refine everywhere_object trivial fun m hm => ?_
    have := sizeOf_member_lt hm
    exact hasLeastCount_of_answers (hf.objectMember hm) (h.member hm)
  | .optional inner, hf, h =>
    exact everywhere_optional trivial (hasLeastCount_of_answers hf.optionalInner h.optionalInner)
  | .defaulted inner value, hf, h =>
    exact everywhere_defaulted trivial
      (hasLeastCount_of_answers hf.defaultedInner h.defaultedInner)
  | .union variants none, hf, h =>
    refine everywhere_of trivial fun g (hg : g ∈ variants) => ?_
    have := List.sizeOf_lt_of_mem hg
    exact hasLeastCount_of_answers (hf.unionVariant hg) (h.variant hg)
  | .union variants (some key), hf, h =>
    refine everywhere_of trivial fun g (hg : g ∈ variants) => ?_
    have hdistinct : TagsDistinct key variants := hf.here.sound.2
    obtain ⟨tag, htag⟩ := hdistinct.tagged g hg
    obtain ⟨members, rfl, hfind⟩ := tagOf?_eq_some htag
    have hvariant := hf.unionVariant hg
    have htagmem := Member.mem_of_find? hfind
    have hchecked : (Value.scalar tag).Checked :=
      (hvariant.objectMember htagmem).here.checkedLiteral
    refine everywhere_object trivial fun m hm => ?_
    by_cases hname : key = m.name
    · -- The member that holds the tag is a literal.
      have htagged := Member.eq_of_name hvariant.here.sound hm htagmem hname.symm
      exact htagged ▸ everywhere_leaf trivial rfl
    · have := List.sizeOf_lt_of_mem hg
      have := sizeOf_member_lt hm
      exact hasLeastCount_of_answers (hvariant.objectMember hm)
        (h.taggedMember hdistinct hg htag hchecked hm hname)
termination_by sizeOf f
decreasing_by
  all_goals simp_all only [array.sizeOf_spec, tuple.sizeOf_spec, object.sizeOf_spec,
    optional.sizeOf_spec, defaulted.sizeOf_spec, union.sizeOf_spec]
  all_goals omega

/-- Validation against the field that a JSON document describes gives a result for every JSON
value under all options, exactly when each array in the field has a least count. -/
theorem validation_total_iff {at_ : String} {d : Value} (hd : d.IsJson)
    (h : ofDocument at_ d = .ok f) :
    (∀ (o : Options) (v : Value), v.IsJson → (f.check o v).Returns) ↔
      f.Everywhere HasLeastCount := by
  have hread := read_document hd h
  constructor
  · intro hreturns
    have hreachable : f.Everywhere Reachable := fun g hg =>
      ⟨hread.constructed.sound g hg, (hread.documented g hg).checkedLiteral⟩
    exact hasLeastCount_of_answers hreachable fun v hv => hreturns {} v hv.json
  · intro hcount o v hv
    exact validate_answers (hread.answerable hcount) (.inr hv.checked.kinded)

/-- The document of an array of anything, with what it gives as the least count. -/
def arrayOfAny (least : Value) : Value :=
  tagged .array [entry "element" (.text "any"), entry "min_items" least]

theorem ofDocument_arrayOfAny (at_ : String) (least : Value) :
    ofDocument at_ (arrayOfAny least) = makeArray (.field .any) least .null := by
  have htaken : ∀ e ∈ [entry "element" (.text "any"), entry "min_items" least],
      Taken .array e :=
    List.forall_mem_cons.mpr ⟨⟨"element", by decide, rfl⟩,
      List.forall_mem_singleton.mpr ⟨"min_items", by decide, rfl⟩⟩
  rw [arrayOfAny, ofDocument_tagged at_ htaken, ofTagged]
  have helement : ofDocument (at_ ++ ".*") (.text "any") = .ok .any := by
    rw [ofDocument]
    rfl
  split
  · next hnone => cases hnone
  · next d hd =>
    cases hd
    rw [helement]
    rfl

omit [Externals] in
theorem isJson_arrayOfAny {least : Value} (h : least.IsJson) : (arrayOfAny least).IsJson := by
  refine Value.isJson_object.mpr ⟨?_, ?_⟩
  · simp [Entries.Distinct, Tag.key, entry]
  · exact List.forall_mem_cons.mpr ⟨⟨⟨_, rfl⟩, Value.isJson_scalar rfl⟩,
      List.forall_mem_cons.mpr ⟨⟨⟨_, rfl⟩, Value.isJson_scalar rfl⟩,
        List.forall_mem_singleton.mpr ⟨⟨_, rfl⟩, h⟩⟩⟩

end

/-- An array of at least one item. -/
theorem validation_total_iff_counted :
    let d := arrayOfAny (.int 1)
    let f : Field := .array .any (some (.int 1)) none
    d.IsJson ∧ ofDocument "$" d = .ok f ∧
      ∀ (o : Options) (v : Value), v.IsJson → (f.check o v).Returns := by
  intro d f
  have hd : d.IsJson := isJson_arrayOfAny (Value.isJson_scalar rfl)
  have hone : NotNegative (some (.int 1)) := by
    rintro _ ⟨⟩
    exact Number.int_lt_zero (by decide)
  have hmake : makeArray (.field .any) (boundValue (some (.int 1))) (boundValue none) = .ok f :=
    makeArray_of ⟨nofun, hone, nofun⟩
  have hread : ofDocument "$" d = .ok f := (ofDocument_arrayOfAny "$" (.int 1)).trans hmake
  have hcount : f.Everywhere HasLeastCount :=
    everywhere_array ⟨_, rfl⟩ (everywhere_leaf trivial rfl)
  exact ⟨hd, hread, (validation_total_iff hd hread).mpr hcount⟩

/-- A document that gives `null` as the least count of an array is read, and validation of the
empty array against what it describes fails. -/
theorem validation_fails_uncounted :
    ∃ d f, d.IsJson ∧ ofDocument "$" d = .ok f ∧ (Value.array []).IsJson ∧
      f.check {} (.array []) = .error Error.badType :=
  ⟨arrayOfAny .null, .array .any none none, isJson_arrayOfAny (Value.isJson_scalar rfl),
    ofDocument_arrayOfAny "$" .null, Value.isJson_array.mpr (List.forall_mem_nil _), rfl⟩

end Field
end Lineage
