import Lineage.Proofs.Field.Reading

/-
Documents inside documents.

A field document is made of documents as a field is made of fields: each part of the field
that a document describes is described by a part of the document.  So what is asked of every
document in a document holds of every field in the tree, if it does level by level.
-/

namespace Lineage
namespace Field

/-! ## Documents inside documents -/

/-- The documents in a list under a key. -/
def listed (name : String) (entries : List (Key × Value)) : List Value :=
  match Entries.find? (.text name) entries with
  | some (.array items) => items
  | _ => []

/-- The documents that a document with a tag is made of. -/
def taggedParts (entries : List (Key × Value)) : Tag → List Value
  | .array => (Entries.find? (.text "element") entries).toList
  | .optional | .defaulted => (Entries.find? (.text "type") entries).toList
  | .tuple => listed "items" entries
  | .union => listed "variants" entries
  | .object =>
    match Entries.find? (.text "fields") entries with
    | some (.object fields) => fields.map Prod.snd
    | _ => []
  | .string | .number | .boolean | .null | .any | .literal => []

/-- The documents that a document is made of. -/
def documentParts : Value → List Value
  | .array items => items
  | .object entries =>
    match Tag.of? entries with
    | some t => taggedParts entries t
    | none => entries.map Prod.snd
  | _ => []

/-- A document is another, or one of those that it is made of at some depth. -/
inductive DocumentWithin (e : Value) : Value → Prop
  | here : DocumentWithin e e
  | part {d p : Value} (hpart : p ∈ documentParts d) (hwithin : DocumentWithin e p) :
      DocumentWithin e d

/-- A property of every document in a document. -/
def EveryDocument (P : Value → Prop) (d : Value) : Prop := ∀ e, DocumentWithin e d → P e

variable {P : Value → Prop} {d p : Value} {entries : List (Key × Value)} {at_ : String} {t : Tag}

theorem EveryDocument.here (h : EveryDocument P d) : P d := h d .here

theorem EveryDocument.part (h : EveryDocument P d) (hpart : p ∈ documentParts d) :
    EveryDocument P p :=
  fun e he => h e (.part hpart he)

theorem everyDocument_of (hd : P d) (h : ∀ p ∈ documentParts d, EveryDocument P p) :
    EveryDocument P d := by
  intro e he
  cases he with
  | here => exact hd
  | part hpart hwithin => exact h _ hpart e hwithin

theorem mem_listed {name : String} (h : d ∈ listed name entries) :
    ∃ items, Entries.find? (.text name) entries = some (.array items) ∧ d ∈ items := by
  unfold listed at h
  split at h
  · next items hitems => exact ⟨items, hitems, h⟩
  · cases h

theorem sizeOf_listed_lt {name : String} (h : d ∈ listed name entries) :
    sizeOf d < sizeOf entries := by
  obtain ⟨items, hitems, hd⟩ := mem_listed h
  have hlt := sizeOf_entry_lt hitems
  have hmem := List.sizeOf_lt_of_mem hd
  simp only [Value.array.sizeOf_spec] at hlt
  omega

theorem sizeOf_found_lt {key : Key} (h : d ∈ (Entries.find? key entries).toList) :
    sizeOf d < sizeOf entries :=
  sizeOf_entry_lt (Option.mem_toList.mp h)

theorem sizeOf_taggedPart_lt (h : d ∈ taggedParts entries t) : sizeOf d < sizeOf entries := by
  cases t with
  | array | optional | defaulted => exact sizeOf_found_lt h
  | tuple | union => exact sizeOf_listed_lt h
  | object =>
    unfold taggedParts at h
    simp only at h
    split at h
    · next fields hfields =>
      obtain ⟨e, he, rfl⟩ := List.mem_map.mp h
      have hlt := sizeOf_entry_lt hfields
      have hmem := Entries.sizeOf_value_lt he
      simp only [Value.object.sizeOf_spec] at hlt
      omega
    · cases h
  | string | number | boolean | null | any | literal => cases h

theorem sizeOf_part_lt (h : p ∈ documentParts d) : sizeOf p < sizeOf d := by
  unfold documentParts at h
  split at h
  · next items =>
    have hmem := List.sizeOf_lt_of_mem h
    simp only [Value.array.sizeOf_spec]
    omega
  · next entries =>
    have hlt : sizeOf p < sizeOf entries := by
      split at h
      · exact sizeOf_taggedPart_lt h
      · obtain ⟨e, he, rfl⟩ := List.mem_map.mp h
        exact Entries.sizeOf_value_lt he
    simp only [Value.object.sizeOf_spec]
    omega
  · cases h

/-- Induction by way of the documents that a document is made of. -/
theorem documentInduction {motive : Value → Prop}
    (h : ∀ d, (∀ p ∈ documentParts d, motive p) → motive d) (d : Value) : motive d :=
  h d fun p hp =>
    have := sizeOf_part_lt hp
    documentInduction h p
termination_by sizeOf d

/-! ## Where the parts of a field come from -/

/-- A document of an array does not give `null` as the least count. -/
def Counted : Value → Prop
  | .object entries => Tag.of? entries = some .array →
      optionOr entries "min_items" (.int 0) ≠ .null
  | _ => True

variable [Externals]

/-- What a document says about the field it describes and about the parts of that. -/
structure ReadFrom (d : Value) (f : Field) : Prop where
  leastCount : Counted d → f.HasLeastCount
  children : ∀ g ∈ f.children, ∃ p ∈ documentParts d, ∃ q, ofDocument q p = .ok g

variable {f : Field}

theorem readFrom_leaf (hcount : f.HasLeastCount) (hleaf : f.children = []) : ReadFrom d f :=
  ⟨fun _ => hcount, by rw [hleaf]; exact List.forall_mem_nil _⟩

omit [Externals] in
theorem leastCount_of_bounds? {owner : String} {allowNegative : Bool} {low high : Value}
    {bounds : Option Number × Option Number}
    (h : bounds? owner allowNegative low high = .ok bounds) (hlow : low ≠ .null) :
    ∃ n, bounds.1 = some n := by
  rcases bound?_eq_ok (bounds?_eq_ok h).1 with ⟨hnull, -⟩ | ⟨n, -, hn, -⟩
  · exact (hlow hnull).elim
  · exact ⟨n, hn⟩

omit [Externals] in
theorem makeArray_eq_ok {element : Field} {low high : Value}
    (h : makeArray (.field element) low high = .ok f) :
    ∃ least most, f = .array element least most ∧ (low ≠ .null → ∃ n, least = some n) := by
  unfold makeArray child? at h
  rw [Outcome.ok_bind] at h
  obtain ⟨bounds, hbounds, h⟩ := Outcome.bind_eq_ok.mp h
  cases h
  exact ⟨bounds.1, bounds.2, rfl, leastCount_of_bounds? hbounds⟩

theorem readFrom_typeName {name : String} (h : ofTypeName at_ name = .ok f) :
    ReadFrom (.text name) f := by
  unfold ofTypeName at h
  split at h
  · cases h
    exact readFrom_leaf trivial rfl
  · split at h <;> cases h <;> exact readFrom_leaf trivial rfl

omit [Externals] in
theorem children_of_makeObject {fields : List (Key × Field)} {required : Value}
    (h : makeObject (fields.map fun e => (e.1, .field e.2)) required = .ok f) :
    f.HasLeastCount ∧ ∀ g ∈ f.children, ∃ e ∈ fields, e.2 = g := by
  obtain ⟨named, isRequired, hnamed, rfl⟩ := makeObject_eq_ok h
  refine ⟨trivial, fun g hg => ?_⟩
  obtain ⟨m, hm, rfl⟩ := List.mem_map.mp hg
  obtain ⟨e, he, rfl⟩ := List.mem_map.mp hm
  exact mem_of_ofPairs hnamed he

omit [Externals] in
theorem makeObject_of_makeRequiring {fields : List (Key × FieldArg)} {required : Value}
    (h : makeRequiring fields required = .ok f) : makeObject fields required = .ok f := by
  unfold makeRequiring at h
  split at h
  · exact h
  · exact (Outcome.bind_eq_ok.mp h).choose_spec.2

theorem readFrom_tagged (htag : Tag.of? entries = some t) (h : ofTagged at_ t entries = .ok f) :
    ReadFrom (.object entries) f := by
  have hparts : documentParts (.object entries) = taggedParts entries t := by
    rw [documentParts, htag]
  cases t with
  | string =>
    rw [ofTagged] at h
    obtain ⟨bounds, -, h⟩ := Outcome.bind_eq_ok.mp h
    obtain ⟨format, -, h⟩ := Outcome.bind_eq_ok.mp h
    obtain ⟨pattern, -, h⟩ := Outcome.bind_eq_ok.mp h
    cases h
    exact readFrom_leaf trivial rfl
  | number =>
    rw [ofTagged] at h
    obtain ⟨bounds, -, h⟩ := Outcome.bind_eq_ok.mp h
    cases h
    exact readFrom_leaf trivial rfl
  | boolean | null | any =>
    rw [ofTagged] at h
    cases h
    exact readFrom_leaf trivial rfl
  | literal =>
    rw [ofTagged] at h
    split at h
    · cases h
    · obtain ⟨v, -, h⟩ := Outcome.bind_eq_ok.mp h
      unfold makeLiteral at h
      split at h <;> cases h
      exact readFrom_leaf trivial rfl
  | array =>
    rw [ofTagged] at h
    split at h
    · cases h
    · next d hd =>
      obtain ⟨element, helement, h⟩ := Outcome.bind_eq_ok.mp h
      obtain ⟨least, most, rfl, hleast⟩ := makeArray_eq_ok h
      refine ⟨fun hcounted => hleast (hcounted htag),
        List.forall_mem_singleton.mpr ⟨d, ?_, _, helement⟩⟩
      rw [hparts]
      exact Option.mem_toList.mpr hd
  | tuple =>
    rw [ofTagged] at h
    split at h
    · cases h
    · next ds hds =>
      obtain ⟨args, hargs, h⟩ := Outcome.bind_eq_ok.mp h
      obtain ⟨fields, rfl, hfields⟩ := ofDocuments_eq_ok hargs
      rw [makeTuple_of] at h
      cases h
      refine ⟨fun _ => trivial, fun g hg => ?_⟩
      obtain ⟨p, hp, q, hread⟩ := hfields g hg
      refine ⟨p, ?_, q, hread⟩
      rw [hparts, taggedParts, listed, hds]
      exact hp
    · cases h
  | object =>
    rw [ofTagged] at h
    split at h
    · cases h
    · next inside hinside =>
      obtain ⟨args, hargs, h⟩ := Outcome.bind_eq_ok.mp h
      obtain ⟨fields, rfl, hfields⟩ := ofEntries_eq_ok hargs
      obtain ⟨hcount, hchildren⟩ := children_of_makeObject (makeObject_of_makeRequiring h)
      refine ⟨fun _ => hcount, fun g hg => ?_⟩
      obtain ⟨e, he, rfl⟩ := hchildren g hg
      obtain ⟨p, hp, q, hread⟩ := hfields e he
      refine ⟨p.2, ?_, q, hread⟩
      rw [hparts, taggedParts]
      simp only [hinside]
      exact List.mem_map_of_mem hp
    · cases h
  | optional =>
    rw [ofTagged] at h
    split at h
    · cases h
    · next d hd =>
      obtain ⟨inner, hinner, h⟩ := Outcome.bind_eq_ok.mp h
      cases h
      refine ⟨fun _ => trivial, List.forall_mem_singleton.mpr ⟨d, ?_, _, hinner⟩⟩
      rw [hparts]
      exact Option.mem_toList.mpr hd
  | defaulted =>
    rw [ofTagged] at h
    split at h
    · cases h
    · next d hd =>
      obtain ⟨inner, hinner, h⟩ := Outcome.bind_eq_ok.mp h
      split at h
      · cases h
      · obtain ⟨v, -, h⟩ := Outcome.bind_eq_ok.mp h
        obtain ⟨-, -, rfl⟩ := makeDefaulted_eq_ok h
        refine ⟨fun _ => trivial, List.forall_mem_singleton.mpr ⟨d, ?_, _, hinner⟩⟩
        rw [hparts]
        exact Option.mem_toList.mpr hd
  | union =>
    rw [ofTagged] at h
    split at h
    · cases h
    · next ds hds =>
      obtain ⟨args, hargs, h⟩ := Outcome.bind_eq_ok.mp h
      obtain ⟨fields, rfl, hfields⟩ := ofDocuments_eq_ok hargs
      obtain ⟨-, -, rfl⟩ := makeUnion_eq_ok h
      refine ⟨fun _ => trivial, fun g hg => ?_⟩
      obtain ⟨p, hp, q, hread⟩ := hfields g hg
      refine ⟨p, ?_, q, hread⟩
      rw [hparts, taggedParts, listed, hds]
      exact hp
    · cases h

/-- Each part of the field that a document describes is described by a part of the document. -/
theorem readFrom_of_ofDocument (h : ofDocument at_ d = .ok f) : ReadFrom d f := by
  unfold ofDocument at h
  split at h
  · exact readFrom_typeName h
  · next items =>
    obtain ⟨args, hargs, h⟩ := Outcome.bind_eq_ok.mp h
    obtain ⟨fields, rfl, hfields⟩ := ofDocuments_eq_ok hargs
    split at h
    · next one hone =>
      obtain ⟨g, rfl, rfl⟩ := List.map_eq_singleton_iff.mp hone
      obtain ⟨least, most, rfl, hleast⟩ := makeArray_eq_ok h
      exact ⟨fun _ => hleast (by simp), hfields⟩
    · rw [makeTuple_of] at h
      cases h
      exact ⟨fun _ => trivial, hfields⟩
  · next entries =>
    split at h
    · next t htag => exact readFrom_tagged htag h
    · next htag =>
      obtain ⟨args, hargs, h⟩ := Outcome.bind_eq_ok.mp h
      obtain ⟨fields, rfl, hfields⟩ := ofEntries_eq_ok hargs
      obtain ⟨hcount, hchildren⟩ := children_of_makeObject h
      refine ⟨fun _ => hcount, fun g hg => ?_⟩
      obtain ⟨e, he, rfl⟩ := hchildren g hg
      obtain ⟨p, hp, q, hread⟩ := hfields e he
      refine ⟨p.2, ?_, q, hread⟩
      rw [documentParts, htag]
      exact List.mem_map_of_mem hp
  · cases h

/-- Where no document of an array leaves out the least count, no array is without one. -/
theorem hasLeastCount_of_counted (hd : EveryDocument Counted d) (h : ofDocument at_ d = .ok f) :
    f.Everywhere HasLeastCount := by
  induction d using documentInduction generalizing f at_ with
  | h d ih =>
    have hread := readFrom_of_ofDocument h
    refine everywhere_of (hread.leastCount hd.here) fun g hg => ?_
    obtain ⟨p, hp, q, hg⟩ := hread.children g hg
    exact ih p hp (hd.part hp) hg

end Field
end Lineage
