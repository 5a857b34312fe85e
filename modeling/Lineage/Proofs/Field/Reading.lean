import Lineage.Proofs.Field.Rebuilding

/-
Fields read from documents.

A document is read by the checked constructors from the leaves up, so what it describes is a
constructed field.  Its attributes come out of JSON values, hence it holds no check of an
author, its patterns are texts, and its literals and bounds are finite.  That a least count is
there is not among this: a document may give `null` for it.
-/

namespace Lineage
namespace Field

/-- A literal is a JSON value. -/
def HasCheckedLiteral : Field → Prop
  | literal s => (Value.scalar s).Checked
  | _ => True

/-- What a document can leave at one field. -/
structure Documented (f : Field) : Prop where
  notCustom : f.NotCustom
  textPattern : f.HasTextPattern
  finite : f.HasFiniteNumbers

theorem Documented.checkedLiteral {f : Field} (h : f.Documented) : f.HasCheckedLiteral := by
  cases f with
  | literal value => exact checked_literal h.finite
  | _ => exact trivial

theorem Documented.realBounds {f : Field} (h : f.Documented) : f.HasRealBounds := by
  cases f with
  | string | number | array =>
    exact ⟨realBound_of_finite h.finite.1, realBound_of_finite h.finite.2⟩
  | _ => exact trivial

variable [Externals]

/-- What reading gives. -/
structure Read (f : Field) : Prop where
  constructed : f.Constructed
  documented : f.Everywhere Documented

variable {f : Field} {at_ : String} {entries : List (Key × Value)}

/-! ## Constructors -/

omit [Externals] in
theorem finiteBound_of_bound? {owner : String} {allowNegative : Bool} {v : Value}
    {bound : Option Number} (hv : v.Checked) (h : bound? owner allowNegative v = .ok bound) :
    FiniteBound bound := by
  rcases bound?_eq_ok h with ⟨-, rfl⟩ | ⟨n, rfl, rfl, -⟩
  · rintro _ ⟨⟩
  · rintro _ ⟨⟩
    exact hv.isFinite

omit [Externals] in
theorem finiteBounds_of_bounds? {owner : String} {allowNegative : Bool} {low high : Value}
    {bounds : Option Number × Option Number} (hlow : low.Checked) (hhigh : high.Checked)
    (h : bounds? owner allowNegative low high = .ok bounds) :
    FiniteBound bounds.1 ∧ FiniteBound bounds.2 := by
  obtain ⟨hl, hh, -⟩ := bounds?_eq_ok h
  exact ⟨finiteBound_of_bound? hlow hl, finiteBound_of_bound? hhigh hh⟩

theorem read_string {low high pattern format : Value} (hlow : low.Checked)
    (hhigh : high.Checked) (hpattern : pattern.Checked)
    (h : makeString low high pattern format = .ok f) : Read f := by
  refine ⟨.string h, ?_⟩
  obtain ⟨bounds, hbounds, h⟩ := Outcome.bind_eq_ok.mp h
  obtain ⟨form, -, h⟩ := Outcome.bind_eq_ok.mp h
  obtain ⟨source, hsource, h⟩ := Outcome.bind_eq_ok.mp h
  cases h
  have hfinite := finiteBounds_of_bounds? hlow hhigh hbounds
  refine everywhere_leaf ⟨trivial, ?_, hfinite⟩ rfl
  rintro p rfl
  unfold pattern? at hsource
  simp only at hsource
  split at hsource
  · cases hsource
  · split at hsource
    · cases hsource
      exact ⟨_, rfl⟩
    all_goals cases hsource
  · -- Octets are no JSON value.
    cases hpattern
  · cases hsource

theorem read_number {low high integerOnly : Value} (hlow : low.Checked) (hhigh : high.Checked)
    (h : makeNumber low high integerOnly = .ok f) : Read f := by
  refine ⟨.number h, ?_⟩
  obtain ⟨bounds, hbounds, h⟩ := Outcome.bind_eq_ok.mp h
  cases h
  have hfinite := finiteBounds_of_bounds? hlow hhigh hbounds
  exact everywhere_leaf ⟨trivial, trivial, hfinite⟩ rfl

theorem read_literal {v : Value} (hv : v.Checked) (h : makeLiteral v = .ok f) : Read f := by
  refine ⟨.literal h, ?_⟩
  unfold makeLiteral at h
  split at h
  · cases h
    refine everywhere_leaf ⟨trivial, trivial, ?_⟩ rfl
    rintro n rfl
    exact hv.isFinite
  all_goals cases h

theorem read_array {element : Field} {low high : Value} (hlow : low.Checked)
    (hhigh : high.Checked) (helement : Read element)
    (h : makeArray (.field element) low high = .ok f) : Read f := by
  refine ⟨.array helement.constructed h, ?_⟩
  unfold makeArray child? at h
  rw [Outcome.ok_bind] at h
  obtain ⟨bounds, hbounds, h⟩ := Outcome.bind_eq_ok.mp h
  cases h
  have hfinite := finiteBounds_of_bounds? hlow hhigh hbounds
  exact everywhere_array ⟨trivial, trivial, hfinite⟩ helement.documented

theorem read_tuple {items : List Field} (hitems : ∀ g ∈ items, Read g)
    (h : makeTuple (items.map .field) = .ok f) : Read f := by
  refine ⟨.tuple (fun g hg => (hitems g hg).constructed) h, ?_⟩
  rw [makeTuple_of] at h
  cases h
  exact everywhere_of ⟨trivial, trivial, trivial⟩ fun g hg => (hitems g hg).documented

theorem read_object {fields : List (Key × Field)} {required : Value}
    (hfields : ∀ e ∈ fields, Read e.2)
    (h : makeObject (fields.map fun e => (e.1, .field e.2)) required = .ok f) : Read f := by
  refine ⟨.object (fun e he => (hfields e he).constructed) h, ?_⟩
  obtain ⟨named, isRequired, hnamed, rfl⟩ := makeObject_eq_ok h
  refine everywhere_object ⟨trivial, trivial, trivial⟩ fun m hm => ?_
  obtain ⟨e, he, rfl⟩ := List.mem_map.mp hm
  obtain ⟨d, hd, heq⟩ := mem_of_ofPairs hnamed he
  exact heq ▸ (hfields d hd).documented

theorem read_requiring {fields : List (Key × Field)} {required : Value}
    (hfields : ∀ e ∈ fields, Read e.2)
    (h : makeRequiring (fields.map fun e => (e.1, .field e.2)) required = .ok f) : Read f := by
  unfold makeRequiring at h
  split at h
  · exact read_object hfields h
  · obtain ⟨_, -, h⟩ := Outcome.bind_eq_ok.mp h
    exact read_object hfields h

theorem read_optional {inner : Field} (hinner : Read inner)
    (h : makeOptional (.field inner) = .ok f) : Read f := by
  refine ⟨.optional hinner.constructed h, ?_⟩
  cases h
  exact everywhere_optional ⟨trivial, trivial, trivial⟩ hinner.documented

theorem read_defaulted {inner : Field} {v : Value} (hinner : Read inner) (hv : v.IsJson)
    (h : makeDefaulted (.field inner) v = .ok f) : Read f := by
  refine ⟨.defaulted hinner.constructed hv.distinct h, ?_⟩
  obtain ⟨-, -, rfl⟩ := makeDefaulted_eq_ok h
  exact everywhere_defaulted ⟨trivial, trivial, trivial⟩ hinner.documented

theorem read_union {variants : List Field} {discriminant : Value}
    (hvariants : ∀ g ∈ variants, Read g)
    (h : makeUnion (variants.map .field) discriminant = .ok f) : Read f := by
  refine ⟨.union (fun g hg => (hvariants g hg).constructed) h, ?_⟩
  obtain ⟨-, -, rfl⟩ := makeUnion_eq_ok h
  exact everywhere_of ⟨trivial, trivial, trivial⟩ fun g hg => (hvariants g hg).documented

theorem read_typeName {name : String} (h : ofTypeName at_ name = .ok f) : Read f := by
  have hstring : ∀ format, Read (.string none none none format) := by
    intro format
    have hcount : CountBounds none none := ⟨nofun, nofun, nofun⟩
    have hpattern : ∀ p, (none : Option PatternSource) = some p → ∃ r, p.compile = .ok r := nofun
    exact read_string Value.checked_null Value.checked_null Value.checked_null
      (makeString_of hcount hpattern)
  unfold ofTypeName at h
  split at h
  · cases h
    exact hstring _
  · split at h
    · cases h
      exact hstring none
    · cases h
      exact read_number Value.checked_null Value.checked_null
        (show makeNumber .null .null (.bool false) = _ from rfl)
    · cases h
      exact ⟨.boolean, everywhere_leaf ⟨trivial, trivial, trivial⟩ rfl⟩
    · cases h
      exact ⟨.null, everywhere_leaf ⟨trivial, trivial, trivial⟩ rfl⟩
    · cases h
      exact ⟨.any, everywhere_leaf ⟨trivial, trivial, trivial⟩ rfl⟩
    · cases h

/-! ## Lists of documents -/

theorem ofDocuments_eq_ok {place : Nat → String} {index : Nat} {ds : List Value}
    {args : List FieldArg} (h : ofDocuments place index ds = .ok args) :
    ∃ fields : List Field, args = fields.map .field ∧
      ∀ g ∈ fields, ∃ d ∈ ds, ∃ q, ofDocument q d = .ok g := by
  induction ds generalizing index args with
  | nil =>
    rw [ofDocuments] at h
    cases h
    exact ⟨[], rfl, List.forall_mem_nil _⟩
  | cons d rest ih =>
    rw [ofDocuments] at h
    obtain ⟨g, hg, h⟩ := Outcome.bind_eq_ok.mp h
    obtain ⟨later, hlater, h⟩ := Outcome.bind_eq_ok.mp h
    cases h
    obtain ⟨fields, rfl, hfields⟩ := ih hlater
    refine ⟨g :: fields, rfl, List.forall_mem_cons.mpr ⟨⟨d, List.mem_cons_self, _, hg⟩, ?_⟩⟩
    intro k hk
    obtain ⟨e, he, hread⟩ := hfields k hk
    exact ⟨e, List.mem_cons_of_mem _ he, hread⟩

theorem ofEntries_eq_ok {args : List (Key × FieldArg)} (h : ofEntries at_ entries = .ok args) :
    ∃ fields : List (Key × Field), args = fields.map (fun e => (e.1, .field e.2)) ∧
      ∀ g ∈ fields, ∃ d ∈ entries, ∃ q, ofDocument q d.2 = .ok g.2 := by
  induction entries generalizing args with
  | nil =>
    rw [ofEntries] at h
    cases h
    exact ⟨[], rfl, List.forall_mem_nil _⟩
  | cons e rest ih =>
    obtain ⟨key, d⟩ := e
    rw [ofEntries] at h
    obtain ⟨g, hg, h⟩ := Outcome.bind_eq_ok.mp h
    obtain ⟨later, hlater, h⟩ := Outcome.bind_eq_ok.mp h
    cases h
    obtain ⟨fields, rfl, hfields⟩ := ih hlater
    refine ⟨(key, g) :: fields, rfl,
      List.forall_mem_cons.mpr ⟨⟨(key, d), List.mem_cons_self, _, hg⟩, ?_⟩⟩
    intro k hk
    obtain ⟨c, hc, hread⟩ := hfields k hk
    exact ⟨c, List.mem_cons_of_mem _ hc, hread⟩

/-! ## Whole documents -/

omit [Externals] in
theorem isJson_find? {name : String} {v : Value} (h : (Value.object entries).IsJson)
    (hv : Entries.find? (.text name) entries = some v) : v.IsJson :=
  ((Value.isJson_object.mp h).2 _ (Entries.mem_of_find?_text hv)).2

omit [Externals] in
theorem checked_optionOr {name : String} {otherwise : Value} (h : (Value.object entries).IsJson)
    (hotherwise : otherwise.Checked) : (optionOr entries name otherwise).Checked := by
  unfold optionOr
  cases hfind : Entries.find? (.text name) entries with
  | none => exact hotherwise
  | some v => exact (isJson_find? h hfind).checked

omit [Externals] in
theorem jsonOption_eq_ok {v w : Value} (h : jsonOption at_ v = .ok w) : w = v := by
  unfold jsonOption at h
  split at h
  · exact (Except.ok.inj h).symm
  · cases h

/-- What the documents inside a document with a tag give, the document gives. -/
theorem read_tagged {t : Tag} (hentries : (Value.object entries).IsJson)
    (ih : ∀ d, sizeOf d < sizeOf entries → d.IsJson → ∀ q g, ofDocument q d = .ok g → Read g)
    (h : ofTagged at_ t entries = .ok f) : Read f := by
  have hitem : ∀ {ds : List Value}, sizeOf (Value.array ds) < sizeOf entries →
      (Value.array ds).IsJson → ∀ d ∈ ds, ∀ q g, ofDocument q d = .ok g → Read g := by
    intro ds hsize hds d hd
    have hlt := List.sizeOf_lt_of_mem hd
    simp only [Value.array.sizeOf_spec] at hsize
    exact ih d (by omega) (Value.isJson_array.mp hds d hd)
  cases t with
  | string =>
    rw [ofTagged] at h
    exact read_string (checked_optionOr hentries Value.checked_null)
      (checked_optionOr hentries Value.checked_null)
      (checked_optionOr hentries Value.checked_null) h
  | number =>
    rw [ofTagged] at h
    exact read_number (checked_optionOr hentries Value.checked_null)
      (checked_optionOr hentries Value.checked_null) h
  | boolean =>
    rw [ofTagged] at h
    cases h
    exact ⟨.boolean, everywhere_leaf ⟨trivial, trivial, trivial⟩ rfl⟩
  | null =>
    rw [ofTagged] at h
    cases h
    exact ⟨.null, everywhere_leaf ⟨trivial, trivial, trivial⟩ rfl⟩
  | any =>
    rw [ofTagged] at h
    cases h
    exact ⟨.any, everywhere_leaf ⟨trivial, trivial, trivial⟩ rfl⟩
  | literal =>
    rw [ofTagged] at h
    split at h
    · cases h
    · next v hv =>
      obtain ⟨w, hw, h⟩ := Outcome.bind_eq_ok.mp h
      rw [jsonOption_eq_ok hw] at h
      exact read_literal (isJson_find? hentries hv).checked h
  | array =>
    rw [ofTagged] at h
    split at h
    · cases h
    · next d hd =>
      obtain ⟨element, helement, h⟩ := Outcome.bind_eq_ok.mp h
      exact read_array (checked_optionOr hentries (show (Value.int 0).Checked from rfl))
        (checked_optionOr hentries Value.checked_null)
        (ih d (sizeOf_entry_lt hd) (isJson_find? hentries hd) _ _ helement) h
  | tuple =>
    rw [ofTagged] at h
    split at h
    · cases h
    · next ds hds =>
      obtain ⟨args, hargs, h⟩ := Outcome.bind_eq_ok.mp h
      obtain ⟨fields, rfl, hfields⟩ := ofDocuments_eq_ok hargs
      refine read_tuple (fun g hg => ?_) h
      obtain ⟨d, hd, q, hread⟩ := hfields g hg
      exact hitem (sizeOf_entry_lt hds) (isJson_find? hentries hds) d hd q g hread
    · cases h
  | object =>
    rw [ofTagged] at h
    split at h
    · cases h
    · next inside hinside =>
      obtain ⟨args, hargs, h⟩ := Outcome.bind_eq_ok.mp h
      obtain ⟨fields, rfl, hfields⟩ := ofEntries_eq_ok hargs
      have hjson := (Value.isJson_object.mp (isJson_find? hentries hinside)).2
      have hsize := sizeOf_entry_lt hinside
      refine read_requiring (fun g hg => ?_) h
      obtain ⟨d, hd, q, hread⟩ := hfields g hg
      have hlt := Entries.sizeOf_value_lt hd
      simp only [Value.object.sizeOf_spec] at hsize
      exact ih d.2 (by omega) (hjson d hd).2 q _ hread
    · cases h
  | optional =>
    rw [ofTagged] at h
    split at h
    · cases h
    · next d hd =>
      obtain ⟨inner, hinner, h⟩ := Outcome.bind_eq_ok.mp h
      exact read_optional (ih d (sizeOf_entry_lt hd) (isJson_find? hentries hd) _ _ hinner) h
  | defaulted =>
    rw [ofTagged] at h
    split at h
    · cases h
    · next d hd =>
      obtain ⟨inner, hinner, h⟩ := Outcome.bind_eq_ok.mp h
      split at h
      · cases h
      · next v hv =>
        obtain ⟨w, hw, h⟩ := Outcome.bind_eq_ok.mp h
        rw [jsonOption_eq_ok hw] at h
        exact read_defaulted (ih d (sizeOf_entry_lt hd) (isJson_find? hentries hd) _ _ hinner)
          (isJson_find? hentries hv) h
  | union =>
    rw [ofTagged] at h
    split at h
    · cases h
    · next ds hds =>
      obtain ⟨args, hargs, h⟩ := Outcome.bind_eq_ok.mp h
      obtain ⟨fields, rfl, hfields⟩ := ofDocuments_eq_ok hargs
      refine read_union (fun g hg => ?_) h
      obtain ⟨d, hd, q, hread⟩ := hfields g hg
      exact hitem (sizeOf_entry_lt hds) (isJson_find? hentries hds) d hd q g hread
    · cases h

/-- The field that a JSON document describes is constructed, without checks of an author. -/
theorem read_document {at_ : String} {d : Value} {f : Field} (hd : d.IsJson)
    (h : ofDocument at_ d = .ok f) : Read f := by
  match d, hd, h with
  | .text name, _, h =>
    rw [ofDocument] at h
    exact read_typeName h
  | .null, _, h | .scalar (.bool _), _, h | .scalar (.number _), _, h =>
    simp only [ofDocument] at h
    cases h
  | .array ds, hd, h =>
    rw [ofDocument] at h
    obtain ⟨args, hargs, h⟩ := Outcome.bind_eq_ok.mp h
    obtain ⟨fields, rfl, hfields⟩ := ofDocuments_eq_ok hargs
    have hread : ∀ g ∈ fields, Read g := by
      intro g hg
      obtain ⟨e, he, q, hread⟩ := hfields g hg
      have := List.sizeOf_lt_of_mem he
      exact read_document (Value.isJson_array.mp hd e he) hread
    split at h
    · next one hone =>
      obtain ⟨g, rfl, rfl⟩ := List.map_eq_singleton_iff.mp hone
      exact read_array (show (Value.int 0).Checked from rfl) Value.checked_null
        (hread g List.mem_cons_self) h
    · exact read_tuple hread h
  | .object entries, hd, h =>
    rw [ofDocument] at h
    split at h
    · exact read_tagged hd (fun e hlt he q g hread => read_document he hread) h
    · obtain ⟨args, hargs, h⟩ := Outcome.bind_eq_ok.mp h
      obtain ⟨fields, rfl, hfields⟩ := ofEntries_eq_ok hargs
      refine read_object (fun g hg => ?_) h
      obtain ⟨e, he, q, hread⟩ := hfields g hg
      have := Entries.sizeOf_value_lt he
      exact read_document ((Value.isJson_object.mp hd).2 e he).2 hread
  | .tuple _, hd, _ | .set _, hd, _ | .bytes _, hd, _ | .thing, hd, _ | .missing, hd, _ =>
    cases hd.checked
termination_by sizeOf d
decreasing_by
  all_goals
    simp only [Value.array.sizeOf_spec, Value.object.sizeOf_spec]
    omega

end Field
end Lineage
