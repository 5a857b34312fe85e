import Lineage.Format.Email
import Lineage.Proofs.Field.Comparison
import Lineage.Proofs.Field.Difference
import Lineage.Proofs.Field.Reading

/-
Reading, writing and reading again.

Whatever a JSON document describes can be written as a JSON document, and that is read back.
The two fields accept the same values and give the same mismatches.  They differ only where
the first document gave something else than a truth value as the flag for whole numbers, of
which writing keeps the truth; so a second round changes nothing any more.
-/

namespace Lineage
namespace Field

/-! ## JSON documents -/

/-- Entries with some of a list of names as their keys, in the order of the list. -/
def KeysIn (names : List String) (entries : List (Key × Value)) : Prop :=
  (entries.map Prod.fst).Sublist (names.map Key.text)

variable {names names' : List String} {entries entries' : List (Key × Value)} {t : Tag}
variable {d : Value} {f : Field}

theorem KeysIn.append (h : KeysIn names entries) (h' : KeysIn names' entries') :
    KeysIn (names ++ names') (entries ++ entries') := by
  unfold KeysIn
  rw [List.map_append, List.map_append]
  exact List.Sublist.append h h'

theorem keysIn_entry (name : String) (v : Value) : KeysIn [name] [entry name v] :=
  List.Sublist.refl _

theorem keysIn_part {α : Type} (name : String) (part : Option α) (g : α → Value) :
    KeysIn [name] (part.toList.map fun a => entry name (g a)) := by
  cases part with
  | none => exact List.nil_sublist _
  | some a => exact List.Sublist.refl _

theorem KeysIn.text (h : KeysIn names entries) {e : Key × Value} (he : e ∈ entries) :
    ∃ name ∈ names, e.1 = .text name := by
  obtain ⟨name, hname, heq⟩ := List.mem_map.mp (h.subset (List.mem_map_of_mem he))
  exact ⟨name, hname, heq.symm⟩

theorem KeysIn.distinct (h : KeysIn names entries) (hnames : names.Nodup) :
    Entries.Distinct entries := by
  have hkeys : (names.map Key.text).Nodup :=
    List.pairwise_map.mpr (hnames.imp fun hne heq => hne (by simpa using heq))
  have hnodup : (entries.map Prod.fst).Nodup := List.Sublist.nodup h hkeys
  refine (List.pairwise_map.mp hnodup).imp_of_mem fun {a b} _ hb hne => ?_
  obtain ⟨name, -, hname⟩ := h.text hb
  rw [hname] at hne ⊢
  exact Bool.eq_false_iff.mpr fun hsame => hne (Key.same_text_iff.mp hsame)

theorem isJson_object_of (h : KeysIn names entries) (hnames : names.Nodup)
    (hvalues : ∀ e ∈ entries, e.2.IsJson) : (Value.object entries).IsJson :=
  Value.isJson_object.mpr ⟨h.distinct hnames, fun e he =>
    let ⟨name, _, hname⟩ := h.text he
    ⟨⟨name, hname⟩, hvalues e he⟩⟩

theorem isJson_text (s : String) : (Value.text s).IsJson := Value.isJson_scalar rfl

/-- A document with a tag is a JSON value if its options are. -/
theorem isJson_tagged {options : List (Key × Value)} (h : KeysIn t.options options)
    (hvalues : ∀ e ∈ options, e.2.IsJson) : (tagged t options).IsJson := by
  have hnames : ("$" :: t.options).Nodup := by cases t <;> decide
  exact isJson_object_of (KeysIn.append (keysIn_entry "$" (.text t.name)) h) hnames
    (List.forall_mem_cons.mpr ⟨isJson_text t.name, hvalues⟩)

theorem isJson_scalarDocument {options : List (Key × Value)} (h : KeysIn t.options options)
    (hvalues : ∀ e ∈ options, e.2.IsJson) : (scalarDocument t options).IsJson := by
  unfold scalarDocument
  split
  · exact isJson_text t.name
  · exact isJson_tagged h hvalues

theorem isJson_partEntry {α : Type} {name : String} {part : Option α} {g : α → Value}
    (h : ∀ a, part = some a → (g a).IsJson) :
    ∀ e ∈ part.toList.map (fun a => entry name (g a)), e.2.IsJson := by
  intro e he
  obtain ⟨a, ha, rfl⟩ := List.mem_map.mp he
  exact h a (Option.mem_toList.mp ha)

theorem isJson_boundEntry {bound : Option Number} (h : FiniteBound bound) (name : String) :
    ∀ e ∈ boundEntry name bound, e.2.IsJson :=
  isJson_partEntry fun n hn => Value.isJson_scalar (Value.checked_number (h n hn))

theorem isJson_boundValue {bound : Option Number} (h : FiniteBound bound) :
    (boundValue bound).IsJson := by
  cases bound with
  | none => exact Value.isJson_scalar rfl
  | some n => exact Value.isJson_scalar (Value.checked_number (h n rfl))

theorem isJson_stringDocument {low high : Option Number} {pattern : Option PatternSource}
    {format : Option Format} (hlow : FiniteBound low) (hhigh : FiniteBound high)
    (hpattern : ∀ p, pattern = some p → ∃ s, p = .text s) :
    (stringDocument low high pattern format).IsJson := by
  unfold stringDocument
  split
  · exact isJson_text _
  · have hbounds : ∀ e ∈ boundEntry "min_len" low ++ boundEntry "max_len" high, e.2.IsJson :=
      List.forall_mem_append.mpr ⟨isJson_boundEntry hlow _, isJson_boundEntry hhigh _⟩
    refine isJson_scalarDocument (((keysIn_part "min_len" low _).append
      (keysIn_part "max_len" high _)).append (keysIn_part "pattern" pattern _) |>.append
      (keysIn_part "format" format _)) ?_
    refine List.forall_mem_append.mpr ⟨List.forall_mem_append.mpr ⟨hbounds, ?_⟩,
      isJson_partEntry fun f _ => isJson_text f.name⟩
    refine isJson_partEntry fun p hp => ?_
    obtain ⟨s, rfl⟩ := hpattern p hp
    exact isJson_text s

theorem isJson_numberDocument {low high : Option Number} (hlow : FiniteBound low)
    (hhigh : FiniteBound high) (integral : Bool) : (numberDocument low high integral).IsJson := by
  have hbounds : ∀ e ∈ boundEntry "min" low ++ boundEntry "max" high, e.2.IsJson :=
    List.forall_mem_append.mpr ⟨isJson_boundEntry hlow _, isJson_boundEntry hhigh _⟩
  have hkeys := (keysIn_part "min" low Value.number).append (keysIn_part "max" high Value.number)
  cases integral with
  | false =>
    exact isJson_scalarDocument (hkeys.append (List.nil_sublist [Key.text "integer_only"]))
      (List.forall_mem_append.mpr ⟨hbounds, List.forall_mem_nil _⟩)
  | true =>
    exact isJson_scalarDocument (hkeys.append (keysIn_entry "integer_only" (.bool true)))
      (List.forall_mem_append.mpr
        ⟨hbounds, List.forall_mem_singleton.mpr (Value.isJson_scalar rfl)⟩)

theorem isJson_arrayDocument {low high : Option Number} (hd : d.IsJson) (hlow : FiniteBound low)
    (hhigh : FiniteBound high) : (arrayDocument d low high).IsJson := by
  unfold arrayDocument
  split
  · exact Value.isJson_array.mpr (List.forall_mem_singleton.mpr hd)
  · refine isJson_tagged (((keysIn_entry "element" d).append
      (keysIn_entry "min_items" (boundValue low))).append (keysIn_part "max_items" high _)) ?_
    exact List.forall_mem_append.mpr ⟨List.forall_mem_cons.mpr ⟨hd,
      List.forall_mem_singleton.mpr (isJson_boundValue hlow)⟩, isJson_boundEntry hhigh _⟩

theorem isJson_tupleDocument {ds : List Value} (h : ∀ d ∈ ds, d.IsJson) :
    (tupleDocument ds).IsJson := by
  have hds : (Value.array ds).IsJson := Value.isJson_array.mpr h
  unfold tupleDocument
  split
  · exact isJson_tagged (keysIn_entry "items" _) (List.forall_mem_singleton.mpr hds)
  · exact hds

theorem isJson_objectDocument {members : List (Member Field)} {ds : List (Key × Value)}
    (hds : (Value.object ds).IsJson) : (objectDocument members ds).IsJson := by
  unfold objectDocument
  split
  · refine isJson_tagged ((keysIn_entry "fields" _).append (keysIn_entry "required" _)) ?_
    refine List.forall_mem_cons.mpr ⟨hds, List.forall_mem_singleton.mpr
      (Value.isJson_array.mpr fun v hv => ?_)⟩
    obtain ⟨name, -, rfl⟩ := List.mem_map.mp hv
    exact isJson_text name
  · exact hds

theorem isJson_toDocuments {fields : List Field} {ds : List Value}
    (hfields : ∀ f ∈ fields, ∀ d, f.toDocument = .ok d → d.IsJson)
    (h : toDocuments fields = .ok ds) : ∀ d ∈ ds, d.IsJson := by
  induction fields generalizing ds with
  | nil =>
    cases h
    exact List.forall_mem_nil _
  | cons f rest ih =>
    obtain ⟨hf, hrest⟩ := List.forall_mem_cons.mp hfields
    obtain ⟨d, hd, h⟩ := Outcome.bind_eq_ok.mp h
    obtain ⟨later, hlater, h⟩ := Outcome.bind_eq_ok.mp h
    cases h
    exact List.forall_mem_cons.mpr ⟨hf d hd, ih hrest hlater⟩

theorem isJson_memberDocuments {members : List (Member Field)} {ds : List (Key × Value)}
    (hmembers : ∀ m ∈ members, ∀ d, m.field.toDocument = .ok d → d.IsJson)
    (h : memberDocuments members = .ok ds) :
    KeysIn (Member.names members) ds ∧ ∀ e ∈ ds, e.2.IsJson := by
  induction members generalizing ds with
  | nil =>
    cases h
    exact ⟨List.Sublist.refl _, List.forall_mem_nil _⟩
  | cons m rest ih =>
    obtain ⟨hm, hrest⟩ := List.forall_mem_cons.mp hmembers
    obtain ⟨name, required, f⟩ := m
    obtain ⟨d, hd, h⟩ := Outcome.bind_eq_ok.mp h
    obtain ⟨later, hlater, h⟩ := Outcome.bind_eq_ok.mp h
    cases h
    obtain ⟨hkeys, hvalues⟩ := ih hrest hlater
    exact ⟨KeysIn.append (keysIn_entry name d) hkeys,
      List.forall_mem_cons.mpr ⟨hm d hd, hvalues⟩⟩

section

variable [Externals]

/-- What is written is a JSON value. -/
theorem isJson_toDocument (hf : f.Everywhere Writable) (hpattern : f.Everywhere HasTextPattern)
    (h : f.toDocument = .ok d) : d.IsJson := by
  induction f generalizing d with
  | string low high pattern format =>
    cases h
    exact isJson_stringDocument hf.here.finite.1 hf.here.finite.2 hpattern.here
  | number low high integerOnly =>
    cases h
    exact isJson_numberDocument hf.here.finite.1 hf.here.finite.2 _
  | boolean | null | any =>
    cases h
    exact isJson_text _
  | literal value =>
    cases h
    exact isJson_tagged (keysIn_entry "value" _) (List.forall_mem_singleton.mpr
      (Value.isJson_scalar (checked_literal hf.here.finite)))
  | array element low high ih =>
    obtain ⟨e, he, h⟩ := Outcome.bind_eq_ok.mp h
    cases h
    exact isJson_arrayDocument (ih hf.arrayElement hpattern.arrayElement he) hf.here.finite.1
      hf.here.finite.2
  | tuple fields ih =>
    obtain ⟨ds, hds, h⟩ := Outcome.bind_eq_ok.mp h
    cases h
    exact isJson_tupleDocument (isJson_toDocuments (fun f hmem d hd =>
      ih f hmem (hf.tupleItem hmem) (hpattern.tupleItem hmem) hd) hds)
  | object members ih =>
    obtain ⟨ds, hds, h⟩ := Outcome.bind_eq_ok.mp h
    cases h
    obtain ⟨hkeys, hvalues⟩ := isJson_memberDocuments (fun m hm d hd =>
      ih m hm (hf.objectMember hm) (hpattern.objectMember hm) hd) hds
    exact isJson_objectDocument (isJson_object_of hkeys hf.here.sound hvalues)
  | optional inner ih =>
    obtain ⟨e, he, h⟩ := Outcome.bind_eq_ok.mp h
    cases h
    exact isJson_tagged (keysIn_entry "type" e)
      (List.forall_mem_singleton.mpr (ih hf.optionalInner hpattern.optionalInner he))
  | defaulted inner value ih =>
    obtain ⟨e, he, h⟩ := Outcome.bind_eq_ok.mp h
    cases h
    exact isJson_tagged ((keysIn_entry "type" e).append (keysIn_entry "default" value))
      (List.forall_mem_cons.mpr ⟨ih hf.defaultedInner hpattern.defaultedInner he,
        List.forall_mem_singleton.mpr hf.here.sound.1⟩)
  | union variants discriminant ih =>
    obtain ⟨ds, hds, h⟩ := Outcome.bind_eq_ok.mp h
    cases h
    have hvariants := isJson_toDocuments (fun f hmem d hd =>
      ih f hmem (hf.unionVariant hmem) (hpattern.unionVariant hmem) hd) hds
    exact isJson_tagged
      ((keysIn_entry "variants" (.array ds)).append (keysIn_part "discriminant" discriminant _))
      (List.forall_mem_cons.mpr ⟨Value.isJson_array.mpr hvariants,
        isJson_partEntry fun key _ => isJson_text key⟩)
  | custom check name => exact hf.here.notCustom.elim

/-! ## Flags -/

section

omit [Externals]

theorem children_readBack (f : Field) : f.readBack.children = f.children.map readBack := by
  cases f with
  | tuple fields => exact readBackAll_eq fields
  | union variants discriminant => exact readBackAll_eq variants
  | object members =>
    show (readBackMembers members).map Member.field = (members.map Member.field).map readBack
    rw [readBackMembers_eq, List.map_map, List.map_map]
    rfl
  | _ => rfl

/-- What is read back has truth values as its flags. -/
theorem hasTruthFlag_readBack (f : Field) : f.readBack.Everywhere HasTruthFlag := by
  induction f using childInduction with
  | h f ih =>
    refine everywhere_of ?_ fun g hg => ?_
    · cases f with
      | number low high integerOnly => exact ⟨integerOnly.truthy, rfl⟩
      | _ => exact trivial
    · rw [children_readBack] at hg
      obtain ⟨a, ha, rfl⟩ := List.mem_map.mp hg
      exact ih a ha

theorem eq_bool_of_isTruth {v : Value} (h : isTruth v = true) : ∃ b, v = .bool b := by
  unfold isTruth at h
  split at h
  · next b => exact ⟨b, rfl⟩
  · cases h

theorem matches_of_forall₂ {fields : List Field}
    (h : List.Forall₂ Matches fields (readBackAll fields)) :
    ∀ g ∈ fields, Matches g g.readBack := by
  rw [readBackAll_eq, List.forall₂_map_right_iff] at h
  exact List.forall₂_same.mp h

end

/-- A field that matches what is read back for it does so at this level, with a truth value
as its flag, and so do its children. -/
theorem parts_of_matches_readBack (hsound : f.SoundHere) (h : Matches f f.readBack) :
    f.HasTruthFlag ∧ ∀ g ∈ f.children, Matches g g.readBack := by
  have hlevel := matches_iff.mp h
  cases f with
  | string | boolean | null | any | literal | custom => exact ⟨trivial, List.forall_mem_nil _⟩
  | number low high integerOnly =>
    cases hlevel with
    | number _ _ hflag => exact ⟨eq_bool_of_isTruth hflag.2, List.forall_mem_nil _⟩
  | array element low high =>
    cases hlevel with
    | array _ _ h => exact ⟨trivial, List.forall_mem_singleton.mpr h⟩
  | tuple fields =>
    cases hlevel with
    | tuple h => exact ⟨trivial, matches_of_forall₂ h⟩
  | object members =>
    cases hlevel with
    | object hmembers _ =>
      refine ⟨trivial, List.forall_mem_map.mpr fun m hm => ?_⟩
      obtain ⟨n, hn, -, hmatch⟩ := hmembers m hm
      rw [readBackMembers_eq, Member.find?_map, Member.find?_of_mem hsound hm] at hn
      cases hn
      exact hmatch
  | optional inner =>
    cases hlevel with
    | optional h => exact ⟨trivial, List.forall_mem_singleton.mpr h⟩
  | defaulted inner value =>
    cases hlevel with
    | defaulted _ h => exact ⟨trivial, List.forall_mem_singleton.mpr h⟩
  | union variants key =>
    cases hlevel with
    | union _ h => exact ⟨trivial, matches_of_forall₂ h⟩

theorem hasTruthFlag_of_matches (hf : f.Sound) (h : Matches f f.readBack) :
    f.Everywhere HasTruthFlag := by
  induction f using childInduction with
  | h f ih =>
    obtain ⟨hflag, hchildren⟩ := parts_of_matches_readBack hf.here h
    exact everywhere_of hflag fun g hg => ih g hg (hf.child hg) (hchildren g hg)

/-- The comparison finds nothing between a field and what is read back for it exactly when
its flags are truth values. -/
theorem compareAt_readBack_iff (hf : f.Everywhere Writable) (path : Path) :
    compareAt path f f.readBack = [] ↔ f.Everywhere HasTruthFlag := by
  constructor
  · intro h
    exact hasTruthFlag_of_matches (hf.imp fun _ => Writable.sound) ⟨path, h⟩
  · intro hflag
    refine compareAt_readBack (fun g hg => ?_) path
    have hg' := hf g hg
    exact ⟨hg'.notCustom, hg'.sound, hg'.finite, hflag g hg⟩

/-! ## Rounds -/

theorem Read.writable (hf : f.Read) : f.Everywhere Writable := fun g hg =>
  have hg' := hf.documented g hg
  ⟨hg'.notCustom, hf.constructed.sound g hg, hg'.finite⟩

/-- The field that a JSON document describes is written as a JSON document, and that is read
back as a field with truth values as its flags, which gives the same mismatches for every
value.  The comparison finds nothing between the two exactly where the first one has such
flags, too, and then they are equal. -/
theorem written_and_read_again {at_ : String} {d : Value} {f : Field} (hd : d.IsJson)
    (h : ofDocument at_ d = .ok f) :
    ∃ d' g, f.toDocument = .ok d' ∧ d'.IsJson ∧ (∀ q, ofDocument q d' = .ok g) ∧
      (∀ path, compareAt path f g = [] ↔ f.Everywhere HasTruthFlag) ∧
      (f.Everywhere HasTruthFlag → f.same g = true) ∧ g.Everywhere HasTruthFlag ∧
      ∀ (o : Validation.Options) (path : Path) (v : Value),
        g.validate o path v = f.validate o path v := by
  have hread := read_document hd h
  have hwritable := hread.writable
  obtain ⟨d', hwritten, hback⟩ := reads_of_writable hwritable
  have hjson : d'.IsJson := isJson_toDocument hwritable
    (hread.documented.imp fun _ => Documented.textPattern) hwritten
  refine ⟨d', f.readBack, hwritten, hjson, hback, compareAt_readBack_iff hwritable, ?_,
    hasTruthFlag_readBack f, fun o path v => validate_readBack o f path v⟩
  intro hflag
  have hmatch : Matches f f.readBack := ⟨.root, (compareAt_readBack_iff hwritable .root).mpr hflag⟩
  have hagain : f.readBack.Sound := (read_document hjson (hback "$")).constructed.sound
  exact hmatch.sameBy (fun _ _ hsame => hsame) hread.constructed.sound hagain

/-- The document of a number, with what it gives as the flag for whole numbers. -/
def flagged (flag : Value) : Value := tagged .number [entry "integer_only" flag]

omit [Externals] in
theorem isJson_flagged {flag : Value} (h : flag.IsJson) : (flagged flag).IsJson :=
  isJson_tagged (@KeysIn.append ["min", "max"] ["integer_only"] [] [entry "integer_only" flag]
    (List.nil_sublist _) (keysIn_entry "integer_only" flag)) (List.forall_mem_singleton.mpr h)

end

/-- A number that has to be whole. -/
theorem written_and_read_again_whole :
    let d := flagged (.bool true)
    let f : Field := .number none none (.bool true)
    d.IsJson ∧ ofDocument "$" d = .ok f ∧
      ∃ d' g, f.toDocument = .ok d' ∧ d'.IsJson ∧ (∀ q, ofDocument q d' = .ok g) ∧
        (∀ path, compareAt path f g = [] ↔ f.Everywhere HasTruthFlag) ∧
        (f.Everywhere HasTruthFlag → f.same g = true) ∧ g.Everywhere HasTruthFlag ∧
        ∀ (o : Validation.Options) (path : Path) (v : Value),
          g.validate o path v = f.validate o path v := by
  intro d f
  have hd : d.IsJson := isJson_flagged (Value.isJson_scalar rfl)
  have hread : ofDocument "$" d = .ok f := by cbv
  exact ⟨hd, hread, written_and_read_again hd hread⟩

/-- A text as the flag is read, written as a truth value, and read back as that: the
comparison finds a difference, and the two fields are not equal. -/
theorem written_and_read_again_text :
    let d := flagged (.text "yes")
    let f : Field := .number none none (.text "yes")
    let g : Field := .number none none (.bool true)
    d.IsJson ∧ ofDocument "$" d = .ok f ∧ f.toDocument = .ok (flagged (.bool true)) ∧
      ofDocument "$" (flagged (.bool true)) = .ok g ∧ f.same g = false ∧
      compareAt .root f g = difference .root "integer_only differs" "yes" "True" := by
  refine ⟨isJson_flagged (isJson_text "yes"), ?_, ?_, ?_, ?_, ?_⟩
  all_goals cbv

end Field
end Lineage
