import Lineage.Step.Application
import Lineage.Step.Construction
import Lineage.Proofs.Change.Progress
import Lineage.Proofs.Step.Fields
import Lineage.Proofs.Step.Values

/-
Well-typed steps convert what fits.

A step is well typed at a field when its author function, if it has one, gives for what
that field accepts something that the declared field accepts.  Where such a step changes
the field at the end of its path, it changes every value that fits that field into a
value that fits the new one.
-/

namespace Lineage

namespace Field

/-- The member of an object field under a name. -/
def memberNamed (f : Field) (name : Value) : Option (Member Field) :=
  match f.unwrapped, name with
  | .object members, .text name => Member.find? name members
  | _, _ => none

def KeepsAbsence (f g : Field) : Prop := f.acceptsAbsence = true → g.acceptsAbsence = true

end Field

namespace Step

open Lineage.Field

/-! ## Well-typed steps -/

variable [Externals]

/-- Steps that are built by checked construction. -/
inductive Made : Step → Prop
  | add {path name value : Value} {field : FieldArg} {s : Step}
      (h : makeAdd path name field value = .ok s) : Made s
  | remove {path name : Value} {s : Step} (h : makeRemove path name = .ok s) : Made s
  | rename {path old new : Value} {s : Step} (h : makeRename path old new = .ok s) : Made s
  | copy {path name new : Value} {s : Step} (h : makeCopy path name new = .ok s) : Made s
  | retype {path : Value} {field : FieldArg} {converter : Option AuthorFn} {s : Step}
      (h : makeRetype path field converter = .ok s) : Made s
  | restructure {path : Value} {transform : Option AuthorFn} {field : FieldArg} {s : Step}
      (h : makeRestructure path transform field = .ok s) : Made s
  | split {path name : Value} {targets : List (Key × FieldArg)} {splitter : Option AuthorFn}
      {s : Step} (h : makeSplit path name targets splitter = .ok s) : Made s
  | merge {path names target : Value} {field : FieldArg} {merger : Option AuthorFn} {s : Step}
      (h : makeMerge path names target field merger = .ok s) : Made s

/-- The fields that a step declares. -/
def declared : Step → List Field
  | add _ _ field _ | retype _ field _ | restructure _ _ field | merge _ _ _ field _ => [field]
  | split _ _ targets _ => targets.map Prod.snd
  | remove _ _ | rename _ _ _ | copy _ _ _ => []

/-- A value that a step adds is a JSON value. -/
def AddsJson : Step → Prop
  | add _ _ _ value => value.IsJson
  | _ => True

/-- What is asked of a step wherever it is applied. -/
structure WellMade (s : Step) : Prop where
  made : s.Made
  declared : ∀ f ∈ s.declared, f.Admissible
  addsJson : s.AddsJson

/-- The value that a checked step adds conforms to the field it declares. -/
theorem Made.conforms {path : Path} {name value : Value} {field : Field}
    (h : Made (.add path name field value)) : field.check {} value = .ok [] := by
  cases h with
  | add h =>
    obtain ⟨place, -, h⟩ := Outcome.bind_eq_ok.mp h
    obtain ⟨field', -, h⟩ := Outcome.bind_eq_ok.mp h
    obtain ⟨value', -, h⟩ := Outcome.bind_eq_ok.mp h
    obtain ⟨violations, hcheck, h⟩ := Outcome.bind_eq_ok.mp h
    split at h
    · cases h
      exact hcheck
    · cases h
  | remove h | rename h | copy h =>
    obtain ⟨place, -, h⟩ := Outcome.bind_eq_ok.mp h
    cases h
  | retype h | restructure h =>
    obtain ⟨place, -, h⟩ := Outcome.bind_eq_ok.mp h
    obtain ⟨field', -, h⟩ := Outcome.bind_eq_ok.mp h
    obtain ⟨fn, -, h⟩ := Outcome.bind_eq_ok.mp h
    cases h
  | split h =>
    obtain ⟨place, -, h⟩ := Outcome.bind_eq_ok.mp h
    split at h
    · cases h
    · cases h
    · obtain ⟨fn, -, h⟩ := Outcome.bind_eq_ok.mp h
      cases h
  | merge h =>
    obtain ⟨place, -, h⟩ := Outcome.bind_eq_ok.mp h
    split at h
    · cases h
    · cases h
    · obtain ⟨field', -, h⟩ := Outcome.bind_eq_ok.mp h
      obtain ⟨fn, -, h⟩ := Outcome.bind_eq_ok.mp h
      cases h

/-- An author function that gives, for whatever one field accepts, something that another
accepts. -/
def Converting (fn : AuthorFn) (f g : Field) : Prop :=
  ∀ v, f.Accepted v → ∃ w, fn.run v = .ok w ∧ g.Accepted w

/-- The parts that a splitter gives for what a field accepts are accepted by the targets in
their order. -/
def Splitting (fn : AuthorFn) (f : Field) (targets : List (Key × Field)) : Prop :=
  ∀ v, f.Accepted v → ∃ w parts, fn.run v = .ok w ∧ partsOf w = .array parts ∧
    List.Forall₂ (fun target part => target.2.Accepted part) targets parts

/-- A value for a merger to take: one that the member of the name accepts, or null where the
name may be absent. -/
def Mergeable (f : Field) (name v : Value) : Prop :=
  ∃ m, f.memberNamed name = some m ∧
    (m.field.Accepted v ∨ m.field.acceptsAbsence = true ∧ v = .null)

/-- What is asked of a step at a field to which it is applied. -/
def TypedAt (f : Field) : Step → Prop
  | retype _ field fn | restructure _ fn field => KeepsAbsence f field ∧ Converting fn f field
  | split _ name targets splitter => ∀ m, f.memberNamed name = some m →
    (∀ target ∈ targets, KeepsAbsence m.field target.2) ∧ Splitting splitter m.field targets
  | merge _ names _ field merger => ∀ values, List.Forall₂ (Mergeable f) names values →
    ∃ w, merger.run (.array values) = .ok w ∧ field.Accepted w
  | add _ _ _ _ | remove _ _ | rename _ _ _ | copy _ _ _ => True

/-! ## Steps on keys -/

/-- A step takes the members of an object to others, and entries that the ones describe to
entries that the others describe. -/
structure Rewrites (s : Step) (members members' : List (Member Field)) : Prop where
  settled : Settled members'
  entries : ∀ entries place, Describes members entries → ∃ entries',
    s.onValue (.object entries) (some (.object members)) place = .ok (.object entries') ∧
      Describes members' entries'

variable {path place : Path} {f' field : Field} {members members' : List (Member Field)}
variable {name new value : Value}

theorem Rewrites.converts {s : Step} (hsettled : Settled members)
    (h : Rewrites s members members') :
    s.change.Converts (.object members) (.object members') := by
  refine ⟨fun v place hv => ?_, typed_object.mpr h.settled, nofun, fun _ => not_fits_null⟩
  obtain ⟨entries, rfl, hdescribes⟩ := (fits_object hsettled.nodup).mp hv
  obtain ⟨entries', hvalue, hdescribes'⟩ := h.entries entries place hdescribes
  exact ⟨.object entries', hvalue, (fits_object h.settled.nodup).mpr ⟨entries', rfl, hdescribes'⟩⟩

theorem rewrites_add (hsettled : Settled members) (hfield : field.Everywhere Typed)
    (hvalue : field.Fits value)
    (h : (add path name field value).onField (.object members) place = .ok f') :
    ∃ members', f' = .object members' ∧ Rewrites (add path name field value) members members' := by
  obtain ⟨text, rfl, hnew, rfl⟩ := onField_add h
  refine ⟨_, rfl, hsettled.withField hnew hfield, fun entries place hdescribes => ?_⟩
  exact ⟨_, onValue_add (hdescribes.entry_of_none hnew), hdescribes.withField hnew hvalue⟩

theorem rewrites_remove (hsettled : Settled members)
    (h : (remove path name).onField (.object members) place = .ok f') :
    ∃ members', f' = .object members' ∧ Rewrites (remove path name) members members' := by
  obtain ⟨text, m, rfl, hm, rfl⟩ := onField_remove h
  refine ⟨_, rfl, hsettled.withoutField, fun entries place hdescribes => ?_⟩
  refine ⟨Entries.erase (.text text) entries, ?_, hdescribes.withoutField⟩
  rcases hdescribes.present_or_absent hsettled hm with ⟨v, hv, -⟩ | ⟨hnone, habsence⟩
  · exact onValue_remove hv
  · rw [Entries.erase_of_absent hnone]
    exact unlessAbsent_absent hnone ((absenceAllowed_object hm).trans habsence)

theorem rewrites_rename (hsettled : Settled members)
    (h : (rename path name new).onField (.object members) place = .ok f') :
    ∃ members', f' = .object members' ∧ Rewrites (rename path name new) members members' := by
  obtain ⟨text, newText, m, rfl, rfl, hm, hnew, rfl⟩ := onField_rename h
  refine ⟨_, rfl, hsettled.renamed hm hnew, fun entries place hdescribes => ?_⟩
  refine ⟨Entries.rename (.text text) (.text newText) entries, ?_,
    hdescribes.renamed hsettled.nodup hm hnew⟩
  rcases hdescribes.present_or_absent hsettled hm with ⟨v, hv, -⟩ | ⟨hnone, habsence⟩
  · exact onValue_rename hv (hdescribes.entry_of_none hnew)
  · rw [Entries.rename_of_absent hdescribes.named hnone]
    exact unlessAbsent_absent hnone ((absenceAllowed_object hm).trans habsence)

theorem rewrites_copy (hsettled : Settled members)
    (h : (copy path name new).onField (.object members) place = .ok f') :
    ∃ members', f' = .object members' ∧ Rewrites (copy path name new) members members' := by
  obtain ⟨text, newText, m, rfl, rfl, hm, hnew, rfl⟩ := onField_copy h
  have hmember := hsettled.member text m hm
  refine ⟨_, rfl, hsettled.put ⟨hmember.typed, hmember.absence⟩, fun entries place hdescribes => ?_⟩
  have hnewEntry := hdescribes.entry_of_none hnew
  cases hentry : Entries.find? (.text text) entries with
  | some v =>
    have hfits : m.field.Fits v := hdescribes.fits_of_some hm hentry
    exact ⟨_, onValue_copy hentry hnewEntry,
      @Describes.put _ _ _ { m with name := newText } _ hdescribes hfits⟩
  | none =>
    have hrequired := hdescribes.not_required_of_none hm hentry
    refine ⟨entries, ?_, hdescribes.put_absent hrequired hnewEntry⟩
    exact unlessAbsent_absent hentry
      ((absenceAllowed_object hm).trans (hmember.absence hrequired))

/-! ## Split -/

section DeclareAll

variable {targets : List (Key × Field)} {parts : List Value} {entries : List (Key × Value)}

theorem settled_declareAll (h : declareAll place targets members = .ok members')
    (hsettled : Settled members) (htyped : ∀ target ∈ targets, target.2.Everywhere Typed) :
    Settled members' := by
  induction targets generalizing members with
  | nil =>
    cases h
    exact hsettled
  | cons target rest ih =>
    obtain ⟨htarget, hrest⟩ := List.forall_mem_cons.mp htyped
    obtain ⟨name, -, hnew, hmore⟩ := declareAll_cons h
    exact ih hmore (hsettled.withField hnew htarget) hrest

/-- Parts are put under the targets as these are declared. -/
theorem putParts_of_declareAll (elsewhere : Path)
    (h : declareAll place targets members = .ok members') (hdescribes : Describes members entries)
    (hparts : List.Forall₂ (fun target part => target.2.Fits part) targets parts) :
    ∃ entries', putParts elsewhere targets parts entries = .ok entries' ∧
      Describes members' entries' := by
  induction hparts generalizing members entries with
  | nil =>
    cases h
    exact ⟨entries, rfl, hdescribes⟩
  | @cons target part _ _ hpart _ ih =>
    obtain ⟨name, hname, hnew, hmore⟩ := declareAll_cons h
    obtain ⟨entries', hput, hdescribes'⟩ := ih hmore (hdescribes.withField hnew hpart)
    refine ⟨entries', ?_, hdescribes'⟩
    rw [putParts, hname, mustBeNew_of_absent (hdescribes.entry_of_none hnew)]
    exact hput

/-- Targets that accept absence may be declared and left out. -/
theorem describes_declareAll (h : declareAll place targets members = .ok members')
    (hdescribes : Describes members entries)
    (habsence : ∀ target ∈ targets, target.2.acceptsAbsence = true) :
    Describes members' entries := by
  induction targets generalizing members with
  | nil =>
    cases h
    exact hdescribes
  | cons target rest ih =>
    obtain ⟨htarget, hrest⟩ := List.forall_mem_cons.mp habsence
    obtain ⟨name, -, hnew, hmore⟩ := declareAll_cons h
    exact ih hmore (hdescribes.withAbsent hnew htarget) hrest

end DeclareAll

omit [Externals] in
theorem memberNamed_text {f : Field} (hf : f.unwrapped = .object members) (text : String) :
    f.memberNamed (.text text) = Member.find? text members := by
  unfold memberNamed
  rw [hf]

theorem rewrites_split (hexclusive : Format.Exclusive) {f : Field}
    (hf : f.unwrapped = .object members) (hsettled : Settled members) {targets : List (Key × Field)}
    {splitter : AuthorFn} (htargets : ∀ target ∈ targets, target.2.Everywhere Typed)
    (htyped : TypedAt f (split path name targets splitter))
    (h : (split path name targets splitter).onField (.object members) place = .ok f') :
    ∃ members', f' = .object members' ∧
      Rewrites (split path name targets splitter) members members' := by
  obtain ⟨text, m, members', rfl, hm, hdeclare, rfl⟩ := onField_split h
  obtain ⟨habsence, hsplitting⟩ := htyped m ((memberNamed_text hf text).trans hm)
  have hwithout : Settled (Member.withoutField text members) := hsettled.withoutField
  refine ⟨members', rfl, settled_declareAll hdeclare hwithout htargets,
    fun entries place hdescribes => ?_⟩
  have hdescribesWithout : Describes (Member.withoutField text members)
      (Entries.erase (.text text) entries) := hdescribes.withoutField
  rcases hdescribes.present_or_absent hsettled hm with ⟨v, hv, hfits⟩ | ⟨hnone, habsent⟩
  · obtain ⟨w, parts, hrun, hparts, hall⟩ :=
      hsplitting v ((accepted_iff hexclusive (hsettled.member text m hm).typed).mpr hfits)
    have hfitting : List.Forall₂ (fun target part => target.2.Fits part) targets parts :=
      Alongside.imp_mem hall fun target htarget part _ hpart =>
        (accepted_iff hexclusive (htargets target htarget)).mp hpart
    have hchecked : (Value.array parts).Checked := Value.checked_array.mpr fun part hpart => by
      obtain ⟨target, -, haccepted⟩ := Alongside.exists_left hall hpart
      exact haccepted.json.checked
    obtain ⟨entries', hput, hdescribes'⟩ :=
      putParts_of_declareAll place hdeclare hdescribesWithout hfitting
    exact ⟨entries', onValue_split hv hrun hparts hchecked hall.length_eq.symm hput, hdescribes'⟩
  · refine ⟨entries, unlessAbsent_absent hnone ((absenceAllowed_object hm).trans habsent), ?_⟩
    rw [Entries.erase_of_absent hnone] at hdescribesWithout
    exact describes_declareAll hdeclare hdescribesWithout fun target htarget =>
      habsence target htarget habsent

/-! ## Merge -/

/-- The values of declared names are gathered, null for what may be absent. -/
theorem gather_declared (hexclusive : Format.Exclusive) (place : Path) {f : Field}
    (hf : f.unwrapped = .object members) (hsettled : Settled members) {entries : List (Key × Value)}
    (hdescribes : Describes members entries) {texts : List String}
    (hdeclared : ∀ text ∈ texts, ∃ m, Member.find? text members = some m) :
    ∃ values, gather (some (.object members)) entries place (texts.map .text) =
        .ok (texts.map .text, values) ∧ List.Forall₂ (Mergeable f) (texts.map .text) values := by
  induction texts with
  | nil => exact ⟨[], rfl, .nil⟩
  | cons text rest ih =>
    obtain ⟨⟨m, hm⟩, hrest⟩ := List.forall_mem_cons.mp hdeclared
    obtain ⟨values, hvalues, hmergeable⟩ := ih hrest
    have hnamed := (memberNamed_text hf text).trans hm
    rcases hdescribes.present_or_absent hsettled hm with ⟨v, hv, hfits⟩ | ⟨hnone, habsence⟩
    · have haccepted := (accepted_iff hexclusive (hsettled.member text m hm).typed).mpr hfits
      exact ⟨v :: values, gather_cons (.inl hv) hvalues,
        .cons ⟨m, hnamed, .inl haccepted⟩ hmergeable⟩
    · have hallowed := (absenceAllowed_object hm).trans habsence
      exact ⟨.null :: values, gather_cons (.inr ⟨hnone, hallowed, rfl⟩) hvalues,
        .cons ⟨m, hnamed, .inr ⟨habsence, rfl⟩⟩ hmergeable⟩

section Withdrawn

variable {texts : List String} {rest : List (Member Field)}

/-- The entries that are left when names are taken away. -/
def withoutNames (texts : List String) (entries : List (Key × Value)) : List (Key × Value) :=
  entries.filter fun e => !(texts.map Key.text).any fun name => e.1.same name

omit [Externals] in
theorem find?_withoutNames (texts : List String) (entries : List (Key × Value)) (name : String) :
    Entries.find? (.text name) (withoutNames texts entries) =
      if name ∈ texts then none else Entries.find? (.text name) entries := by
  unfold withoutNames
  rw [Entries.find?_filter fun k => !(texts.map Key.text).any fun name => k.same name]
  have hany : ((texts.map Key.text).any fun text => (Key.text name).same text) =
      decide (name ∈ texts) := by
    rw [Bool.eq_iff_iff, List.any_eq_true, decide_eq_true_eq]
    simp
  rw [hany]
  by_cases hmem : name ∈ texts <;> simp [hmem]

theorem settled_withdrawn (hsettled : Settled members) (hnodup : (Member.names rest).Nodup)
    (hrest : ∀ name, Member.find? name rest =
      if name ∈ texts then none else Member.find? name members) : Settled rest := by
  refine ⟨hnodup, fun name m hm => ?_⟩
  rw [hrest] at hm
  by_cases hmem : name ∈ texts
  · rw [if_pos hmem] at hm
    cases hm
  · rw [if_neg hmem] at hm
    exact hsettled.member name m hm

theorem describes_withdrawn {entries : List (Key × Value)} (hdescribes : Describes members entries)
    (hrest : ∀ name, Member.find? name rest =
      if name ∈ texts then none else Member.find? name members) :
    Describes rest (withoutNames texts entries) := by
  refine ⟨hdescribes.named.filter _, fun name => ?_⟩
  rw [hrest, find?_withoutNames]
  by_cases hmem : name ∈ texts
  · rw [if_pos hmem, if_pos hmem]
    trivial
  · rw [if_neg hmem, if_neg hmem]
    exact hdescribes.agree name

end Withdrawn

theorem rewrites_merge (hexclusive : Format.Exclusive) {f : Field}
    (hf : f.unwrapped = .object members) (hsettled : Settled members) {names : List Value}
    {target : Value} {merger : AuthorFn} (hfield : field.Everywhere Typed)
    (htyped : TypedAt f (merge path names target field merger))
    (h : (merge path names target field merger).onField (.object members) place = .ok f') :
    ∃ members', f' = .object members' ∧
      Rewrites (merge path names target field merger) members members' := by
  obtain ⟨text, rest, rfl, hwithdraw, hnew, rfl⟩ := onField_merge h
  obtain ⟨texts, rfl, hnodup, hdeclared, hrest⟩ := withdrawAll_eq_ok hsettled.nodup hwithdraw
  have hsettledRest := settled_withdrawn hsettled hnodup hrest
  refine ⟨_, rfl, hsettledRest.withField hnew hfield, fun entries place hdescribes => ?_⟩
  obtain ⟨values, hgather, hmergeable⟩ :=
    gather_declared hexclusive place hf hsettled hdescribes hdeclared
  obtain ⟨w, hrun, haccepted⟩ := htyped values hmergeable
  have hdescribesRest := describes_withdrawn hdescribes hrest
  exact ⟨_, onValue_merge hgather hrun haccepted.json.checked (hdescribesRest.entry_of_none hnew),
    hdescribesRest.withField hnew ((accepted_iff hexclusive hfield).mp haccepted)⟩

/-! ## Every step -/

theorem convert_fits (hexclusive : Format.Exclusive) {f : Field} {fn : AuthorFn} {label : String}
    (hf : f.Everywhere Typed) (hfield : field.Everywhere Typed)
    (hconverting : Converting fn f field) {v : Value} (hv : f.Fits v) :
    ∃ w, convert fn.run label v place = .ok w ∧ field.Fits w := by
  obtain ⟨w, hrun, haccepted⟩ := hconverting v ((accepted_iff hexclusive hf).mpr hv)
  exact ⟨w, convert_eq_ok hrun haccepted.json.checked,
    (accepted_iff hexclusive hfield).mp haccepted⟩

theorem converts_retype (hexclusive : Format.Exclusive) {f : Field} {fn : AuthorFn}
    (hf : f.Everywhere Typed) (hfield : field.Everywhere Typed)
    (htyped : TypedAt f (retype path field fn)) :
    (retype path field fn).change.Converts f field := by
  obtain ⟨hkeeps, hconverting⟩ := htyped
  refine ⟨fun v place hv => ?_, hfield, hkeeps, nofun⟩
  show ∃ w, (if isNull v && (some f).any isOptional && isOptional field then .ok v
    else convert fn.run "converter" v place) = .ok w ∧ _
  by_cases hnull : (isNull v && (some f).any isOptional && isOptional field) = true
  · rw [if_pos hnull]
    refine ⟨v, rfl, ?_⟩
    -- Null between two optional fields is not handed to the converter.
    obtain ⟨hleft, hoptional⟩ := Bool.and_eq_true_iff.mp hnull
    obtain ⟨hisNull, -⟩ := Bool.and_eq_true_iff.mp hleft
    obtain rfl : v = .null := by
      unfold isNull at hisNull
      split at hisNull
      · rfl
      · cases hisNull
    cases field with
    | optional inner => exact fits_optional_null inner
    | _ => cases hoptional
  · rw [if_neg hnull]
    exact convert_fits hexclusive hf hfield hconverting hv

theorem converts_restructure (hexclusive : Format.Exclusive) {f : Field} {fn : AuthorFn}
    (hf : f.Everywhere Typed) (hfield : field.Everywhere Typed)
    (htyped : TypedAt f (restructure path fn field)) :
    (restructure path fn field).change.Converts f field :=
  ⟨fun _ _ hv => convert_fits hexclusive hf hfield htyped.2 hv, hfield, htyped.1, nofun⟩

/-- A well-typed step that changes the field at the end of its path converts every value
that fits that field. -/
theorem converts (hexclusive : Format.Exclusive) {s : Step} (hs : s.WellMade) {f : Field}
    (hf : f.Everywhere Typed) (htyped : s.TypedAt f)
    (h : s.onField (s.change.facing f) place = .ok f') :
    s.change.Converts (s.change.facing f) f' := by
  have hdeclared : ∀ g ∈ s.declared, g.Everywhere Typed := fun g hg => (hs.declared g hg).typed
  have hkeys : s.through = true → (∀ members, f.unwrapped = .object members → Settled members →
      s.onField (.object members) place = .ok f' →
        ∃ members', f' = .object members' ∧ Rewrites s members members') →
      s.change.Converts (s.change.facing f) f' := by
    intro hthrough hrewrites
    have hfacing : s.change.facing f = f.unwrapped := if_pos hthrough
    rw [hfacing] at h ⊢
    obtain ⟨members, hobject⟩ := object_of_onField hthrough h
    have hsettled : Settled members := typed_object.mp (hobject ▸ hf.unwrapped)
    rw [hobject] at h ⊢
    obtain ⟨members', rfl, hrewrite⟩ := hrewrites members hobject hsettled h
    exact hrewrite.converts hsettled
  cases s with
  | add path name field value =>
    have hfield := hdeclared field (List.mem_singleton.mpr rfl)
    have hvalue := (accepted_iff hexclusive hfield).mp ⟨hs.addsJson, hs.made.conforms⟩
    exact hkeys rfl fun members _ hsettled h => rewrites_add hsettled hfield hvalue h
  | remove path name => exact hkeys rfl fun members _ hsettled h => rewrites_remove hsettled h
  | rename path old new => exact hkeys rfl fun members _ hsettled h => rewrites_rename hsettled h
  | copy path name new => exact hkeys rfl fun members _ hsettled h => rewrites_copy hsettled h
  | retype path field fn =>
    have hfield : field = f' := Except.ok.inj h
    rw [← hfield]
    exact converts_retype hexclusive hf (hdeclared field (List.mem_singleton.mpr rfl)) htyped
  | restructure path fn field =>
    have hfield : field = f' := Except.ok.inj h
    rw [← hfield]
    exact converts_restructure hexclusive hf (hdeclared field (List.mem_singleton.mpr rfl)) htyped
  | split path name targets splitter =>
    have htargets : ∀ target ∈ targets, target.2.Everywhere Typed := fun target htarget =>
      hdeclared target.2 (List.mem_map_of_mem htarget)
    exact hkeys rfl fun members hobject hsettled h =>
      rewrites_split hexclusive hobject hsettled htargets htyped h
  | merge path names target field merger =>
    have hfield := hdeclared field (List.mem_singleton.mpr rfl)
    exact hkeys rfl fun members hobject hsettled h =>
      rewrites_merge hexclusive hobject hsettled hfield htyped h

/-- Steps advance documents and field trees together: where a well-typed step turns a field
tree into another, it turns every document that fits the one into one that fits the other. -/
theorem advances (hexclusive : Format.Exclusive) {s : Step} (hs : s.WellMade) {f : Field}
    (hf : f.Everywhere Typed) (htyped : ∀ t ∈ f.targets s.path.segments, s.TypedAt t)
    (h : s.transformField f = .ok f') : s.change.Advances s.path.segments f f' :=
  Change.onFieldAt_advances hexclusive hf
    (fun t ht htree _ _ h => converts hexclusive hs htree (htyped t ht) h) h

end Step
end Lineage
