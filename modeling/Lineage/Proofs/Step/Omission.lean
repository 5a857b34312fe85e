import Lineage.Format.Email
import Lineage.Proofs.Change.Omission
import Lineage.Proofs.Step.Fields
import Lineage.Proofs.Step.Values
import Lineage.Step.Application

/-
Steps pass over what a document leaves out.

The steps on keys let a name be absent where its field accepts absence, while validation
lets it be absent where the object does not require it.  Where objects omit only what
accepts absence the two agree, and a step that can be made to the field tree is refused for
a conforming document by an author function alone.
-/

namespace Lineage
namespace Step

open Lineage.Field Outcome

variable {path place at_ : Path} {members members' : List (Member Field)} {f' field : Field}
variable {entries : List (Key × Value)} {name new value v : Value} {key : Key} {text : String}

/-! ## Parts of steps -/

theorem convert_unhindered (run : Value → Except Fault Value) (label : String) (v : Value)
    (place : Path) : (convert run label v place).Unhindered := by
  intro e h
  unfold convert at h
  simp only at h
  split at h
  · split at h <;> cases h
    rfl
  · split at h <;> cases h
    rfl

theorem wrongParts_unhindered (count : Nat) (parts : Value) (place : Path) :
    (onValue.wrongParts count parts place).Unhindered := by
  intro e h
  cases h
  rfl

theorem placeOf_unhindered (at_ : Path) (name : Value) : (placeOf at_ name).Unhindered :=
  unhindered_mapError nofun

/-- A declared name is there, or the step passes over it. -/
theorem unlessAbsent_unhindered {present : Value → Outcome Value} {m : Member Field}
    (hcovers : Covers members entries) (hm : Member.find? text members = some m)
    (hpresent : ∀ v, Entries.find? (.text text) entries = some v → (present v).Unhindered) :
    (unlessAbsent (some (.object members)) (.text text) entries at_ present).Unhindered := by
  cases hentry : Entries.find? (.text text) entries with
  | some v =>
    rw [unlessAbsent_present hentry]
    exact hpresent v hentry
  | none =>
    have habsence := hcovers.omitted text m hm hentry
    rw [unlessAbsent_absent hentry ((absenceAllowed_object hm).trans habsence)]
    exact unhindered_ok _

/-- The values of declared names, null where a name is passed over. -/
theorem gather_covers {texts : List String} (at_ : Path) (hcovers : Covers members entries)
    (hdeclared : ∀ text ∈ texts, ∃ m, Member.find? text members = some m) :
    ∃ values, gather (some (.object members)) entries at_ (texts.map .text) =
      .ok (texts.map .text, values) := by
  induction texts with
  | nil => exact ⟨[], rfl⟩
  | cons text rest ih =>
    obtain ⟨⟨m, hm⟩, hrest⟩ := List.forall_mem_cons.mp hdeclared
    obtain ⟨values, hvalues⟩ := ih hrest
    cases hentry : Entries.find? (.text text) entries with
    | some v => exact ⟨v :: values, gather_cons (.inl hentry) hvalues⟩
    | none =>
      have habsence := (absenceAllowed_object hm).trans (hcovers.omitted text m hm hentry)
      exact ⟨.null :: values, gather_cons (.inr ⟨hentry, habsence, rfl⟩) hvalues⟩

/-- Parts are put under names that are declared only now. -/
theorem putParts_unhindered {targets : List (Key × Field)} {parts : List Value}
    (hundeclared : ∀ name, Member.find? name members = none →
      Entries.find? (.text name) entries = none)
    (h : declareAll place targets members = .ok members') :
    (putParts at_ targets parts entries).Unhindered := by
  induction targets generalizing parts entries members with
  | nil => exact unhindered_ok _
  | cons target rest ih =>
    cases parts with
    | nil => exact unhindered_ok _
    | cons part parts =>
      obtain ⟨key, field⟩ := target
      obtain ⟨name, rfl, hnew, hmore⟩ := declareAll_cons h
      rw [putParts, mustBeNew_of_absent (hundeclared name hnew)]
      refine ih (fun other hother => ?_) hmore
      rw [Member.withField_of_new hnew, Member.find?_put] at hother
      rw [Entries.find?_put]
      split at hother
      · cases hother
      · next hne =>
        rw [if_neg hne]
        exact hundeclared other hother

/-! ## Whole steps -/

theorem unhindered_add (hcovers : Covers members entries)
    (h : (add path name field value).onField (.object members) place = .ok f') :
    ((add path name field value).onValue (.object entries) (some (.object members))
      at_).Unhindered := by
  obtain ⟨text, rfl, hnew, -⟩ := onField_add h
  rw [onValue_add (hcovers.undeclared text hnew)]
  exact unhindered_ok _

theorem unhindered_remove (hcovers : Covers members entries)
    (h : (remove path name).onField (.object members) place = .ok f') :
    ((remove path name).onValue (.object entries) (some (.object members)) at_).Unhindered := by
  obtain ⟨text, m, rfl, hm, -⟩ := onField_remove h
  exact unlessAbsent_unhindered hcovers hm fun _ _ => unhindered_ok _

theorem unhindered_rename (hcovers : Covers members entries)
    (h : (rename path name new).onField (.object members) place = .ok f') :
    ((rename path name new).onValue (.object entries) (some (.object members))
      at_).Unhindered := by
  obtain ⟨text, newText, m, rfl, rfl, hm, hnew, -⟩ := onField_rename h
  refine unlessAbsent_unhindered hcovers hm fun _ _ => ?_
  show (do
    mustBeNew (.text newText) entries at_
    return Value.object (Entries.rename (.text text) (.text newText) entries)).Unhindered
  rw [mustBeNew_of_absent (hcovers.undeclared newText hnew)]
  exact unhindered_ok _

theorem unhindered_copy (hcovers : Covers members entries)
    (h : (copy path name new).onField (.object members) place = .ok f') :
    ((copy path name new).onValue (.object entries) (some (.object members)) at_).Unhindered := by
  obtain ⟨text, newText, m, rfl, rfl, hm, hnew, -⟩ := onField_copy h
  refine unlessAbsent_unhindered hcovers hm fun v _ => ?_
  show (do
    mustBeNew (.text newText) entries at_
    return Value.object (Entries.put (.text newText) v entries)).Unhindered
  rw [mustBeNew_of_absent (hcovers.undeclared newText hnew)]
  exact unhindered_ok _

theorem unhindered_split {targets : List (Key × Field)} {splitter : AuthorFn}
    (hcovers : Covers members entries)
    (h : (split path name targets splitter).onField (.object members) place = .ok f') :
    ((split path name targets splitter).onValue (.object entries) (some (.object members))
      at_).Unhindered := by
  obtain ⟨text, m, members', rfl, hm, hdeclare, -⟩ := onField_split h
  refine unlessAbsent_unhindered hcovers hm fun v hv => ?_
  refine (placeOf_unhindered _ _).bind fun place _ => ?_
  refine (convert_unhindered _ _ _ _).bind fun parts _ => ?_
  split
  · split
    · refine Unhindered.bind (putParts_unhindered (fun other hother => ?_) hdeclare)
        fun _ _ => unhindered_ok _
      rw [Member.find?_withoutField] at hother
      rw [Entries.find?_erase]
      split at hother
      · next hsame => rw [if_pos hsame]
      · next hne =>
        rw [if_neg hne]
        exact hcovers.undeclared other hother
    · exact wrongParts_unhindered _ _ _
  · exact wrongParts_unhindered _ _ _

theorem unhindered_merge {names : List Value} {target : Value} {merger : AuthorFn}
    (hnodup : (Member.names members).Nodup) (hcovers : Covers members entries)
    (h : (merge path names target field merger).onField (.object members) place = .ok f') :
    ((merge path names target field merger).onValue (.object entries) (some (.object members))
      at_).Unhindered := by
  obtain ⟨text, rest, rfl, hwithdraw, hnew, -⟩ := onField_merge h
  obtain ⟨texts, rfl, -, hdeclared, hrest⟩ := withdrawAll_eq_ok hnodup hwithdraw
  obtain ⟨values, hgather⟩ := gather_covers at_ hcovers hdeclared
  have habsent : Entries.find? (.text text)
      (entries.filter fun e => !(texts.map Key.text).any fun name => e.1.same name) = none := by
    rw [Entries.find?_filter fun key => !(texts.map Key.text).any fun name => key.same name]
    by_cases hmem : text ∈ texts
    · have hgone : ((texts.map Key.text).any fun name => (Key.text text).same name) = true :=
        List.any_eq_true.mpr ⟨_, List.mem_map_of_mem hmem, Key.same_text_iff.mpr rfl⟩
      rw [hgone]
      rfl
    · rw [hrest, if_neg hmem] at hnew
      rw [hcovers.undeclared text hnew]
      exact ite_self _
  refine Unhindered.bind (unhindered_ok entries) fun _ hentries => ?_
  cases hentries
  rw [hgather, ok_bind]
  refine (placeOf_unhindered at_ (.text text)).bind fun place _ => ?_
  refine (convert_unhindered _ _ _ _).bind fun merged _ => ?_
  show (do
    mustBeNew (.text text)
      (entries.filter fun e => !(texts.map Key.text).any fun name => e.1.same name) at_
    return Value.object _).Unhindered
  rw [mustBeNew_of_absent habsent]
  exact unhindered_ok _

section

variable [Externals]

/-- At the end of its path a step finds what it needs, or passes it over. -/
theorem change_unhindered (s : Step) : s.change.Unhindered := by
  intro f place f' hf homits hfield v at_ hv hconforms
  have h : s.onField f place = .ok f' := hfield
  show (s.onValue v (some f) at_).Unhindered
  cases s with
  | add path name field value =>
    obtain ⟨members, rfl, -⟩ := membersOf_bind h
    obtain ⟨entries, rfl, hcovers, -⟩ := conforms_object homits.here hconforms
    exact unhindered_add hcovers h
  | remove path name =>
    obtain ⟨members, rfl, -⟩ := membersOf_bind h
    obtain ⟨entries, rfl, hcovers, -⟩ := conforms_object homits.here hconforms
    exact unhindered_remove hcovers h
  | rename path old new =>
    obtain ⟨members, rfl, -⟩ := membersOf_bind h
    obtain ⟨entries, rfl, hcovers, -⟩ := conforms_object homits.here hconforms
    exact unhindered_rename hcovers h
  | copy path name new =>
    obtain ⟨members, rfl, -⟩ := membersOf_bind h
    obtain ⟨entries, rfl, hcovers, -⟩ := conforms_object homits.here hconforms
    exact unhindered_copy hcovers h
  | retype path field converter =>
    show (if isNull v && (some f).any isOptional && isOptional field then .ok v
      else convert converter.run "converter" v at_ : Outcome Value).Unhindered
    split
    · exact unhindered_ok v
    · exact convert_unhindered _ _ _ _
  | restructure path transform field => exact convert_unhindered _ _ _ _
  | split path name targets splitter =>
    obtain ⟨members, rfl, -⟩ := membersOf_bind h
    obtain ⟨entries, rfl, hcovers, -⟩ := conforms_object homits.here hconforms
    exact unhindered_split hcovers h
  | merge path names target field merger =>
    obtain ⟨members, rfl, -⟩ := membersOf_bind h
    obtain ⟨entries, rfl, hcovers, -⟩ := conforms_object homits.here hconforms
    exact unhindered_merge hf.here hcovers h

/-! ## Documents -/

/-- Where every object of a constructed field tree omits only what accepts absence, a step
that can be made to the tree does not trip over what a conforming document leaves out: if it
is refused, then by an author function. -/
theorem apply_unhindered {root root' : Field} {s : Step} {o : Validation.Options} {v : Value}
    (hroot : root.Constructed) (homits : root.Everywhere OmitsOnlyAbsent)
    (htransform : s.transformField root = .ok root') (hstrict : o.strict = true)
    (hv : v.Checked) (hvalid : root.check o v = .ok []) :
    (s.apply v (some root)).Unhindered :=
  Change.onValueAt_unhindered (change_unhindered s) hroot.sound homits ⟨_, _, htransform⟩ v .root
    hv ⟨o, .root, hstrict, hvalid⟩

end

/-- A key inside an object that may be absent, and is. -/
theorem apply_unhindered_absent :
    let inner : Field := .object (Member.derived [("b", .boolean)])
    let root : Field := .object (Member.derived [("a", .optional inner)])
    let s : Step := .remove ⟨[.key "a"]⟩ (.text "b")
    root.check {} (.object []) = .ok [] ∧ (s.apply (.object []) (some root)).Unhindered ∧
      s.apply (.object []) (some root) = .ok (.object []) := by
  intro inner root s
  have hinner : inner.Constructed :=
    @Constructed.object _ [(.text "b", .boolean)] .null _ (List.forall_mem_singleton.mpr .boolean) rfl
  have hroot : root.Constructed :=
    @Constructed.object _ [(.text "a", .optional inner)] .null _
      (List.forall_mem_singleton.mpr (.optional hinner rfl)) rfl
  have homits : root.Everywhere OmitsOnlyAbsent := by
    refine everywhere_object (List.forall_mem_singleton.mpr fun _ => rfl)
      (List.forall_mem_singleton.mpr (everywhere_optional trivial ?_))
    exact everywhere_object (List.forall_mem_singleton.mpr nofun)
      (List.forall_mem_singleton.mpr (everywhere_leaf trivial rfl))
  exact ⟨rfl, @apply_unhindered _ root _ s {} (.object []) hroot homits rfl rfl rfl rfl, rfl⟩

/-- A name that the object does not require, under a field that does not accept absence: the
document may leave it out, and the step that removes it fails there. -/
theorem apply_trips_over_omitted :
    let root : Field := .object [⟨"a", false, .string none none none none⟩]
    let s : Step := .remove .root (.text "a")
    root.Constructed ∧ s.transformField root = .ok (.object []) ∧
      (Value.object []).Checked ∧ root.check { strict := true } (.object []) = .ok [] ∧
      ∃ e, s.apply (.object []) (some root) = .error (.step e) ∧ e.kind = .fieldDoesNotExist := by
  intro root s
  have hstring : (Field.string none none none none).Constructed :=
    @Constructed.string _ .null .null .null .null _ rfl
  have hroot : root.Constructed :=
    @Constructed.object _ [(.text "a", .string none none none none)] (.array []) _
      (List.forall_mem_singleton.mpr hstring) rfl
  exact ⟨hroot, rfl, rfl, rfl, _, rfl, rfl⟩

end Step
end Lineage
