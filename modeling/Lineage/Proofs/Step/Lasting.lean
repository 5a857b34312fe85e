import Lineage.Proofs.Change.Lasting
import Lineage.Proofs.Field.Comparison
import Lineage.Proofs.Step.Safety
import Lineage.Proofs.Step.Values

/-
Conditions on the fields of a tree that outlast a step.

What construction has checked at every field of a tree holds at every field of it after a step
that declares checked fields: names differ, bounds are in order, variants cannot be confused, and
defaults conform.
-/

namespace Lineage
namespace Step

open Outcome Lineage.Field

variable {s : Step} {path place : Path} {entries entries' : List (Key × Value)}
variable {members members' : List (Member Field)} {v w : Value} {f f' : Field}
variable {Q : Field → Prop}

/-- Objects that a step puts into a document hold each key once. -/
structure KeepsKeys (s : Step) : Prop where
  adds : s.Adds Value.KeysDistinct
  functions : ∀ g ∈ s.functions, ∀ v w, v.KeysDistinct → g.run v = .ok w → w.KeysDistinct

/-! ## Values -/

theorem keysDistinct_putParts {targets : List (Key × Field)} {parts : List Value}
    (hparts : ∀ part ∈ parts, part.KeysDistinct) (h : (Value.object entries).KeysDistinct)
    (hput : putParts place targets parts entries = .ok entries') :
    (Value.object entries').KeysDistinct := by
  induction targets generalizing parts entries with
  | nil =>
    cases hput
    exact h
  | cons target rest ih =>
    cases parts with
    | nil =>
      cases hput
      exact h
    | cons part parts =>
      obtain ⟨hpart, hmore⟩ := List.forall_mem_cons.mp hparts
      obtain ⟨⟨⟩, -, hput⟩ := bind_eq_ok.mp hput
      exact ih hmore (h.put hpart) hput

theorem keysDistinct_gather {field : Option Field} {names : List Value} {keys : List Key}
    {values : List Value} (h : (Value.object entries).KeysDistinct)
    (hgather : gather field entries place names = .ok (keys, values)) :
    ∀ u ∈ values, u.KeysDistinct := by
  induction names generalizing keys values with
  | nil =>
    cases hgather
    exact nofun
  | cons name rest ih =>
    obtain ⟨key, u, keys, values, -, hu, hrest, rfl, rfl⟩ := of_gather_cons hgather
    refine List.forall_mem_cons.mpr ⟨?_, ih hrest⟩
    rcases hu with hfind | ⟨-, -, rfl⟩
    · exact h.find? hfind
    · exact .scalar _

theorem onValue_keysDistinct (hs : s.KeepsKeys) {field : Option Field} (hv : v.KeysDistinct)
    (h : s.onValue v field place = .ok w) : w.KeysDistinct := by
  have hfunctions := hs.functions
  have hadds := hs.adds
  cases s with
  | add path name newField value =>
    obtain ⟨entries, rfl, -⟩ := entriesOf_bind h
    obtain ⟨_, -, -, rfl⟩ := of_onValue_add h
    exact hv.put hadds
  | remove path name =>
    obtain ⟨entries, rfl, -⟩ := entriesOf_bind h
    obtain ⟨_, -, ⟨_, -, rfl⟩ | ⟨-, -, rfl⟩⟩ := of_onValue_remove h
    · exact hv.filter _
    · exact hv
  | rename path old new =>
    obtain ⟨entries, rfl, -⟩ := entriesOf_bind h
    obtain ⟨_, -, ⟨_, _, -, -, -, rfl⟩ | ⟨-, -, rfl⟩⟩ := of_onValue_rename h
    · exact hv.rename
    · exact hv
  | copy path name new =>
    obtain ⟨entries, rfl, -⟩ := entriesOf_bind h
    obtain ⟨_, -, ⟨_, _, hfind, -, -, rfl⟩ | ⟨-, -, rfl⟩⟩ := of_onValue_copy h
    · exact hv.put (hv.find? hfind)
    · exact hv
  | retype path newField converter =>
    have h : (if isNull v && field.any isOptional && isOptional newField then .ok v
      else convert converter.run "converter" v place) = .ok w := h
    split at h
    · cases h
      exact hv
    · exact hfunctions converter List.mem_cons_self v w hv (run_of_convert h)
  | restructure path transform newField =>
    exact hfunctions transform List.mem_cons_self v w hv (run_of_convert h)
  | split path name targets splitter =>
    obtain ⟨entries, rfl, -⟩ := entriesOf_bind h
    obtain ⟨_, -, ⟨u, parts, _, hfind, hrun, -, hput, rfl⟩ | ⟨-, -, rfl⟩⟩ := of_onValue_split h
    · refine keysDistinct_putParts ?_ (hv.filter _) hput
      cases hsplit : splitter.run u with
      | error e =>
        rw [hsplit] at hrun
        cases hrun
      | ok result =>
        rw [hsplit] at hrun
        have hresult := hfunctions splitter List.mem_cons_self u result
          (hv.find? hfind) hsplit
        have hparts : partsOf result = .array parts := Except.ok.inj hrun
        unfold partsOf at hparts
        split at hparts
        · cases hparts
          cases hresult with
          | tuple hitems => exact hitems
        · subst hparts
          cases hresult with
          | array hitems => exact hitems
    · exact hv
  | merge path names target newField merger =>
    obtain ⟨entries, rfl, -⟩ := entriesOf_bind h
    obtain ⟨_, values, _, merged, hgather, hrun, -, -, rfl⟩ := of_onValue_merge h
    refine (hv.filter _).put ?_
    have hvalues := keysDistinct_gather hv hgather
    exact hfunctions merger List.mem_cons_self _ merged (.array hvalues) hrun

/-! ## Field trees -/

variable [Externals]

section Fields

variable (hQ : Change.Lasting Q)

include hQ

theorem everywhere_put {m : Member Field} (h : (object members).Everywhere Q)
    (hm : m.field.Everywhere Q) : (object (Member.put m members)).Everywhere Q := by
  refine everywhere_object (hQ.object_iff.mpr (Member.nodup_put (hQ.object_iff.mp h.here)))
    fun n hn => ?_
  rcases Member.mem_put hn with rfl | hn
  · exact hm
  · exact h.objectMember hn

theorem everywhere_withoutField (text : String) (h : (object members).Everywhere Q) :
    (object (Member.withoutField text members)).Everywhere Q :=
  everywhere_object (hQ.object_iff.mpr (Member.nodup_withoutField (hQ.object_iff.mp h.here)))
    fun _ hn => h.objectMember (List.mem_filter.mp hn).1

theorem everywhere_declareAll {targets : List (Key × Field)}
    (htargets : ∀ target ∈ targets, target.2.Everywhere Q) (h : (object members).Everywhere Q)
    (hdeclare : declareAll place targets members = .ok members') :
    (object members').Everywhere Q := by
  induction targets generalizing members with
  | nil =>
    cases hdeclare
    exact h
  | cons target rest ih =>
    obtain ⟨htarget, hrest⟩ := List.forall_mem_cons.mp htargets
    obtain ⟨_, -, -, hmore⟩ := declareAll_cons hdeclare
    exact ih hrest (everywhere_put hQ h htarget) hmore

theorem everywhere_withdrawAll {names : List Value} (h : (object members).Everywhere Q)
    (hwithdraw : withdrawAll place names members = .ok members') :
    (object members').Everywhere Q := by
  induction names generalizing members with
  | nil =>
    cases hwithdraw
    exact h
  | cons name rest ih =>
    obtain ⟨_, -, hwithdraw⟩ := bind_eq_ok.mp hwithdraw
    obtain ⟨_, -, hmore⟩ := bind_eq_ok.mp hwithdraw
    exact ih (everywhere_withoutField hQ _ h) hmore

theorem onField_everywhere (hfields : ∀ g ∈ s.fields, g.Everywhere Q) (hf : f.Everywhere Q)
    (h : s.onField f place = .ok f') : f'.Everywhere Q := by
  cases s with
  | add path name newField value =>
    obtain ⟨members, rfl, -⟩ := membersOf_bind h
    obtain ⟨_, -, -, rfl⟩ := onField_add h
    exact everywhere_put hQ hf (hfields newField List.mem_cons_self)
  | remove path name =>
    obtain ⟨members, rfl, -⟩ := membersOf_bind h
    obtain ⟨_, _, -, -, rfl⟩ := onField_remove h
    exact everywhere_withoutField hQ _ hf
  | rename path old new =>
    obtain ⟨members, rfl, -⟩ := membersOf_bind h
    obtain ⟨_, _, _, -, -, -, hnew, rfl⟩ := onField_rename h
    have hnodup := hQ.object_iff.mp hf.here
    refine everywhere_object (hQ.object_iff.mpr (Member.nodup_renamed hnodup hnew)) fun n hn => ?_
    obtain ⟨m, hm, hfield⟩ := Member.exists_of_mem_renamed hn
    exact hfield ▸ hf.objectMember hm
  | copy path name new =>
    obtain ⟨members, rfl, -⟩ := membersOf_bind h
    obtain ⟨_, _, m, -, -, hm, -, rfl⟩ := onField_copy h
    have hfield := hf.objectMember (Member.mem_of_find? hm)
    exact everywhere_put hQ hf hfield
  | retype path newField converter =>
    cases h
    exact hfields f' List.mem_cons_self
  | restructure path transform newField =>
    cases h
    exact hfields f' List.mem_cons_self
  | split path name targets splitter =>
    obtain ⟨members, rfl, -⟩ := membersOf_bind h
    obtain ⟨_, _, _, -, -, hdeclare, rfl⟩ := onField_split h
    exact everywhere_declareAll hQ (fun target ht => hfields _ (List.mem_map_of_mem ht))
      (everywhere_withoutField hQ _ hf) hdeclare
  | merge path names target newField merger =>
    obtain ⟨members, rfl, -⟩ := membersOf_bind h
    obtain ⟨_, rest, -, hwithdraw, -, rfl⟩ := onField_merge h
    exact everywhere_put hQ (everywhere_withdrawAll hQ hf hwithdraw)
      (hfields newField List.mem_cons_self)

/-- What held at every field of a tree, and of those that a step declares, holds at every field of
the tree that the step makes. -/
theorem transformField_everywhere (hs : s.KeepsKeys) (hfields : ∀ g ∈ s.fields, g.Everywhere Q)
    (hf : f.Everywhere Q) (h : s.transformField f = .ok f') : f'.Everywhere Q :=
  Change.onFieldAt_everywhere hQ (fun _ _ _ _ hv hw => onValue_keysDistinct hs hv hw)
    (fun _ _ _ hg hg' => onField_everywhere hQ hfields hg hg') hf h

end Fields

/-! ## What a comparison relies on -/

theorem lasting_orderly : Change.Lasting Field.Orderly where
  object_iff := ⟨fun h => h.sound, fun hnodup => ⟨hnodup, trivial⟩⟩
  array h := ⟨h.sound, trivial⟩
  tuple _ := ⟨trivial, trivial⟩
  optional _ := ⟨trivial, trivial⟩
  defaulted_iff := ⟨fun h => Change.lasting_soundHere.defaulted_iff.mp h.sound,
    fun h => ⟨Change.lasting_soundHere.defaulted_iff.mpr h, trivial⟩⟩

/-- A step that declares trees as construction leaves them, and makes no object that holds a key
twice. -/
structure Orderly (s : Step) : Prop where
  keeps : s.KeepsKeys
  fields : ∀ g ∈ s.fields, g.Built

theorem Orderly.transformField (hs : s.Orderly) (hf : f.Everywhere Field.Orderly)
    (h : s.transformField f = .ok f') : f'.Everywhere Field.Orderly :=
  transformField_everywhere lasting_orderly hs.keeps (fun g hg => (hs.fields g hg).orderly) hf h

end Step
end Lineage
