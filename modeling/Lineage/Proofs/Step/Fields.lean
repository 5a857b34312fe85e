import Lineage.Step.Application
import Lineage.Proofs.Field.Editing
import Lineage.Proofs.Outcome
import Lineage.Proofs.Value.Checked

/-
What a step on keys asks of an object field and leaves behind.

Where the step gives a new field, its names are texts, the names it takes are declared
and the names it gives are not, and the new members are an edit of the old ones.
-/

namespace Lineage

namespace Field

theorem keyOf_eq_text {v : Value} {name : String} : keyOf v = .ok
    (.text name) ↔ v = .text name := by
  constructor
  · intro h
    unfold keyOf at h
    split at h
    · next key hkey =>
      cases h
      cases v with
      | scalar s =>
        cases hkey
        rfl
      | tuple items =>
        obtain ⟨ks, -, hks⟩ := Option.map_eq_some_iff.mp hkey
        cases hks
      | _ => cases hkey
    · cases h
  · rintro rfl
    rfl

theorem textOf_eq_ok {key : Key} {name : String} : textOf key = .ok name ↔ key = .text name := by
  constructor
  · intro h
    unfold textOf at h
    split at h
    · next s hs =>
      cases h
      exact Key.text?_eq_some.mp hs
    · cases h
  · rintro rfl
    rfl

end Field

namespace Step

open Lineage.Field

variable {path place : Path} {f f' field : Field} {members members' : List (Member Field)}
variable {m : Member Field} {key : Key}

theorem failsAtName_ne_ok {α : Type} (kind : StepError.Kind) (problem : String) (key : Key)
    (place : Path) (a : α) : failsAtName kind problem key place ≠ .ok a := by
  intro h
  obtain ⟨_, -, h⟩ := Outcome.bind_eq_ok.mp h
  cases h

theorem memberOf_eq_ok :
    memberOf key members place = .ok m ↔
      ∃ name, key = .text name ∧ Member.find? name members = some m := by
  constructor
  · intro h
    unfold memberOf at h
    split at h
    · next n hn =>
      cases h
      obtain ⟨name, hname, hm⟩ := Option.bind_eq_some_iff.mp hn
      exact ⟨name, Key.text?_eq_some.mp hname, hm⟩
    · exact absurd h (failsAtName_ne_ok _ _ _ _ _)
  · rintro ⟨name, rfl, hm⟩
    unfold memberOf
    rw [Key.text?, Option.bind_some, hm]

theorem undeclared_of_mustBeUndeclared {name : String}
    (h : mustBeUndeclared (.text name) members place = .ok ()) :
    Member.find? name members = none := by
  unfold mustBeUndeclared at h
  split at h
  · exact absurd h (failsAtName_ne_ok _ _ _ _ _)
  · next hdeclares =>
    cases hfind : Member.find? name members with
    | none => rfl
    | some m =>
      have hdeclared : declaresKey members (.text name) = true := by
        show (Member.find? name members).isSome = true
        rw [hfind]
        rfl
      exact absurd hdeclared hdeclares

theorem mustBeUndeclared_of_absent {name : String} (h : Member.find? name members = none) :
    mustBeUndeclared (.text name) members place = .ok () := by
  have hdeclares : declaresKey members (.text name) = false := by
    show (Member.find? name members).isSome = false
    rw [h]
    rfl
  unfold mustBeUndeclared
  rw [hdeclares]
  rfl

/-- A name that is to be given is a text and not declared. -/
theorem declareAll_cons {targets : List (Key × Field)}
    (h : declareAll place ((key, field) :: targets) members = .ok members') :
    ∃ name, key = .text name ∧ Member.find? name members = none ∧
      declareAll place targets (Member.withField name field members) = .ok members' := by
  obtain ⟨⟨⟩, hnew, h⟩ := Outcome.bind_eq_ok.mp h
  obtain ⟨name, hname, h⟩ := Outcome.bind_eq_ok.mp h
  obtain rfl := textOf_eq_ok.mp hname
  exact ⟨name, rfl, undeclared_of_mustBeUndeclared hnew, h⟩

/-- Withdrawn names are texts that are declared, and nothing else is lost. -/
theorem withdrawAll_eq_ok {names : List Value} (hnodup : (Member.names members).Nodup)
    (h : withdrawAll place names members = .ok members') :
    ∃ texts : List String, names = texts.map .text ∧ (Member.names members').Nodup ∧
      (∀ text ∈ texts, ∃ m, Member.find? text members = some m) ∧
      ∀ name, Member.find? name members' =
        if name ∈ texts then none else Member.find? name members := by
  induction names generalizing members with
  | nil =>
    cases h
    exact ⟨[], rfl, hnodup, nofun, fun name => (if_neg List.not_mem_nil).symm⟩
  | cons v rest ih =>
    obtain ⟨key, hkey, htaken⟩ := Outcome.bind_eq_ok.mp h
    obtain ⟨m, hm, hmore⟩ := Outcome.bind_eq_ok.mp htaken
    obtain ⟨text, rfl, hfind⟩ := memberOf_eq_ok.mp hm
    obtain rfl := keyOf_eq_text.mp hkey
    obtain rfl := Member.name_of_find? hfind
    obtain ⟨texts, rfl, hafter, hdeclared, hrest⟩ := ih (Member.nodup_withoutField hnodup) hmore
    refine ⟨m.name :: texts, rfl, hafter, List.forall_mem_cons.mpr ⟨⟨m, hfind⟩, fun t ht => ?_⟩,
      fun name => ?_⟩
    · obtain ⟨n, hn⟩ := hdeclared t ht
      rw [Member.find?_withoutField] at hn
      by_cases hsame : m.name = t
      · rw [if_pos hsame] at hn
        cases hn
      · rw [if_neg hsame] at hn
        exact ⟨n, hn⟩
    · rw [hrest, Member.find?_withoutField]
      by_cases hmem : name ∈ texts
      · rw [if_pos hmem, if_pos (List.mem_cons_of_mem _ hmem)]
      · rw [if_neg hmem]
        by_cases hsame : m.name = name
        · rw [if_pos hsame, if_pos (hsame ▸ List.mem_cons_self)]
        · rw [if_neg hsame, if_neg fun h => (List.mem_cons.mp h).elim (Ne.symm hsame) hmem]

/-! ## Steps on keys -/

variable {name new : Value} {value : Value}

theorem membersOf_bind {next : List (Member Field) → Outcome Field}
    (h : (membersOf f place >>= next) = .ok f') :
    ∃ members, f = .object members ∧ next members = .ok f' := by
  cases f with
  | object members => exact ⟨members, rfl, h⟩
  | _ => cases h

/-- Steps on keys give a new field only for an object. -/
theorem object_of_onField {s : Step} (hthrough : s.through = true)
    (h : s.onField f place = .ok f') : ∃ members, f = .object members := by
  cases s with
  | retype | restructure => cases hthrough
  | _ =>
    obtain ⟨members, hmembers, -⟩ := membersOf_bind h
    exact ⟨members, hmembers⟩

theorem onField_add
    (h : (add path name field value).onField (.object members) place = .ok f') :
    ∃ text, name = .text text ∧ Member.find? text members = none ∧
      f' = .object (Member.withField text field members) := by
  obtain ⟨_, ⟨⟩, h⟩ := Outcome.bind_eq_ok.mp h
  obtain ⟨key, hkey, h⟩ := Outcome.bind_eq_ok.mp h
  obtain ⟨members', hmembers, h⟩ := Outcome.bind_eq_ok.mp h
  cases h
  obtain ⟨text, rfl, hnew, hafter⟩ := declareAll_cons hmembers
  cases hafter
  exact ⟨text, keyOf_eq_text.mp hkey, hnew, rfl⟩

theorem onField_remove (h : (remove path name).onField (.object members) place = .ok f') :
    ∃ text m, name = .text text ∧ Member.find? text members = some m ∧
      f' = .object (Member.withoutField text members) := by
  obtain ⟨_, ⟨⟩, h⟩ := Outcome.bind_eq_ok.mp h
  obtain ⟨key, hkey, h⟩ := Outcome.bind_eq_ok.mp h
  obtain ⟨m, hm, h⟩ := Outcome.bind_eq_ok.mp h
  cases h
  obtain ⟨text, rfl, hfind⟩ := memberOf_eq_ok.mp hm
  exact ⟨text, m, keyOf_eq_text.mp hkey, hfind, by rw [Member.name_of_find? hfind]⟩

theorem onField_rename (h : (rename path name new).onField (.object members) place = .ok f') :
    ∃ text newText m, name = .text text ∧ new = .text newText ∧
      Member.find? text members = some m ∧ Member.find? newText members = none ∧
      f' = .object (Member.renamed text newText members) := by
  obtain ⟨_, ⟨⟩, h⟩ := Outcome.bind_eq_ok.mp h
  obtain ⟨key, hkey, h⟩ := Outcome.bind_eq_ok.mp h
  obtain ⟨m, hm, h⟩ := Outcome.bind_eq_ok.mp h
  obtain ⟨newKey, hnewKey, h⟩ := Outcome.bind_eq_ok.mp h
  obtain ⟨⟨⟩, hnew, h⟩ := Outcome.bind_eq_ok.mp h
  obtain ⟨newText, htext, h⟩ := Outcome.bind_eq_ok.mp h
  cases h
  obtain ⟨text, rfl, hfind⟩ := memberOf_eq_ok.mp hm
  obtain rfl := textOf_eq_ok.mp htext
  exact ⟨text, newText, m, keyOf_eq_text.mp hkey, keyOf_eq_text.mp hnewKey, hfind,
    undeclared_of_mustBeUndeclared hnew, by rw [Member.name_of_find? hfind]⟩

theorem onField_copy (h : (copy path name new).onField (.object members) place = .ok f') :
    ∃ text newText m, name = .text text ∧ new = .text newText ∧
      Member.find? text members = some m ∧ Member.find? newText members = none ∧
      f' = .object (Member.put { m with name := newText } members) := by
  obtain ⟨_, ⟨⟩, h⟩ := Outcome.bind_eq_ok.mp h
  obtain ⟨key, hkey, h⟩ := Outcome.bind_eq_ok.mp h
  obtain ⟨m, hm, h⟩ := Outcome.bind_eq_ok.mp h
  obtain ⟨newKey, hnewKey, h⟩ := Outcome.bind_eq_ok.mp h
  obtain ⟨⟨⟩, hnew, h⟩ := Outcome.bind_eq_ok.mp h
  obtain ⟨newText, htext, h⟩ := Outcome.bind_eq_ok.mp h
  cases h
  obtain ⟨text, rfl, hfind⟩ := memberOf_eq_ok.mp hm
  obtain rfl := textOf_eq_ok.mp htext
  exact ⟨text, newText, m, keyOf_eq_text.mp hkey, keyOf_eq_text.mp hnewKey, hfind,
    undeclared_of_mustBeUndeclared hnew, rfl⟩

theorem onField_split {targets : List (Key × Field)} {splitter : AuthorFn}
    (h : (split path name targets splitter).onField (.object members) place = .ok f') :
    ∃ text m members', name = .text text ∧ Member.find? text members = some m ∧
      declareAll place targets (Member.withoutField text members) = .ok members' ∧
      f' = .object members' := by
  obtain ⟨_, ⟨⟩, h⟩ := Outcome.bind_eq_ok.mp h
  obtain ⟨key, hkey, h⟩ := Outcome.bind_eq_ok.mp h
  obtain ⟨m, hm, h⟩ := Outcome.bind_eq_ok.mp h
  obtain ⟨members', hmembers, h⟩ := Outcome.bind_eq_ok.mp h
  cases h
  obtain ⟨text, rfl, hfind⟩ := memberOf_eq_ok.mp hm
  rw [Member.name_of_find? hfind] at hmembers
  exact ⟨text, m, members', keyOf_eq_text.mp hkey, hfind, hmembers, rfl⟩

theorem onField_merge {names : List Value} {target : Value} {merger : AuthorFn}
    (h : (merge path names target field merger).onField (.object members) place = .ok f') :
    ∃ text rest, target = .text text ∧ withdrawAll place names members = .ok rest ∧
      Member.find? text rest = none ∧ f' = .object (Member.withField text field rest) := by
  obtain ⟨_, ⟨⟩, h⟩ := Outcome.bind_eq_ok.mp h
  obtain ⟨rest, hrest, h⟩ := Outcome.bind_eq_ok.mp h
  obtain ⟨key, hkey, h⟩ := Outcome.bind_eq_ok.mp h
  obtain ⟨members', hmembers, h⟩ := Outcome.bind_eq_ok.mp h
  cases h
  obtain ⟨text, rfl, hnew, hafter⟩ := declareAll_cons hmembers
  cases hafter
  exact ⟨text, rest, keyOf_eq_text.mp hkey, hrest, hnew, rfl⟩

end Step
end Lineage
