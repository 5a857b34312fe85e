import Lineage.Format.Email
import Lineage.Proofs.Change.Undo
import Lineage.Proofs.Field.Comparison
import Lineage.Proofs.Step.Frame
import Lineage.Proofs.Step.Values

/-
An added key is removed again, and a renamed one gets its old name back.

The second step restores every value that the first one changes and every field tree, down to
the defaults: what comes back is the tree itself, so that a comparison of both finds no more
than it finds between the tree and itself.  An object on the way that requires a name which its
field lets be absent is the exception, since no step keeps that.
-/

namespace Lineage
namespace Step

open Outcome Lineage.Field

variable {s s' : Step} {path place : Path} {name old new : String} {field : Field}
variable {value v w : Value} {f f' : Field}

/-- A step and the one that takes it back. -/
inductive TakenBackBy : Step → Step → Prop
  | removed (path : Path) (name : String) (field : Field) (value : Value) :
    TakenBackBy (.add path (.text name) field value) (.remove path (.text name))
  | renamed (path : Path) (old new : String) :
    TakenBackBy (.rename path (.text old) (.text new)) (.rename path (.text new) (.text old))

/-! ## One object -/

/-- A step on keys needs an object and leaves one. -/
theorem objects_of_onValue (hthrough : s.through = true) {beside : Option Field}
    (h : s.onValue v beside place = .ok w) :
    ∃ entries entries', v = .object entries ∧ w = .object entries' := by
  obtain ⟨entries, rfl⟩ : ∃ entries, v = .object entries := by
    cases s with
    | retype | restructure => cases hthrough
    | _ =>
      obtain ⟨entries, rfl, -⟩ := entriesOf_bind h
      exact ⟨entries, rfl⟩
  suffices hobject : ∃ entries', w = .object entries' by
    obtain ⟨entries', rfl⟩ := hobject
    exact ⟨entries, entries', rfl, rfl⟩
  cases s with
  | retype | restructure => cases hthrough
  | add path name field value =>
    obtain ⟨_, -, -, rfl⟩ := of_onValue_add h
    exact ⟨_, rfl⟩
  | remove path name =>
    obtain ⟨_, -, ⟨_, -, rfl⟩ | ⟨-, -, rfl⟩⟩ := of_onValue_remove h
    · exact ⟨_, rfl⟩
    · exact ⟨_, rfl⟩
  | rename path old new =>
    obtain ⟨_, -, ⟨_, _, -, -, -, rfl⟩ | ⟨-, -, rfl⟩⟩ := of_onValue_rename h
    · exact ⟨_, rfl⟩
    · exact ⟨_, rfl⟩
  | copy path name new =>
    obtain ⟨_, -, ⟨_, _, -, -, -, rfl⟩ | ⟨-, -, rfl⟩⟩ := of_onValue_copy h
    · exact ⟨_, rfl⟩
    · exact ⟨_, rfl⟩
  | split path name targets splitter =>
    obtain ⟨_, -, ⟨_, _, _, -, -, -, -, rfl⟩ | ⟨-, -, rfl⟩⟩ := of_onValue_split h
    · exact ⟨_, rfl⟩
    · exact ⟨_, rfl⟩
  | merge path names target field merger =>
    obtain ⟨_, _, _, _, -, -, -, -, rfl⟩ := of_onValue_merge h
    exact ⟨_, rfl⟩

theorem onField_remove_of {members : List (Member Field)} {m : Member Field}
    (hm : Member.find? name members = some m) :
    (remove path (.text name)).onField (.object members) place =
      .ok (.object (Member.withoutField name members)) := by
  refine bind_eq_ok.mpr ⟨members, rfl, bind_eq_ok.mpr ⟨.text name, rfl, ?_⟩⟩
  rw [memberOf_eq_ok.mpr ⟨name, rfl, hm⟩, ok_bind, Member.name_of_find? hm]
  rfl

theorem onField_rename_of {members : List (Member Field)} {m : Member Field}
    (hold : Member.find? old members = some m) (hnew : Member.find? new members = none) :
    (rename path (.text old) (.text new)).onField (.object members) place =
      .ok (.object (Member.renamed old new members)) := by
  refine bind_eq_ok.mpr ⟨members, rfl, bind_eq_ok.mpr ⟨.text old, rfl, ?_⟩⟩
  rw [memberOf_eq_ok.mpr ⟨old, rfl, hold⟩, ok_bind, Member.name_of_find? hold]
  refine bind_eq_ok.mpr ⟨.text new, rfl, ?_⟩
  rw [mustBeUndeclared_of_absent hnew, ok_bind]
  rfl

theorem bare_of_onField (hthrough : s.through = true) (h : s.onField f place = .ok f') :
    f.acceptsAbsence = false ∧ f'.acceptsAbsence = false := by
  obtain ⟨members, members', -, rfl, rfl, -⟩ := edits_of_onField hthrough h
  exact ⟨rfl, rfl⟩

theorem added_value {beside : Option Field}
    (h : (add path (.text name) field value).onValue v beside place = .ok w)
    (beside' : Option Field) (place' : Path) :
    (remove path (.text name)).onValue w beside' place' = .ok v := by
  obtain ⟨entries, -, rfl, -⟩ := objects_of_onValue rfl h
  obtain ⟨_, ⟨⟩, hnew, rfl⟩ := of_onValue_add h
  have hfind : Entries.find? (.text name) (Entries.put (.text name) value entries) =
      some value := by
    rw [Entries.find?_put, if_pos rfl]
  rw [onValue_remove hfind, Entries.erase_put hnew]

theorem added_field (h : (add path (.text name) field value).onField f place = .ok f')
    (place' : Path) : (remove path (.text name)).onField f' place' = .ok f := by
  obtain ⟨members, rfl⟩ := object_of_onField rfl h
  obtain ⟨_, ⟨⟩, hnew, rfl⟩ := onField_add h
  rw [Member.withField_of_new hnew]
  have hfind : Member.find? name (Member.put ⟨name, !field.acceptsAbsence, field⟩ members) =
      some ⟨name, !field.acceptsAbsence, field⟩ := by
    rw [Member.find?_put, if_pos rfl]
  rw [onField_remove_of hfind]
  exact congrArg (Except.ok ∘ Field.object)
    (Member.withoutField_put (m := ⟨name, !field.acceptsAbsence, field⟩) hnew)

theorem onValue_rename_back (path : Path) {entries : List (Key × Value)}
    (hdistinct : Entries.Distinct entries) (hold : Entries.find? (.text old) entries = some v)
    (hnew : Entries.find? (.text new) entries = none) (beside : Option Field) (place : Path) :
    (rename path (.text new) (.text old)).onValue
      (.object (Entries.rename (.text old) (.text new) entries)) beside place =
        .ok (.object entries) := by
  have hne : new ≠ old := by
    rintro rfl
    exact absurd (hold.symm.trans hnew) nofun
  have hback := Entries.rename_rename hdistinct hold hnew
  have hmap : Entries.rename (.text old) (.text new) entries =
      entries.map (Entries.underKey (.text old) (.text new)) :=
    Entries.rename_of_new hdistinct hnew
  have hpresent : Entries.find? (.text new) (Entries.rename (.text old) (.text new) entries) =
      some v := by
    rw [hmap, Entries.find?_map_underKey hnew, if_pos rfl, hold]
  have habsent : Entries.find? (.text old) (Entries.rename (.text old) (.text new) entries) =
      none := by
    rw [hmap, Entries.find?_map_underKey hnew, if_neg hne, if_pos rfl]
  rw [onValue_rename hpresent habsent, hback]

section

variable [Externals]

/-- Where the old name may be absent and is, the new one is too, in a value that conforms. -/
theorem onValue_rename_absent (path : Path) {members : List (Member Field)}
    {entries : List (Key × Value)} {m : Member Field} (hnodup : (Member.names members).Nodup)
    (hm : Member.find? old members = some m) (hnew : Member.find? new members = none)
    (hconforms : (Field.object members).Conforms (.object entries))
    (habsence : absenceAllowed (some (.object members)) (.text old) = true) (place : Path) :
    (rename path (.text new) (.text old)).onValue (.object entries)
      (some (.object (Member.renamed old new members))) place = .ok (.object entries) := by
  obtain ⟨_, ⟨⟩, hundeclared, -⟩ := conforms_entries hconforms
  rw [absenceAllowed_object hm] at habsence
  have hm' : Member.find? new (Member.renamed old new members) = some { m with name := new } := by
    rw [Member.find?_renamed hnodup hm hnew, if_pos rfl]
  exact unlessAbsent_absent (hundeclared new hnew) ((absenceAllowed_object hm').trans habsence)

section Renamed

variable {u u' : Field} {beside : Option Field} {inside : Path}

omit [Externals] in
theorem renamed_value (hv : v.KeysDistinct)
    (h : (rename path (.text old) (.text new)).onValue v none place = .ok w) (place' : Path) :
    (rename path (.text new) (.text old)).onValue w none place' = .ok v := by
  obtain ⟨entries, -, rfl, -⟩ := objects_of_onValue rfl h
  obtain ⟨_, ⟨⟩, ⟨x, _, hold, ⟨⟩, hnew, rfl⟩ | ⟨-, habsence, -⟩⟩ := of_onValue_rename h
  · cases hv with
    | object hdistinct _ => exact onValue_rename_back path hdistinct hold hnew none place'
  · cases habsence

theorem renamed_field (hsound : u.Sound)
    (h : (rename path (.text old) (.text new)).onField u place = .ok u') :
    ∀ place', (rename path (.text new) (.text old)).onField u' place' = .ok u := by
  obtain ⟨members, rfl⟩ := object_of_onField rfl h
  obtain ⟨_, _, m, ⟨⟩, ⟨⟩, hm, hnew, rfl⟩ := onField_rename h
  have hnodup : (Member.names members).Nodup := hsound.here
  have hne : new ≠ old := by
    rintro rfl
    exact absurd (hm.symm.trans hnew) nofun
  have hpresent : Member.find? new (Member.renamed old new members) =
      some { m with name := new } := by
    rw [Member.find?_renamed hnodup hm hnew, if_pos rfl]
  have habsent : Member.find? old (Member.renamed old new members) = none := by
    rw [Member.find?_renamed hnodup hm hnew, if_neg hne, if_pos rfl]
  intro place'
  rw [onField_rename_of hpresent habsent, Member.renamed_renamed hnodup hm hnew]

theorem renamed_beside (hsound : u.Sound) (hv : v.KeysDistinct) (hconforms : u.Conforms v)
    (hu : (rename path (.text old) (.text new)).onField u inside = .ok u')
    (h : (rename path (.text old) (.text new)).onValue v (some u) place = .ok w) (place' : Path) :
    (rename path (.text new) (.text old)).onValue w (some u') place' = .ok v := by
  obtain ⟨members, rfl⟩ := object_of_onField rfl hu
  obtain ⟨entries, -, rfl, -⟩ := objects_of_onValue rfl h
  obtain ⟨_, _, m, ⟨⟩, ⟨⟩, hm, hundeclared, rfl⟩ := onField_rename hu
  obtain ⟨_, ⟨⟩, ⟨x, _, hold, ⟨⟩, hnew, rfl⟩ | ⟨-, habsence, rfl⟩⟩ := of_onValue_rename h
  · cases hv with
    | object hdistinct _ => exact onValue_rename_back path hdistinct hold hnew _ place'
  · exact onValue_rename_absent path hsound.here hm hundeclared hconforms habsence place'

end Renamed

/-! ## Whole steps -/

/-- What is asked of two steps on keys for the one to undo the other. -/
theorem undoes_of (hthrough : s.through = true) (hthrough' : s'.through = true)
    (hvalue : ∀ v place w, v.KeysDistinct → s.onValue v none place = .ok w →
      ∀ place', s'.onValue w none place' = .ok v)
    (hfield : ∀ u place u', u.Sound → s.onField u place = .ok u' →
      ∀ place', s'.onField u' place' = .ok u)
    (hbeside : ∀ u inside u' v place w, u.Sound → v.KeysDistinct → u.Conforms v →
      s.onField u inside = .ok u' → s.onValue v (some u) place = .ok w →
      ∀ place', s'.onValue w (some u') place' = .ok v) :
    Change.Undoes s'.change s.change where
  looks := hthrough
  looksBack := hthrough'
  object _ _ _ _ h := by
    obtain ⟨-, entries, -, hw⟩ := objects_of_onValue hthrough h
    exact ⟨entries, hw⟩
  bare _ _ _ h := bare_of_onField hthrough h
  value := hvalue
  field := hfield
  beside := hbeside

theorem TakenBackBy.undoes (h : s.TakenBackBy s') : Change.Undoes s'.change s.change := by
  cases h with
  | removed path name field value =>
    exact undoes_of rfl rfl (fun _ _ _ _ h => added_value h none) (fun _ _ _ _ => added_field)
      fun _ _ u' _ _ _ _ _ _ _ h => added_value h (some u')
  | renamed path old new =>
    exact undoes_of rfl rfl (fun _ _ _ => renamed_value) (fun _ _ _ => renamed_field)
      fun _ _ _ _ _ _ => renamed_beside

omit [Externals] in
theorem TakenBackBy.same_path (h : s.TakenBackBy s') : s'.path = s.path := by
  cases h with
  | removed path name field value => rfl
  | renamed path old new => rfl

/-- A removal takes back an addition, and a rename takes back its opposite, on every value and
on every field tree that the first step changes.  The value comes back as it was and so does
the tree, defaults and order included, unless an object on the path requires a name that its
field lets be absent.  A comparison of the tree before and after finds nothing where it finds
nothing between a tree and itself, which is in every tree without NaN. -/
theorem taken_back (h : s.TakenBackBy s') :
    (∀ v w, v.KeysDistinct → s.apply v none = .ok w → s'.apply w none = .ok v) ∧
    ∀ f f', f.Constructed → f.OnTheWay RequiresOnlyPresent s.path.segments →
      s.transformField f = .ok f' → s'.transformField f' = .ok f ∧
        (f.Everywhere HasProperAttributes → f.Everywhere WithoutNaN →
          ∀ path, compareAt path f f = []) := by
  refine ⟨fun v w hv happly => ?_,
    fun f f' hf hpresent htransform => ⟨?_, fun hproper hreal p => ?_⟩⟩
  · rw [apply, h.same_path]
    exact h.undoes.onValueAt hv happly .root
  · rw [transformField, h.same_path]
    exact h.undoes.onFieldAt hf.sound hpresent htransform .root
  · exact (matches_self (Built.orderly ⟨hf, hproper⟩) hreal).compareAt_eq_nil p

end

/-- A name is renamed and renamed back in each item of a list that is a default. -/
theorem taken_back_renamed :
    let item : String → Field := fun name => .object (Member.derived [(name, .optional .boolean)])
    let items : String → Value := fun name =>
      .array [.object [(.text name, .bool true)], .object []]
    let f : String → Field := fun name => .object (Member.derived
      [("on", .defaulted (.tuple [item name, item name]) (items name))])
    let v : String → Value := fun name =>
      .object [(.text "on", .array [.object [(.text name, .null), (.text "c", .int 2)]])]
    let s : Step := .rename ⟨[.key "on", .wildcard]⟩ (.text "a") (.text "b")
    let s' : Step := .rename ⟨[.key "on", .wildcard]⟩ (.text "b") (.text "a")
    s.TakenBackBy s' ∧ (v "a").KeysDistinct ∧ s.apply (v "a") none = .ok (v "b") ∧
      s'.apply (v "b") none = .ok (v "a") ∧ (f "a").Constructed ∧
      (f "a").OnTheWay RequiresOnlyPresent s.path.segments ∧
      s.transformField (f "a") = .ok (f "b") ∧ s'.transformField (f "b") = .ok (f "a") ∧
      compareAt .root (f "a") (f "a") = [] := by
  intro item items f v s s'
  have htaken : s.TakenBackBy s' := .renamed _ "a" "b"
  have hv : (v "a").KeysDistinct := by
    refine .object (List.pairwise_singleton _ _) (List.forall_mem_singleton.mpr (.array
      (List.forall_mem_singleton.mpr (.object ?_ ?_))))
    · exact List.pairwise_cons.mpr ⟨List.forall_mem_singleton.mpr rfl, List.pairwise_singleton _ _⟩
    · exact List.forall_mem_cons.mpr ⟨.scalar _, List.forall_mem_singleton.mpr (.scalar _)⟩
  have hitem : (item "a").Constructed :=
    @Constructed.object _ [(.text "a", .optional .boolean)] .null _
      (List.forall_mem_singleton.mpr (.optional .boolean rfl)) rfl
  have htuple : (Field.tuple [item "a", item "a"]).Constructed :=
    .tuple (List.forall_mem_cons.mpr ⟨hitem, List.forall_mem_singleton.mpr hitem⟩) rfl
  have hitems : (items "a").KeysDistinct :=
    .array (List.forall_mem_cons.mpr ⟨.object (List.pairwise_singleton _ _)
      (List.forall_mem_singleton.mpr (.scalar _)),
      List.forall_mem_singleton.mpr (.object .nil nofun)⟩)
  have hf : (f "a").Constructed :=
    @Constructed.object _ [(.text "on", .defaulted _ (items "a"))] .null _
      (List.forall_mem_singleton.mpr (.defaulted htuple hitems rfl)) rfl
  have hall : ∀ {P : Field → Prop}, (∀ members, P (.object members)) → (∀ fs, P (.tuple fs)) →
      (∀ g w, P (.defaulted g w)) → (∀ g, P (.optional g)) → P .boolean → (f "a").Everywhere P := by
    intro P hobject htuple hdefaulted hoptional hboolean
    have hitem : (item "a").Everywhere P := everywhere_object (hobject _)
      (List.forall_mem_singleton.mpr (everywhere_optional (hoptional _)
        (everywhere_leaf hboolean rfl)))
    refine everywhere_object (hobject _) (List.forall_mem_singleton.mpr
      (everywhere_defaulted (hdefaulted _ _) (everywhere_of (htuple _) ?_)))
    exact List.forall_mem_cons.mpr ⟨hitem, List.forall_mem_singleton.mpr hitem⟩
  have hpresent : (f "a").OnTheWay RequiresOnlyPresent s.path.segments :=
    ⟨List.forall_mem_singleton.mpr nofun,
      List.forall_mem_singleton.mpr ⟨trivial, fun _ _ => trivial⟩⟩
  have htransform : s.transformField (f "a") = .ok (f "b") := rfl
  have happly : s.apply (v "a") none = .ok (v "b") := rfl
  obtain ⟨hvalues, htrees⟩ := taken_back htaken
  obtain ⟨hback, hsame⟩ := htrees _ _ hf hpresent htransform
  have hproper : (f "a").Everywhere HasProperAttributes :=
    hall (fun _ => trivial) (fun _ => trivial) (fun _ _ => trivial) (fun _ => trivial) trivial
  have hreal : (f "a").Everywhere WithoutNaN :=
    hall (fun _ => trivial) (fun _ => trivial) (fun _ _ => trivial) (fun _ => trivial) trivial
  exact ⟨htaken, hv, happly, hvalues _ _ hv happly, hf, hpresent, htransform, hback,
    hsame hproper hreal .root⟩

/-- A tree with NaN for a bound comes back as it was, and a comparison finds a difference
between it and itself. -/
theorem taken_back_nan :
    let s : Step := .add .root (.text "n") .any .null
    let s' : Step := .remove .root (.text "n")
    let f : Field := .object (Member.derived
      [("z", .number (some (.float .nan)) none (.bool false))])
    let f' : Field := .object (Member.derived
      [("z", .number (some (.float .nan)) none (.bool false)), ("n", .any)])
    s.TakenBackBy s' ∧ f.Constructed ∧ f.Everywhere RequiresOnlyPresent ∧
      s.transformField f = .ok f' ∧ s'.transformField f' = .ok f ∧ compareAt .root f f ≠ [] := by
  intro s s' f f'
  have hf : f.Constructed :=
    @Constructed.object _ [(.text "z", .number (some (.float .nan)) none (.bool false))] .null _
      (List.forall_mem_singleton.mpr
        (@Constructed.number _ (.number (.float .nan)) .null (.bool false) _ rfl)) rfl
  have hpresent : f.Everywhere RequiresOnlyPresent :=
    everywhere_object (List.forall_mem_singleton.mpr fun _ => rfl)
      (List.forall_mem_singleton.mpr (everywhere_leaf trivial rfl))
  exact ⟨.removed _ _ _ _, hf, hpresent, rfl, rfl, List.cons_ne_nil _ _⟩

end Step
end Lineage
