import Lineage.Step.Application
import Lineage.Proofs.Change.Safety
import Lineage.Proofs.Step.Fields

/-
What a step can fail with and what it leaves behind.

Refusals of a step are errors of steps.  Anything else comes from a name that is no text, from
an author function, or from a value or a field on the way, and what a step puts into a
document was there before, has been checked, or is added as it stands.  Each of these sources
is a condition of its own here, so a class of errors or of values that allows them is kept by
the whole step.
-/

namespace Lineage
namespace Step

open Outcome Lineage.Field Change

/-! ## What a step is made of -/

/-- The names that a step is about. -/
def names : Step → List Value
  | add _ name _ _ | remove _ name => [name]
  | rename _ old new => [old, new]
  | copy _ name new => [name, new]
  | retype _ _ _ | restructure _ _ _ => []
  | split _ name targets _ => name :: targets.map fun target => target.1.toValue
  | merge _ names target _ _ => target :: names

/-- The fields that a step declares. -/
def fields : Step → List Field
  | add _ _ field _ | retype _ field _ | restructure _ _ field | merge _ _ _ field _ => [field]
  | split _ _ targets _ => targets.map Prod.snd
  | remove _ _ | rename _ _ _ | copy _ _ _ => []

/-- The author functions that a step runs. -/
def functions : Step → List AuthorFn
  | retype _ _ g | restructure _ g _ | split _ _ _ g | merge _ _ _ _ g => [g]
  | add _ _ _ _ | remove _ _ | rename _ _ _ | copy _ _ _ => []

/-- The keys under which a step leaves values. -/
def Gives (K : Key → Prop) : Step → Prop
  | add _ name _ _ | rename _ _ name | copy _ _ name | merge _ _ name _ _ =>
    ∀ key, keyOf name = .ok key → K key
  | split _ _ targets _ => ∀ target ∈ targets, K target.1
  | remove _ _ | retype _ _ _ | restructure _ _ _ => True

/-- The value that a step adds as it stands. -/
def Adds (V : Value → Prop) : Step → Prop
  | add _ _ _ value => V value
  | _ => True

/-- Errors among which those about names are. -/
structure CoversNames (P : Error → Prop) : Prop where
  badType : P Error.badType
  badPath : ∀ e, P (.badPath e)
  definition : ∀ e, P (.definition e)

/-- A name is a text, or what it can fail with is covered. -/
def Named (P : Error → Prop) (name : Value) : Prop := (∃ s, name = .text s) ∨ CoversNames P

/-- What a step may contain to keep to a class of errors and a class of values. -/
structure Allowed (P : Error → Prop) (K : Key → Prop) (V : Value → Prop) (s : Step) : Prop where
  names : ∀ name ∈ s.names, Named P name
  gives : s.Gives K
  adds : s.Adds V
  functions : ∀ g ∈ s.functions, ∀ v f, g.run v = .error f → f.isRefusal = true ∨ P (.fault f)

variable {P : Error → Prop} {K : Key → Prop} {V : Value → Prop} {Q : Field → Prop}
variable {place : Path} {name v : Value} {key : Key} {entries : List (Key × Value)}
variable {members : List (Member Field)}

/-! ## Names -/

theorem keyOf_failsOnly (hname : Named P name) : (keyOf name).FailsOnly P := by
  rcases hname with ⟨s, rfl⟩ | hcovers
  · exact failsOnly_ok (Key.text s)
  · unfold keyOf
    split
    · exact failsOnly_ok _
    · exact failsOnly_error hcovers.badType

/-- The key of such a name is such a name itself. -/
theorem Named.toKey (hname : Named P name) (h : keyOf name = .ok key) : Named P key.toValue := by
  rcases hname with ⟨s, rfl⟩ | hcovers
  · cases h
    exact .inl ⟨s, rfl⟩
  · exact .inr hcovers

theorem text_of_toValue {s : String} (h : key.toValue = Value.text s) : key = .text s := by
  cases key with
  | scalar a => exact congrArg Key.scalar (Value.scalar.inj h)
  | _ => cases h

theorem placeOf_failsOnly (hname : Named P name) (place : Path) :
    (placeOf place name).FailsOnly P := by
  rcases hname with ⟨s, rfl⟩ | hcovers
  · exact failsOnly_ok (place.key s)
  · exact failsOnly_mapError hcovers.badPath

theorem textOf_failsOnly (hkey : Named P key.toValue) : (textOf key).FailsOnly P := by
  rcases hkey with ⟨s, hs⟩ | hcovers
  · rw [text_of_toValue hs]
    exact failsOnly_ok s
  · unfold textOf
    split
    · exact failsOnly_ok _
    · exact failsOnly_error (hcovers.definition _)

/-- Putting the parts in a list fails only where the splitter does. -/
theorem splitter_of_parts {splitter : AuthorFn} {f : Fault}
    (h : (splitter.run v).map partsOf = .error f) : splitter.run v = .error f := by
  cases hsplit : splitter.run v with
  | ok parts =>
    rw [hsplit] at h
    cases h
  | error e =>
    rw [hsplit] at h
    cases h
    rfl

section Refusals

variable (hstep : ∀ e, P (.step e))

include hstep

theorem failsAtName_failsOnly {α : Type} (kind : StepError.Kind) (problem : String)
    (hkey : Named P key.toValue) (place : Path) :
    (failsAtName kind problem key place : Outcome α).FailsOnly P :=
  (placeOf_failsOnly hkey place).bind fun _ _ => fails_failsOnly hstep _ _ _

theorem mustBeNew_failsOnly (hkey : Named P key.toValue) (entries : List (Key × Value))
    (place : Path) : (mustBeNew key entries place).FailsOnly P := by
  unfold mustBeNew
  split
  · exact failsAtName_failsOnly hstep _ _ hkey place
  · exact failsOnly_ok _

theorem mustBeUndeclared_failsOnly (hkey : Named P key.toValue) (members : List (Member Field))
    (place : Path) : (mustBeUndeclared key members place).FailsOnly P := by
  unfold mustBeUndeclared
  split
  · exact failsAtName_failsOnly hstep _ _ hkey place
  · exact failsOnly_ok _

theorem memberOf_failsOnly (hkey : Named P key.toValue) (members : List (Member Field))
    (place : Path) : (memberOf key members place).FailsOnly P := by
  unfold memberOf
  split
  · exact failsOnly_ok _
  · exact failsAtName_failsOnly hstep _ _ hkey place

/-! ## Values -/

theorem entriesOf_meets (hv : V v) : (entriesOf v place).Meets P fun es => V (.object es) := by
  unfold entriesOf
  split
  · exact meets_ok hv
  · exact meets_error (hstep _)

/-- Whatever a conversion gives has been checked. -/
theorem convert_meets {run : Value → Except Fault Value} {label : String}
    (hrun : ∀ v f, run v = .error f → f.isRefusal = true ∨ P (.fault f)) :
    (convert run label v place).Meets P Value.Checked := by
  unfold convert
  simp only
  split
  · next f hf =>
    split
    · exact meets_error (hstep _)
    · next hrefusal => exact meets_error ((hrun v f hf).resolve_left hrefusal)
  · split
    · next hchecked => exact meets_ok hchecked
    · exact meets_error (hstep _)

theorem unlessAbsent_meets {field : Option Field} {present : Value → Outcome Value}
    (hkey : Named P key.toValue) (hentries : V (.object entries))
    (h : ∀ w, Entries.find? key entries = some w → (present w).Meets P V) :
    (unlessAbsent field key entries place present).Meets P V := by
  unfold unlessAbsent
  split
  · next w hw => exact h w hw
  · split
    · exact meets_ok hentries
    · exact ⟨failsAtName_failsOnly hstep _ _ hkey place, fun w hw => by
        obtain ⟨_, -, hw⟩ := bind_eq_ok.mp hw
        cases hw⟩

theorem gather_failsOnly {field : Option Field} {names : List Value}
    (hnames : ∀ name ∈ names, Named P name) : (gather field entries place names).FailsOnly P := by
  induction names with
  | nil => exact failsOnly_ok _
  | cons name rest ih =>
    obtain ⟨hname, hrest⟩ := List.forall_mem_cons.mp hnames
    refine (keyOf_failsOnly hname).bind fun key hkey => ?_
    simp only
    split
    · exact (ih hrest).bind fun _ _ => failsOnly_ok _
    · split
      · exact (ih hrest).bind fun _ _ => failsOnly_ok _
      · exact (failsAtName_failsOnly hstep _ _ (hname.toKey hkey) place).bind fun _ _ =>
          (ih hrest).bind fun _ _ => failsOnly_ok _

theorem putParts_meets (hV : Value.Hereditary K V) {targets : List (Key × Field)}
    {parts : List Value} (htargets : ∀ target ∈ targets, Named P target.1.toValue ∧ K target.1)
    (hparts : ∀ part ∈ parts, V part) (hentries : V (.object entries)) :
    (putParts place targets parts entries).Meets P fun es => V (.object es) := by
  induction targets generalizing parts entries with
  | nil => exact meets_ok hentries
  | cons target rest ih =>
    obtain ⟨⟨hname, hkey⟩, hrest⟩ := List.forall_mem_cons.mp htargets
    cases parts with
    | nil => exact meets_ok hentries
    | cons part parts =>
      obtain ⟨hpart, hmore⟩ := List.forall_mem_cons.mp hparts
      exact (mustBeNew_failsOnly hstep hname entries place).bind_meets fun _ _ =>
        ih hrest hmore (hV.put hentries hkey hpart)

end Refusals

/-- At the end of its path a step keeps to what its parts keep to. -/
theorem onValue_meets {s : Step} (hP : Walkable P K V) (hchecked : ∀ w : Value, w.Checked → V w)
    (hs : s.Allowed P K V) {field : Option Field} (hv : V v) :
    (s.onValue v field place).Meets P V := by
  have hnames := hs.names
  have hgives := hs.gives
  have hadds := hs.adds
  have hfunctions := hs.functions
  cases s with
  | add path name newField value =>
    have hname := hnames name List.mem_cons_self
    exact (entriesOf_meets hP.step hv).bind fun entries hentries =>
      (keyOf_failsOnly hname).bind_meets fun key hkey =>
        (mustBeNew_failsOnly hP.step (hname.toKey hkey) entries place).bind_meets fun _ _ =>
          meets_ok (hP.put hentries (hgives key hkey) hadds)
  | remove path name =>
    have hname := hnames name List.mem_cons_self
    exact (entriesOf_meets hP.step hv).bind fun entries hentries =>
      (keyOf_failsOnly hname).bind_meets fun key hkey =>
        unlessAbsent_meets hP.step (hname.toKey hkey) hentries fun _ _ =>
          meets_ok (hP.filter hentries _)
  | rename path old new =>
    have hold := hnames old List.mem_cons_self
    have hnew := hnames new (List.mem_cons_of_mem _ List.mem_cons_self)
    exact (entriesOf_meets hP.step hv).bind fun entries hentries =>
      (keyOf_failsOnly hold).bind_meets fun key hkey =>
        unlessAbsent_meets hP.step (hold.toKey hkey) hentries fun _ _ =>
          (keyOf_failsOnly hnew).bind_meets fun newKey hnewKey =>
            (mustBeNew_failsOnly hP.step (hnew.toKey hnewKey) entries place).bind_meets fun _ _ =>
              meets_ok (hP.rename hentries key (hgives newKey hnewKey))
  | copy path name new =>
    have hname := hnames name List.mem_cons_self
    have hnew := hnames new (List.mem_cons_of_mem _ List.mem_cons_self)
    exact (entriesOf_meets hP.step hv).bind fun entries hentries =>
      (keyOf_failsOnly hname).bind_meets fun key hkey =>
        unlessAbsent_meets hP.step (hname.toKey hkey) hentries fun w hw =>
          (keyOf_failsOnly hnew).bind_meets fun newKey hnewKey =>
            (mustBeNew_failsOnly hP.step (hnew.toKey hnewKey) entries place).bind_meets fun _ _ =>
              meets_ok (hP.put hentries (hgives newKey hnewKey) (hP.find? hentries hw))
  | retype path newField converter =>
    have hrun := hfunctions converter List.mem_cons_self
    show Meets P V (if isNull v && field.any isOptional && isOptional newField then .ok v
      else convert converter.run "converter" v place)
    split
    · exact meets_ok hv
    · exact (convert_meets hP.step hrun).imp hchecked
  | restructure path transform newField =>
    have hrun := hfunctions transform List.mem_cons_self
    exact (convert_meets hP.step hrun).imp hchecked
  | split path name targets splitter =>
    have hname := hnames name List.mem_cons_self
    have htargets : ∀ target ∈ targets, Named P target.1.toValue ∧ K target.1 := fun target ht =>
      ⟨hnames _ (List.mem_cons_of_mem _ (List.mem_map_of_mem ht)), hgives target ht⟩
    have hrun : ∀ v f, (splitter.run v).map partsOf = .error f →
        f.isRefusal = true ∨ P (.fault f) := fun v f h =>
      hfunctions splitter List.mem_cons_self v f (splitter_of_parts h)
    refine (entriesOf_meets hP.step hv).bind fun entries hentries =>
      (keyOf_failsOnly hname).bind_meets fun key hkey =>
        unlessAbsent_meets hP.step (hname.toKey hkey) hentries fun w _ =>
          (placeOf_failsOnly hname place).bind_meets fun partsPlace _ =>
            (convert_meets hP.step hrun).bind fun parts hparts => ?_
    split
    · next items =>
      have hitems : ∀ item ∈ items, V item := fun item hitem =>
        hchecked item (Value.checked_array.mp hparts item hitem)
      split
      · exact (putParts_meets hP.step hP.toHereditary htargets hitems
          (hP.filter hentries _)).bind fun _ hes => meets_ok hes
      · exact meets_error (hP.step _)
    · exact meets_error (hP.step _)
  | merge path names target newField merger =>
    have htarget := hnames target List.mem_cons_self
    have hsources : ∀ name ∈ names, Named P name := fun name hn =>
      hnames name (List.mem_cons_of_mem _ hn)
    have hrun := hfunctions merger List.mem_cons_self
    exact (entriesOf_meets hP.step hv).bind fun entries hentries =>
      (gather_failsOnly hP.step hsources).bind_meets fun _ _ =>
        (placeOf_failsOnly htarget place).bind_meets fun mergedPlace _ =>
          (convert_meets hP.step hrun).bind fun merged hmerged =>
            (keyOf_failsOnly htarget).bind_meets fun key hkey =>
              (mustBeNew_failsOnly hP.step (htarget.toKey hkey) _ place).bind_meets fun _ _ =>
                meets_ok (hP.put (hP.filter hentries _) (hgives key hkey) (hchecked _ hmerged))

/-! ## Fields -/

section Fields

variable (hstep : ∀ e, P (.step e))

include hstep

theorem membersOf_meets {f : Field} (hf : f.Everywhere Q) :
    (membersOf f place).Meets P fun ms => ∀ m ∈ ms, m.field.Everywhere Q := by
  unfold membersOf
  split
  · exact meets_ok fun m hm => hf.objectMember hm
  · exact meets_error (hstep _)

theorem declareAll_meets {targets : List (Key × Field)}
    (htargets : ∀ target ∈ targets, Named P target.1.toValue ∧ target.2.Everywhere Q)
    (hmembers : ∀ m ∈ members, m.field.Everywhere Q) :
    (declareAll place targets members).Meets P fun ms => ∀ m ∈ ms, m.field.Everywhere Q := by
  induction targets generalizing members with
  | nil => exact meets_ok hmembers
  | cons target rest ih =>
    obtain ⟨⟨hname, hfield⟩, hrest⟩ := List.forall_mem_cons.mp htargets
    refine (mustBeUndeclared_failsOnly hstep hname members place).bind_meets fun _ _ =>
      (textOf_failsOnly hname).bind_meets fun text _ => ih hrest fun m hm => ?_
    rcases Member.mem_put hm with rfl | hm
    · exact hfield
    · exact hmembers m hm

theorem withdrawAll_meets {names : List Value} (hnames : ∀ name ∈ names, Named P name)
    (hmembers : ∀ m ∈ members, m.field.Everywhere Q) :
    (withdrawAll place names members).Meets P fun ms => ∀ m ∈ ms, m.field.Everywhere Q := by
  induction names generalizing members with
  | nil => exact meets_ok hmembers
  | cons name rest ih =>
    obtain ⟨hname, hrest⟩ := List.forall_mem_cons.mp hnames
    exact (keyOf_failsOnly hname).bind_meets fun key hkey =>
      (memberOf_failsOnly hstep (hname.toKey hkey) members place).bind_meets fun _ _ =>
        ih hrest fun m hm => hmembers m (List.mem_filter.mp hm).1

theorem onField_meets {s : Step} {f : Field} (hmembers : ∀ ms, Q (.object ms))
    (hnames : ∀ name ∈ s.names, Named P name) (hfields : ∀ g ∈ s.fields, g.Everywhere Q)
    (hf : f.Everywhere Q) : (s.onField f place).Meets P (Everywhere Q) := by
  have hobject : ∀ {ms : List (Member Field)}, (∀ m ∈ ms, m.field.Everywhere Q) →
      (object ms).Everywhere Q := fun h => everywhere_object (hmembers _) h
  cases s with
  | add path name newField value =>
    have hname := hnames name List.mem_cons_self
    have hfield := hfields newField List.mem_cons_self
    exact (membersOf_meets hstep hf).bind fun members hmembers =>
      (keyOf_failsOnly hname).bind_meets fun key hkey =>
        (declareAll_meets hstep (List.forall_mem_singleton.mpr ⟨hname.toKey hkey, hfield⟩)
          hmembers).bind fun _ h => meets_ok (hobject h)
  | remove path name =>
    have hname := hnames name List.mem_cons_self
    exact (membersOf_meets hstep hf).bind fun members hmembers =>
      (keyOf_failsOnly hname).bind_meets fun key hkey =>
        (memberOf_failsOnly hstep (hname.toKey hkey) members place).bind_meets fun _ _ =>
          meets_ok (hobject fun m hm => hmembers m (List.mem_filter.mp hm).1)
  | rename path old new =>
    have hold := hnames old List.mem_cons_self
    have hnew := hnames new (List.mem_cons_of_mem _ List.mem_cons_self)
    refine (membersOf_meets hstep hf).bind fun members hmembers =>
      (keyOf_failsOnly hold).bind_meets fun key hkey =>
        (memberOf_failsOnly hstep (hold.toKey hkey) members place).bind_meets fun _ _ =>
          (keyOf_failsOnly hnew).bind_meets fun newKey hnewKey =>
            (mustBeUndeclared_failsOnly hstep (hnew.toKey hnewKey) members place).bind_meets
              fun _ _ => (textOf_failsOnly (hnew.toKey hnewKey)).bind_meets
                fun _ _ => meets_ok (hobject fun m hm => ?_)
    obtain ⟨n, hn, hfield⟩ := Member.exists_of_mem_renamed hm
    exact hfield ▸ hmembers n hn
  | copy path name new =>
    have hname := hnames name List.mem_cons_self
    have hnew := hnames new (List.mem_cons_of_mem _ List.mem_cons_self)
    refine (membersOf_meets hstep hf).bind fun members hmembers =>
      (keyOf_failsOnly hname).bind_meets fun key hkey =>
        (memberOf_failsOnly hstep (hname.toKey hkey) members place).bind_meets fun n hn =>
          (keyOf_failsOnly hnew).bind_meets fun newKey hnewKey =>
            (mustBeUndeclared_failsOnly hstep (hnew.toKey hnewKey) members place).bind_meets
              fun _ _ => (textOf_failsOnly (hnew.toKey hnewKey)).bind_meets
                fun _ _ => meets_ok (hobject fun m hm => ?_)
    obtain ⟨_, -, hfind⟩ := memberOf_eq_ok.mp hn
    rcases Member.mem_put hm with rfl | hm
    · exact hmembers n (Member.mem_of_find? hfind)
    · exact hmembers m hm
  | retype path newField converter => exact meets_ok (hfields newField List.mem_cons_self)
  | restructure path transform newField => exact meets_ok (hfields newField List.mem_cons_self)
  | split path name targets splitter =>
    have hname := hnames name List.mem_cons_self
    have htargets : ∀ target ∈ targets, Named P target.1.toValue ∧ target.2.Everywhere Q :=
      fun target ht => ⟨hnames _ (List.mem_cons_of_mem _ (List.mem_map_of_mem ht)),
        hfields _ (List.mem_map_of_mem ht)⟩
    exact (membersOf_meets hstep hf).bind fun members hmembers =>
      (keyOf_failsOnly hname).bind_meets fun key hkey =>
        (memberOf_failsOnly hstep (hname.toKey hkey) members place).bind_meets fun _ _ =>
          (declareAll_meets hstep htargets fun m hm =>
            hmembers m (List.mem_filter.mp hm).1).bind fun _ h => meets_ok (hobject h)
  | merge path names target newField merger =>
    have htarget := hnames target List.mem_cons_self
    have hfield := hfields newField List.mem_cons_self
    have hsources : ∀ name ∈ names, Named P name := fun name hn =>
      hnames name (List.mem_cons_of_mem _ hn)
    exact (membersOf_meets hstep hf).bind fun members hmembers =>
      (withdrawAll_meets hstep hsources hmembers).bind fun rest hrest =>
        (keyOf_failsOnly htarget).bind_meets fun key hkey =>
          (declareAll_meets hstep (List.forall_mem_singleton.mpr ⟨htarget.toKey hkey, hfield⟩)
            hrest).bind fun _ h => meets_ok (hobject h)

end Fields

/-! ## Whole documents and whole trees -/

variable [Externals]

section Whole

variable {s : Step} (hP : Walkable P K V) (hchecked : ∀ w : Value, w.Checked → V w)
variable (hs : s.Allowed P K V)

include hP hchecked hs

omit [Externals] in
theorem apply_meets {field : Option Field} (hv : V v) : (s.apply v field).Meets P V :=
  onValueAt_meets hP (fun _ _ _ => onValue_meets hP hchecked hs) hv

theorem transformField_meets (hQ : Rebuildable P V Q) (hfields : ∀ g ∈ s.fields, g.Everywhere Q)
    {f : Field} (hf : f.Everywhere Q) : (s.transformField f).Meets P (Everywhere Q) :=
  onFieldAt_meets hP hQ (fun _ _ _ => onValue_meets hP hchecked hs)
    (fun _ _ => onField_meets hP.step hQ.members hs.names hfields) hf

end Whole

end Step
end Lineage
