import Lineage.Format.Email
import Lineage.Proofs.Change.Places
import Lineage.Proofs.Step.Values

/-
A step on keys moves the keys of an object and the names that its field declares together.

The step reshapes the entries of an object and the members of its field by different means.
Where the keys are the names in their order, each reshaping appends, drops or replaces the same
ones, so that the keys are the names in their order again, and every other key keeps its value.
-/

namespace Lineage

open Lineage.Field

/-- Entries whose keys are the names of members in their order, each once. -/
structure InStep (members : List (Member Field)) (entries : List (Key × Value)) : Prop where
  keys : entries.map Prod.fst = (Member.names members).map .text
  nodup : (Member.names members).Nodup

namespace InStep

variable {members members' : List (Member Field)} {entries entries' : List (Key × Value)}
variable {m : Member Field} {name old new : String}

theorem key_mem_iff (h : InStep members entries) :
    (∃ e ∈ entries, e.1 = .text name) ↔ name ∈ Member.names members := by
  have hmem : Key.text name ∈ entries.map Prod.fst ↔ name ∈ Member.names members := by
    rw [h.keys]
    constructor
    · intro hkey
      obtain ⟨other, hother, hsame⟩ := List.mem_map.mp hkey
      cases hsame
      exact hother
    · exact List.mem_map_of_mem
  rw [← hmem, List.mem_map]

theorem absent_iff (h : InStep members entries) :
    Entries.find? (.text name) entries = none ↔ Member.find? name members = none := by
  rw [Entries.find?_eq_none, Member.find?_eq_none, ← h.key_mem_iff]
  exact ⟨fun hnone ⟨e, he, hkey⟩ => hnone e he hkey, fun hnone e he hkey => hnone ⟨e, he, hkey⟩⟩

theorem present (h : InStep members entries) (hm : Member.find? name members = some m) :
    ∃ v, Entries.find? (.text name) entries = some v := by
  cases hfind : Entries.find? (.text name) entries with
  | none => exact absurd (h.absent_iff.mp hfind ▸ hm) nofun
  | some v => exact ⟨v, rfl⟩

theorem named (h : InStep members entries) : Entries.Named entries where
  distinct := by
    have hkeys : (entries.map Prod.fst).Pairwise fun k l => k.same l = false := by
      rw [h.keys, List.pairwise_map]
      exact h.nodup.imp fun hne => by simpa using hne
    exact List.pairwise_map.mp hkeys
  names e he := by
    have hkey : e.1 ∈ (Member.names members).map Key.text := h.keys ▸ List.mem_map_of_mem he
    obtain ⟨name, -, hname⟩ := List.mem_map.mp hkey
    exact ⟨name, hname.symm⟩

/-- A new key and a new name both go to the end. -/
theorem put (h : InStep members entries) (hnew : Member.find? m.name members = none) (v : Value) :
    InStep (Member.put m members) (Entries.put (.text m.name) v entries) := by
  have hname := Member.find?_eq_none.mp hnew
  rw [Member.put_of_new hname, Entries.put_of_absent (h.absent_iff.mpr hnew)]
  refine ⟨?_, ?_⟩
  · rw [Member.names, List.map_append, List.map_append, List.map_append, h.keys]
    rfl
  · rw [Member.names, List.map_append]
    refine List.nodup_append.mpr ⟨h.nodup, List.nodup_cons.mpr ⟨List.not_mem_nil, .nil⟩, ?_⟩
    rintro _ ha _ hb rfl
    exact hname (List.mem_singleton.mp hb ▸ ha)

theorem filter (h : InStep members entries) (keep : String → Bool) (keepKey : Key → Bool)
    (hkeep : ∀ name, keepKey (.text name) = keep name) :
    InStep (members.filter fun m => keep m.name) (entries.filter fun e => keepKey e.1) := by
  have hnames : Member.names (members.filter fun m => keep m.name) =
      (Member.names members).filter keep := by
    rw [Member.names, Member.names, List.filter_map]
    rfl
  have hkeys : (entries.filter fun e => keepKey e.1).map Prod.fst =
      (entries.map Prod.fst).filter keepKey := by
    rw [List.filter_map]
    rfl
  refine ⟨?_, ?_⟩
  · rw [hnames, hkeys, h.keys, List.filter_map]
    congr 1
    exact List.filter_congr fun name _ => hkeep name
  · rw [hnames]
    exact h.nodup.filter keep

theorem erase (h : InStep members entries) (name : String) :
    InStep (Member.withoutField name members) (Entries.erase (.text name) entries) := by
  refine h.filter (· != name) (fun k => !k.same (.text name)) fun other => ?_
  rw [Key.text_same_text]
  rfl

theorem rename (h : InStep members entries) (hnew : Member.find? new members = none) :
    InStep (Member.renamed old new members) (Entries.rename (.text old) (.text new) entries) := by
  refine ⟨?_, Member.nodup_renamed h.nodup hnew⟩
  have hname : ∀ m : Member Field,
      (Member.underName old new m).name = if m.name = old then new else m.name := by
    intro m
    unfold Member.underName
    split <;> rfl
  have hkey : ∀ e : Key × Value, (Entries.underKey (.text old) (.text new) e).1 =
      if e.1.same (.text old) then .text new else e.1 := fun _ => rfl
  rw [Entries.rename_of_new h.named.distinct (h.absent_iff.mpr hnew),
    Member.renamed_of_new h.nodup hnew]
  have hkeys := congrArg
    (List.map fun k : Key => if k.same (.text old) then Key.text new else k) h.keys
  simp only [Member.names, List.map_map] at hkeys ⊢
  refine Eq.trans ?_ (hkeys.trans ?_)
  · rfl
  · refine List.map_congr_left fun m _ => ?_
    simp only [Function.comp_apply, hname, Key.text_same_text, decide_eq_true_eq]
    split <;> rfl

end InStep

namespace Step

open Outcome

variable {s : Step} {place inside : Path} {members members' : List (Member Field)}
variable {entries entries' : List (Key × Value)} {f f' g : Field} {v w : Value}
variable {targets : List (Key × Field)} {texts : List String}

/-! ## Several keys at once -/

/-- Targets are declared and parts are put in the same order. -/
theorem inStep_putParts {parts : List Value} (h : InStep members entries)
    (hlength : parts.length = targets.length)
    (hput : putParts place targets parts entries = .ok entries')
    (hdeclare : declareAll inside targets members = .ok members') :
    InStep members' entries' ∧ ∀ name, .text name ∉ targets.map Prod.fst →
      Entries.find? (.text name) entries' = Entries.find? (.text name) entries := by
  induction targets generalizing parts members entries with
  | nil =>
    cases hdeclare
    cases hput
    exact ⟨h, fun _ _ => rfl⟩
  | cons target rest ih =>
    obtain ⟨key, field⟩ := target
    cases parts with
    | nil => cases hlength
    | cons part parts =>
      obtain ⟨name, rfl, hnew, hdeclare⟩ := declareAll_cons hdeclare
      obtain ⟨⟨⟩, -, hput⟩ := bind_eq_ok.mp hput
      rw [Member.withField_of_new hnew] at hdeclare
      obtain ⟨hafter, hkept⟩ := ih (h.put hnew part) (Nat.succ.inj hlength) hput hdeclare
      refine ⟨hafter, fun other hother => ?_⟩
      obtain ⟨hne, hrest⟩ := not_or.mp fun hor => hother (List.mem_cons.mpr hor)
      rw [hkept other hrest, Entries.find?_put, if_neg]
      rintro rfl
      exact hne rfl

theorem withdrawAll_eq_filter
    (h : withdrawAll place (texts.map .text) members = .ok members') :
    members' = members.filter fun m => !texts.contains m.name := by
  induction texts generalizing members with
  | nil =>
    cases h
    exact (List.filter_eq_self.mpr fun _ _ => rfl).symm
  | cons text rest ih =>
    obtain ⟨_, ⟨⟩, h⟩ := bind_eq_ok.mp h
    obtain ⟨m, hm, h⟩ := bind_eq_ok.mp h
    obtain ⟨_, ⟨⟩, hfind⟩ := memberOf_eq_ok.mp hm
    rw [ih h, Member.name_of_find? hfind, Member.withoutField, List.filter_filter]
    refine List.filter_congr fun n _ => ?_
    rw [List.contains_cons, Bool.not_or, Bool.and_comm]
    rfl

theorem gather_names {field : Option Field} {keys : List Key} {values : List Value}
    (h : gather field entries place (texts.map .text) = .ok (keys, values)) :
    keys = texts.map .text := by
  induction texts generalizing keys values with
  | nil =>
    cases h
    rfl
  | cons text rest ih =>
    obtain ⟨_, _, more, values, ⟨⟩, -, hmore, rfl, -⟩ := of_gather_cons h
    rw [List.map_cons, ih hmore]

/-! ## One object -/

/-- The names that a step on keys gives, takes or replaces; those that it only reads stay. -/
def rekeyed : Step → List Value
  | add _ name _ _ | remove _ name => [name]
  | rename _ old new => [old, new]
  | copy _ _ new => [new]
  | retype _ _ _ | restructure _ _ _ => []
  | split _ name targets _ => name :: targets.map fun target => target.1.toValue
  | merge _ names target _ _ => target :: names

/-- An object in step with its field and what the step makes of both. -/
theorem onKeys_moves_together (hthrough : s.through = true) (h : InStep members entries)
    (hv : s.onValue (.object entries) (some (.object members)) place = .ok w)
    (hf : s.onField (.object members) inside = .ok f') :
    ∃ members' entries', f' = .object members' ∧ w = .object entries' ∧
      InStep members' entries' ∧ ∀ name, .text name ∉ s.rekeyed →
        Entries.find? (.text name) entries' = Entries.find? (.text name) entries := by
  cases s with
  | add path name field value =>
    obtain ⟨text, rfl, hnew, rfl⟩ := onField_add hf
    obtain ⟨_, ⟨⟩, -, rfl⟩ := of_onValue_add hv
    rw [Member.withField_of_new hnew]
    refine ⟨_, _, rfl, rfl, h.put hnew value, fun name hname => ?_⟩
    rw [Entries.find?_put, if_neg]
    rintro rfl
    exact hname List.mem_cons_self
  | remove path name =>
    obtain ⟨text, m, rfl, hm, rfl⟩ := onField_remove hf
    obtain ⟨u, hu⟩ := h.present hm
    rw [onValue_remove hu] at hv
    cases hv
    refine ⟨_, _, rfl, rfl, h.erase text, fun name hname => ?_⟩
    rw [Entries.find?_erase, if_neg]
    rintro rfl
    exact hname List.mem_cons_self
  | rename path old new =>
    obtain ⟨text, newText, m, rfl, rfl, hm, hnew, rfl⟩ := onField_rename hf
    obtain ⟨u, hu⟩ := h.present hm
    have habsent := h.absent_iff.mpr hnew
    rw [onValue_rename hu habsent] at hv
    cases hv
    refine ⟨_, _, rfl, rfl, h.rename hnew, fun name hname => ?_⟩
    rw [Entries.rename_of_new h.named.distinct habsent, Entries.find?_map_underKey habsent, if_neg,
      if_neg]
    · rintro rfl
      exact hname List.mem_cons_self
    · rintro rfl
      exact hname (List.mem_cons_of_mem _ List.mem_cons_self)
  | copy path name new =>
    obtain ⟨text, newText, m, rfl, rfl, hm, hnew, rfl⟩ := onField_copy hf
    obtain ⟨u, hu⟩ := h.present hm
    rw [onValue_copy hu (h.absent_iff.mpr hnew)] at hv
    cases hv
    refine ⟨_, _, rfl, rfl, @InStep.put _ _ { m with name := newText } h hnew u,
      fun name hname => ?_⟩
    rw [Entries.find?_put, if_neg]
    rintro rfl
    exact hname List.mem_cons_self
  | retype | restructure => cases hthrough
  | split path name targets splitter =>
    obtain ⟨text, m, members', rfl, hm, hdeclare, rfl⟩ := onField_split hf
    obtain ⟨u, hu⟩ := h.present hm
    obtain ⟨_, ⟨⟩, hsplit⟩ := of_onValue_split hv
    obtain ⟨_, parts, entries', -, -, hlength, hput, rfl⟩ := hsplit.resolve_right fun hnone =>
      absurd (hu.symm.trans hnone.1) nofun
    obtain ⟨hafter, hkept⟩ := inStep_putParts (h.erase text) hlength hput hdeclare
    refine ⟨members', entries', rfl, rfl, hafter, fun name hname => ?_⟩
    obtain ⟨hne, hrest⟩ := not_or.mp fun hor => hname (List.mem_cons.mpr hor)
    rw [hkept name, Entries.find?_erase, if_neg]
    · rintro rfl
      exact hne rfl
    · intro hmem
      obtain ⟨target, htarget, hkey⟩ := List.mem_map.mp hmem
      exact hrest (List.mem_map.mpr ⟨target, htarget, by rw [hkey]; rfl⟩)
  | merge path names target field merger =>
    obtain ⟨text, rest, rfl, hwithdraw, hnew, rfl⟩ := onField_merge hf
    obtain ⟨texts, rfl, -⟩ := withdrawAll_eq_ok h.nodup hwithdraw
    obtain ⟨keys, values, _, merged, hgather, -, ⟨⟩, -, rfl⟩ := of_onValue_merge hv
    obtain rfl := gather_names hgather
    obtain rfl := withdrawAll_eq_filter hwithdraw
    have hcontains : ∀ name, (texts.map Key.text).any (fun k => (Key.text name).same k) =
        texts.contains name := by
      intro name
      rw [List.any_map, List.contains_eq_any_beq]
      refine List.any_congr rfl fun t => ?_
      rw [Function.comp_apply, Key.text_same_text]
      rfl
    have hfilter := h.filter (fun name => !texts.contains name)
      (fun k => !(texts.map Key.text).any fun l => k.same l) fun name => by rw [hcontains]
    rw [Member.withField_of_new hnew]
    refine ⟨_, _, rfl, rfl, hfilter.put hnew merged, fun name hname => ?_⟩
    obtain ⟨hne, hrest⟩ := not_or.mp fun hor => hname (List.mem_cons.mpr hor)
    rw [Entries.find?_put, if_neg, Entries.find?_filter
      (fun k => !(texts.map Key.text).any fun l => k.same l), if_pos]
    · rw [hcontains, Bool.not_eq_true', ← Bool.not_eq_true, List.contains_iff_mem]
      exact fun hmem => hrest (List.mem_map_of_mem hmem)
    · rintro rfl
      exact hne rfl

/-! ## Documents -/

section

variable [Externals]

/-- Wherever the path of a step on keys leads to an object of a document and to its object
field alike, and the keys are the names that the field declares in their order, each once,
there they are again after the step: the keys of the new object are the names of the new field
in their order, and every key that the step does not give, take or replace keeps its value. -/
theorem keys_follow_names {t : List Segment} (hthrough : s.through = true)
    (hv : s.apply v (some f) = .ok w) (hf : s.transformField f = .ok f')
    (hobject : v.Ends s.path.segments t (.object entries))
    (hfield : f.Ends s.path.segments t g) (hmembers : g.unwrapped = .object members)
    (h : InStep members entries) :
    ∃ g' members' entries', Change.fieldAt t (some f') = some g' ∧
      g'.unwrapped = .object members' ∧ w.at? t = some (.object entries') ∧
      InStep members' entries' ∧ ∀ name, .text name ∉ s.rekeyed →
        Entries.find? (.text name) entries' = Entries.find? (.text name) entries := by
  obtain ⟨u', hu', hat⟩ := Change.onValueAt_at_end hv hobject
  obtain ⟨inside, g', hg', hfieldAt⟩ := Change.onFieldAt_at_end hf hfield
  have hskipped := Change.isSkipped_of_ne_null (v := .object entries) nofun (some g)
  rw [hfield.fieldAt, Change.onValueAt, show s.change.through = true from hthrough, hskipped,
    Option.map_some, hmembers] at hu'
  rw [Change.onFieldAt, if_pos (show s.change.through = true from hthrough)] at hg'
  obtain ⟨x, hx, hunwrapped⟩ := Change.core_of_throughWrappers hg'
  rw [hmembers] at hx
  obtain ⟨members', entries', rfl, rfl, hafter, hkept⟩ := onKeys_moves_together hthrough h hu' hx
  exact ⟨g', members', entries', hfieldAt, hunwrapped, hat, hafter, hkept⟩

end

/-- A merge that reuses the name of one of its sources moves it to the end, in every item of a
list and in the field of the items. -/
theorem keys_follow_names_merged :
    let pair : AuthorFn := ⟨"pair", .ok⟩
    let s : Step := .merge ⟨[.key "on", .wildcard]⟩ [.text "a", .text "c"] (.text "a") .any pair
    let item : Field := .optional (.object (Member.derived [("a", .any), ("b", .any), ("c", .any)]))
    let f : Field := .object (Member.derived [("on", .array item none none)])
    let entries : List (Key × Value) :=
      [(.text "a", .int 1), (.text "b", .int 2), (.text "c", .int 3)]
    let v : Value := .object [(.text "on", .array [.null, .object entries])]
    let w : Value := .object [(.text "on", .array [.null,
      .object [(.text "b", .int 2), (.text "a", .array [.int 1, .int 3])]])]
    ∃ f', s.through = true ∧ s.apply v (some f) = .ok w ∧ s.transformField f = .ok f' ∧
      ∃ g' members' entries', Change.fieldAt [.key "on", .index 1] (some f') = some g' ∧
        g'.unwrapped = .object members' ∧
        w.at? [.key "on", .index 1] = some (.object entries') ∧ InStep members' entries' ∧
        ∀ name, .text name ∉ s.rekeyed →
          Entries.find? (.text name) entries' = Entries.find? (.text name) entries := by
  intro pair s item f entries v w
  have hv : s.apply v (some f) = .ok w := rfl
  have hf : ∃ f', s.transformField f = .ok f' := ⟨_, rfl⟩
  obtain ⟨f', hf⟩ := hf
  have hobject : v.Ends s.path.segments [.key "on", .index 1] (.object entries) :=
    .cons (.entry rfl) (.cons (.each rfl rfl) (.nil _))
  have hfield : f.Ends s.path.segments [.key "on", .index 1] item :=
    .cons (.member rfl) (.cons (.element 1 rfl) (.nil _))
  have hstep : InStep (Member.derived [("a", .any), ("b", .any), ("c", .any)]) entries :=
    ⟨rfl, by decide⟩
  exact ⟨f', rfl, hv, hf, keys_follow_names rfl hv hf hobject hfield rfl hstep⟩

end Step
end Lineage
