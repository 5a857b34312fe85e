import Lineage.Change
import Lineage.Proofs.Alongside
import Lineage.Proofs.Field.Constructed
import Lineage.Proofs.Field.Members
import Lineage.Proofs.Path.Selector

/-
The walk of a change, one step at a time.

What the walk over a field tree makes of wrappers and of a container is said here once, and so
is what the walk over a value makes of a container beside a field.  All that is proved about
whole paths goes by induction on the path with these steps.
-/

namespace Lineage

namespace Field

/-! ## The ends of a path -/

/-- The fields that a segment selects inside a field without wrappers. -/
def inside (segment : Segment) : Field → List Field
  | object members => ((Member.find? segment.text members).map Member.field).toList
  | array element _ _ => if segment = .wildcard then [element] else []
  | tuple items =>
    if segment = .wildcard then items
    else
      match segment.resolve items.length with
      | .ok (some i) => items[i]?.toList
      | _ => []
  | _ => []

/-- The fields at the end of a path, with the wrappers around them. -/
def targets : List Segment → Field → List Field
  | [], f => [f]
  | segment :: rest, f => (f.unwrapped.inside segment).flatMap (targets rest)

theorem mem_inside_object {segment : Segment} {members : List (Member Field)} {m : Member Field}
    (h : Member.find? segment.text members = some m) :
    m.field ∈ (object members).inside segment := by
  rw [inside, h]
  exact List.mem_singleton.mpr rfl

theorem mem_inside_tuple {segment : Segment} {items : List Field} {i : Nat} {g : Field}
    (hsegment : segment ≠ .wildcard) (hi : segment.resolve items.length = .ok (some i))
    (hg : items[i]? = some g) : g ∈ (tuple items).inside segment := by
  rw [inside, if_neg hsegment, hi]
  simp only [hg]
  exact List.mem_singleton.mpr rfl

theorem child_of_mem_inside {segment : Segment} {f g : Field} (hg : g ∈ f.inside segment) :
    g ∈ f.children := by
  cases f with
  | object members =>
    obtain ⟨m, hm, rfl⟩ := Option.map_eq_some_iff.mp (Option.mem_toList.mp hg)
    exact List.mem_map_of_mem (Member.mem_of_find? hm)
  | array element low high =>
    by_cases hsegment : segment = .wildcard
    · rwa [inside, if_pos hsegment] at hg
    · rw [inside, if_neg hsegment] at hg
      cases hg
  | tuple items =>
    by_cases hsegment : segment = .wildcard
    · rwa [inside, if_pos hsegment] at hg
    · rw [inside, if_neg hsegment] at hg
      split at hg
      · exact List.mem_of_getElem? (Option.mem_toList.mp hg)
      · cases hg
  | _ => cases hg

end Field

namespace Change

open Lineage.Field

/-! ## Parts of containers -/

section Parts

variable {α : Type} {update : Nat → α → Outcome α} {index : Nat} {as bs : List α}

theorem updateEach_eq_ok :
    updateEach update index as = .ok bs ↔ bs.length = as.length ∧
      ∀ i a b, as[i]? = some a → bs[i]? = some b → update (index + i) a = .ok b := by
  induction as generalizing index bs with
  | nil =>
    constructor
    · rintro ⟨⟩
      exact ⟨rfl, nofun⟩
    · rintro ⟨hlength, -⟩
      rw [List.eq_nil_of_length_eq_zero hlength]
      rfl
  | cons a rest ih =>
    rw [updateEach, Outcome.bind_eq_ok]
    constructor
    · rintro ⟨b, hb, h⟩
      obtain ⟨more, hmore, h⟩ := Outcome.bind_eq_ok.mp h
      cases h
      obtain ⟨hlength, hrest⟩ := ih.mp hmore
      refine ⟨congrArg (· + 1) hlength, fun i c d hc hd => ?_⟩
      cases i with
      | zero =>
        cases hc
        cases hd
        exact hb
      | succ i =>
        rw [← Nat.add_assoc, Nat.add_right_comm]
        exact hrest i c d hc hd
    · rintro ⟨hlength, hall⟩
      cases bs with
      | nil => cases hlength
      | cons b more =>
        refine ⟨b, hall 0 a b rfl rfl,
          Outcome.bind_eq_ok.mpr ⟨more, ih.mpr ⟨Nat.succ.inj hlength, ?_⟩, rfl⟩⟩
        intro i c d hc hd
        rw [Nat.add_right_comm, Nat.add_assoc]
        exact hall (i + 1) c d hc hd

theorem updateItem_eq_ok {update : α → Outcome α} {i : Nat} {a : α} (ha : as[i]? = some a) :
    updateItem update i as = .ok bs ↔ ∃ b, update a = .ok b ∧ bs = as.set i b := by
  induction as generalizing i bs with
  | nil => cases ha
  | cons c rest ih =>
    cases i with
    | zero =>
      cases ha
      rw [updateItem, Outcome.bind_eq_ok]
      constructor
      · rintro ⟨b, hb, h⟩
        cases h
        exact ⟨b, hb, rfl⟩
      · rintro ⟨b, hb, rfl⟩
        exact ⟨b, hb, rfl⟩
    | succ i =>
      rw [updateItem, Outcome.bind_eq_ok]
      constructor
      · rintro ⟨more, hmore, h⟩
        cases h
        obtain ⟨b, hb, rfl⟩ := (ih ha).mp hmore
        exact ⟨b, hb, rfl⟩
      · rintro ⟨b, hb, rfl⟩
        exact ⟨rest.set i b, (ih ha).mpr ⟨b, hb, rfl⟩, rfl⟩

end Parts

theorem indexAt_eq_ok {segment : Segment} {length i : Nat} {path : Path} :
    indexAt segment length path = .ok i ↔ segment.resolve length = .ok (some i) := by
  unfold indexAt
  cases segment.resolve length with
  | error e => simp [fails]
  | ok found =>
    cases found with
    | none => simp [fails]
    | some j => simp

/-! ## One segment down a field -/

/-- What a change one segment down has made of a field without wrappers. -/
inductive Descends (update : Path → Field → Outcome Field) (segment : Segment) (path : Path) :
    Field → Field → Prop
  | member {members : List (Member Field)} {m : Member Field} {child : Field}
    (hm : Member.find? segment.text members = some m)
    (h : update (path.key segment.text) m.field = .ok child) :
    Descends update segment path (.object members) (.object (Member.replaced m child members))
  | element {element element' : Field} {low high : Option Number} (hsegment : segment = .wildcard)
    (h : update (path.child .wildcard) element = .ok element') :
    Descends update segment path (.array element low high) (.array element' low high)
  | items {items items' : List Field} (hsegment : segment = .wildcard)
    (hlength : items'.length = items.length)
    (h : ∀ i g g', items[i]? = some g → items'[i]? = some g' → update (path.index i) g = .ok g') :
    Descends update segment path (.tuple items) (.tuple items')
  | item {items : List Field} {i : Nat} {g g' : Field} (hsegment : segment ≠ .wildcard)
    (hi : segment.resolve items.length = .ok (some i)) (hg : items[i]? = some g)
    (h : update (path.index i) g = .ok g') :
    Descends update segment path (.tuple items) (.tuple (items.set i g'))

theorem descend_eq_ok {update : Path → Field → Outcome Field} {segment : Segment} {path : Path}
    {f f' : Field} :
    descend update segment path f = .ok f' ↔ Descends update segment path f f' := by
  constructor
  · intro h
    cases f with
    | object members =>
      unfold descend at h
      simp only at h
      split at h
      · next m hm =>
        obtain ⟨child, hchanged, h⟩ := Outcome.bind_eq_ok.mp h
        cases h
        exact .member hm hchanged
      · cases h
    | array element low high =>
      unfold descend at h
      simp only at h
      split at h
      · obtain ⟨element', hchanged, h⟩ := Outcome.bind_eq_ok.mp h
        cases h
        exact .element rfl hchanged
      · cases h
    | tuple items =>
      by_cases hsegment : segment = .wildcard
      · subst hsegment
        obtain ⟨items', hitems, h⟩ := Outcome.bind_eq_ok.mp h
        cases h
        obtain ⟨hlength, hall⟩ := updateEach_eq_ok.mp hitems
        refine .items rfl hlength fun i g g' hg hg' => ?_
        have hchanged := hall i g g' hg hg'
        rwa [Nat.zero_add] at hchanged
      · unfold descend at h
        simp only at h
        obtain ⟨i, hi, h⟩ := Outcome.bind_eq_ok.mp h
        obtain ⟨items', hitems, h⟩ := Outcome.bind_eq_ok.mp h
        cases h
        have hresolve := indexAt_eq_ok.mp hi
        obtain ⟨g, hg⟩ : ∃ g, items[i]? = some g :=
          ⟨_, List.getElem?_eq_getElem (resolve_lt hresolve)⟩
        obtain ⟨g', hg', rfl⟩ := (updateItem_eq_ok hg).mp hitems
        exact .item hsegment hresolve hg hg'
    | _ => cases h
  · intro h
    cases h with
    | member hm h =>
      unfold descend
      simp only [hm, h]
      rfl
    | element hsegment h =>
      subst hsegment
      exact Outcome.bind_eq_ok.mpr ⟨_, h, rfl⟩
    | items hsegment hlength h =>
      subst hsegment
      refine Outcome.bind_eq_ok.mpr ⟨_, updateEach_eq_ok.mpr ⟨hlength, ?_⟩, rfl⟩
      intro i g g' hg hg'
      rw [Nat.zero_add]
      exact h i g g' hg hg'
    | item hsegment hi hg h =>
      unfold descend
      simp only
      exact Outcome.bind_eq_ok.mpr ⟨_, indexAt_eq_ok.mpr hi,
        Outcome.bind_eq_ok.mpr ⟨_, (updateItem_eq_ok hg).mpr ⟨_, h, rfl⟩, rfl⟩⟩

variable [Externals]

section Walk

variable {c : Change} {segment : Segment} {segments rest : List Segment} {f f' : Field}
variable {path : Path} {v w : Value}

/-! ## Wrappers -/

omit [Externals] in
theorem isSkipped_of_ne_null (hv : v ≠ .null) (field : Option Field) :
    isSkipped field v = false := by
  unfold isSkipped
  split
  · exact absurd rfl hv
  · rfl

omit [Externals] in
theorem isSkipped_unwrapped (f : Field) (v : Value) : isSkipped (some f.unwrapped) v = false := by
  unfold isSkipped
  split
  · next g hg =>
    cases hg
    exact acceptsAbsence_unwrapped f
  · rfl

/-- Whether wrappers around the place where a path stands are looked through. -/
def LooksThrough (c : Change) (segments : List Segment) : Prop :=
  segments ≠ [] ∨ c.through = true

omit [Externals] in
theorem onValueAt_of_skipped (hlook : c.LooksThrough segments)
    (h : isSkipped (some f) v = true) : c.onValueAt segments (some f) path v = .ok v := by
  cases segments with
  | nil =>
    have hthrough := hlook.resolve_left (absurd rfl)
    rw [onValueAt, hthrough, h]
    rfl
  | cons segment rest =>
    rw [onValueAt, if_pos h]

omit [Externals] in
theorem onValueAt_unwrapped (hlook : c.LooksThrough segments)
    (h : isSkipped (some f) v = false) :
    c.onValueAt segments (some f) path v = c.onValueAt segments (some f.unwrapped) path v := by
  cases segments with
  | nil =>
    have hthrough := hlook.resolve_left (absurd rfl)
    rw [onValueAt, onValueAt, hthrough, h, isSkipped_unwrapped, Option.map_some, Option.map_some,
      unwrapped_unwrapped]
    rfl
  | cons segment rest =>
    rw [onValueAt, onValueAt, h, isSkipped_unwrapped, Option.map_some, Option.map_some,
      unwrapped_unwrapped]

theorem refit_eq_ok {inner f : Field} {value : Value} (h : refit inner value path = .ok f) :
    makeDefaulted (.field inner) value = .ok f := by
  unfold refit at h
  split at h
  · cases h
  · exact h

/-- A default is changed beside the field that it is for, and suits what that becomes. -/
theorem throughWrappers_defaulted {core : Field → Outcome Field}
    {onDefault : Field → Value → Outcome Value} {inner : Field} {value : Value}
    (h : throughWrappers core onDefault path (.defaulted inner value) = .ok f') :
    ∃ inner' value', throughWrappers core onDefault path inner = .ok inner' ∧
      onDefault inner value = .ok value' ∧ inner'.Suits value' ∧
      f' = .defaulted inner' value' := by
  obtain ⟨inner', hinner, h⟩ := Outcome.bind_eq_ok.mp h
  obtain ⟨value', hvalue, h⟩ := Outcome.bind_eq_ok.mp h
  obtain ⟨hchecked, hvalid, rfl⟩ := makeDefaulted_eq_ok (refit_eq_ok h)
  exact ⟨inner', value', hinner, hvalue, ⟨hchecked, hvalid⟩, rfl⟩

theorem throughWrappers_of_bare {core : Field → Outcome Field}
    {onDefault : Field → Value → Outcome Value} (h : f.acceptsAbsence = false) :
    throughWrappers core onDefault path f = core f := by
  cases f with
  | optional inner => cases h
  | defaulted inner value => cases h
  | _ => rfl

/-- A change behind wrappers is one of the field inside them all. -/
theorem core_of_throughWrappers {core : Field → Outcome Field}
    {onDefault : Field → Value → Outcome Value}
    (h : throughWrappers core onDefault path f = .ok f') :
    ∃ u, core f.unwrapped = .ok u ∧ f'.unwrapped = u.unwrapped := by
  induction f generalizing f' with
  | optional inner ih =>
    obtain ⟨changed, hchanged, h⟩ := Outcome.bind_eq_ok.mp h
    cases h
    obtain ⟨u, hu, hsame⟩ := ih hchanged
    exact ⟨u, hu, hsame⟩
  | defaulted inner value ih =>
    obtain ⟨changed, _, hchanged, -, -, rfl⟩ := throughWrappers_defaulted h
    obtain ⟨u, hu, hsame⟩ := ih hchanged
    exact ⟨u, hu, hsame⟩
  | _ => exact ⟨f', h, rfl⟩

omit [Externals] in
/-- The field around another makes no difference to a value that is not null. -/
theorem onValueAt_inner (hlook : c.LooksThrough segments) (f inner : Field)
    (hinner : f.unwrapped = inner.unwrapped) (hv : v ≠ .null) :
    c.onValueAt segments (some f) path v = c.onValueAt segments (some inner) path v := by
  rw [onValueAt_unwrapped hlook (isSkipped_of_ne_null hv _), hinner,
    ← onValueAt_unwrapped hlook (isSkipped_of_ne_null hv _)]

/-! ## One segment down a value -/

section Down

variable {members : List (Member Field)} {entries : List (Key × Value)} {m : Member Field}
variable {field : Option Field} {items : List Value}

omit [Externals]

theorem onValueAt_object (entries : List (Key × Value)) :
    c.onValueAt (segment :: rest) field path (.object entries) =
      match Entries.find? (.text segment.text) entries with
      | some child => do
        let child ← c.onValueAt rest (memberField (field.map unwrapped) segment.text)
          (path.key segment.text) child
        return .object (Entries.put (.text segment.text) child entries)
      | none =>
        if (memberField (field.map unwrapped) segment.text).any acceptsAbsence then
          .ok (.object entries)
        else
          fails .pathNotFound s!"key '{segment.text}' not found at {path.text}"
            (path.key segment.text) := by
  have hskipped : isSkipped field (.object entries) = false := by cases field <;> rfl
  rw [onValueAt, hskipped]
  exact if_neg Bool.false_ne_true

theorem onValueAt_each (items : List Value) :
    c.onValueAt (.wildcard :: rest) field path (.array items) = do
      let items ← updateEach (fun i item => c.onValueAt rest
        (itemField (field.map unwrapped) i) (path.index i) item) 0 items
      return .array items := by
  have hskipped : isSkipped field (.array items) = false := by cases field <;> rfl
  rw [onValueAt, hskipped]
  exact if_neg Bool.false_ne_true

theorem onValueAt_at (hsegment : segment ≠ .wildcard) (items : List Value) :
    c.onValueAt (segment :: rest) field path (.array items) = do
      let i ← indexAt segment items.length path
      let items ← updateItem (c.onValueAt rest (itemField (field.map unwrapped) i)
        (path.index i)) i items
      return .array items := by
  have hskipped : isSkipped field (.array items) = false := by cases field <;> rfl
  rw [onValueAt, hskipped, if_neg Bool.false_ne_true]
  simp only

theorem onValueAt_present (hm : Member.find? segment.text members = some m)
    (hv : Entries.find? (.text segment.text) entries = some v) :
    c.onValueAt (segment :: rest) (some (.object members)) path (.object entries) = do
      let w ← c.onValueAt rest (some m.field) (path.key segment.text) v
      return .object (Entries.put (.text segment.text) w entries) := by
  rw [onValueAt_object, hv]
  simp only [Option.map_some, unwrapped, memberField, hm]

theorem onValueAt_absent (hm : Member.find? segment.text members = some m)
    (hnone : Entries.find? (.text segment.text) entries = none)
    (habsence : m.field.acceptsAbsence = true) :
    c.onValueAt (segment :: rest) (some (.object members)) path (.object entries) =
      .ok (.object entries) := by
  rw [onValueAt_object, hnone]
  simp only [Option.map_some, unwrapped, memberField, hm, Option.any_some, habsence, if_true]

theorem onValueAt_wildcard (hf : f.unwrapped = f) :
    c.onValueAt (.wildcard :: rest) (some f) path (.array items) = do
      let items ← updateEach (fun i item => c.onValueAt rest (itemField (some f) i)
        (path.index i) item) 0 items
      return .array items := by
  rw [onValueAt_each, Option.map_some, hf]

theorem onValueAt_item (hf : f.unwrapped = f) (hsegment : segment ≠ .wildcard) {i : Nat}
    (hi : segment.resolve items.length = .ok (some i)) :
    c.onValueAt (segment :: rest) (some f) path (.array items) = do
      let items ← updateItem (c.onValueAt rest (itemField (some f) i) (path.index i)) i items
      return .array items := by
  rw [onValueAt_at hsegment, indexAt_eq_ok.mpr hi, Option.map_some, hf, Outcome.ok_bind]

/-- Nothing lies inside a value that is no container. -/
theorem onValueAt_ne_ok (hskipped : isSkipped field v = false) (hobject : ∀ es, v ≠ .object es)
    (harray : ∀ items, v ≠ .array items) :
    c.onValueAt (segment :: rest) field path v ≠ .ok w := by
  have hnone : noContainer v path ≠ .ok w := by
    unfold noContainer
    split
    · exact nofun
    · exact nofun
  rw [onValueAt, hskipped, if_neg Bool.false_ne_true]
  cases v with
  | object entries => exact absurd rfl (hobject entries)
  | array items => exact absurd rfl (harray items)
  | _ => exact hnone

end Down

end Walk

end Change
end Lineage
