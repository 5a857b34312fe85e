import Lineage.Proofs.Change.Walk

/-
A default is changed as the value of a document is.

The walk over a field tree changes a default beside the field that the default is for, while
the walk over a document comes to the value that spells it out with the default around that
field.  The two can part over null alone, which the default lets the walk over a document pass
over.  Beside the inner field null is passed over as well, or else it is refused: nothing lies
inside it, and a change that looks through wrappers does not take it.
-/

namespace Lineage

/-! ## What stands under keys -/

/-- The field under a list of keys; what is around an object on the way is looked through. -/
def Field.under? : List Segment → Field → Option Field
  | [], f => some f
  | key :: keys, f =>
    match f.unwrapped with
    | .object members => (Member.find? key.text members).bind fun m => under? keys m.field
    | _ => none

/-- The value under a list of keys. -/
def Value.under? : List Segment → Value → Option Value
  | [], v => some v
  | key :: keys, .object entries => (Entries.find? (.text key.text) entries).bind (under? keys)
  | _ :: _, _ => none

/-- The place under a list of keys. -/
def Path.under (keys : List Segment) (path : Path) : Path :=
  keys.foldl (fun place key => place.key key.text) path

section Under

variable {key : Segment} {keys : List Segment} {f g : Field} {u v : Value}

theorem Field.under?_cons_eq_some :
    f.under? (key :: keys) = some g ↔ ∃ members m, f.unwrapped = .object members ∧
      Member.find? key.text members = some m ∧ m.field.under? keys = some g := by
  rw [Field.under?]
  constructor
  · intro h
    split at h
    · next members hmembers =>
      obtain ⟨m, hm, hg⟩ := Option.bind_eq_some_iff.mp h
      exact ⟨members, m, hmembers, hm, hg⟩
    · cases h
  · rintro ⟨members, m, hmembers, hm, hg⟩
    rw [hmembers]
    exact Option.bind_eq_some_iff.mpr ⟨m, hm, hg⟩

theorem Value.under?_cons_eq_some :
    v.under? (key :: keys) = some u ↔ ∃ entries child, v = .object entries ∧
      Entries.find? (.text key.text) entries = some child ∧ child.under? keys = some u := by
  constructor
  · intro h
    cases v with
    | object entries =>
      obtain ⟨child, hchild, hu⟩ := Option.bind_eq_some_iff.mp h
      exact ⟨entries, child, rfl, hchild, hu⟩
    | _ => cases h
  · rintro ⟨entries, child, rfl, hchild, hu⟩
    exact Option.bind_eq_some_iff.mpr ⟨child, hchild, hu⟩

end Under

namespace Change

open Lineage.Field

variable {c : Change} {keys rest : List Segment} {f f' g inner : Field} {place : Path}
variable {u v w value : Value}

/-- A walk over a value that leads through keys changes what is under them. -/
theorem onValueAt_under (hf : f.under? keys = some g) (hv : v.under? keys = some u)
    (h : c.onValueAt (keys ++ rest) (some f) place v = .ok w) :
    ∃ u', c.onValueAt rest (some g) (place.under keys) u = .ok u' ∧ w.under? keys = some u' := by
  induction keys generalizing f place v w with
  | nil =>
    cases hf
    cases hv
    exact ⟨w, h, rfl⟩
  | cons key keys ih =>
    obtain ⟨members, m, hmembers, hm, hg⟩ := under?_cons_eq_some.mp hf
    obtain ⟨entries, child, rfl, hchild, hu⟩ := Value.under?_cons_eq_some.mp hv
    rw [List.cons_append, onValueAt_object, hchild] at h
    obtain ⟨child', hchanged, h⟩ := Outcome.bind_eq_ok.mp h
    cases h
    have hfield : memberField ((some f).map unwrapped) key.text = some m.field := by
      rw [Option.map_some, hmembers]
      exact congrArg (Option.map Member.field) hm
    rw [hfield] at hchanged
    obtain ⟨u', hu', hafter⟩ := ih hg hu hchanged
    refine ⟨u', hu', Value.under?_cons_eq_some.mpr ⟨_, child', rfl, ?_, hafter⟩⟩
    rw [Entries.find?_put, if_pos rfl]

variable [Externals]

/-- A walk over a field tree that leads through keys changes what is under them. -/
theorem onFieldAt_under (hf : f.under? keys = some g)
    (h : c.onFieldAt (keys ++ rest) place f = .ok f') :
    ∃ g', c.onFieldAt rest (place.under keys) g = .ok g' ∧ f'.under? keys = some g' := by
  induction keys generalizing f f' place with
  | nil =>
    cases hf
    exact ⟨f', h, rfl⟩
  | cons key keys ih =>
    obtain ⟨members, m, hmembers, hm, hg⟩ := under?_cons_eq_some.mp hf
    obtain ⟨u, hu, hunwrapped⟩ := core_of_throughWrappers h
    rw [hmembers] at hu
    cases descend_eq_ok.mp hu with
    | @member _ n child hn hchanged =>
      obtain rfl : n = m := Option.some.inj (hn.symm.trans hm)
      obtain ⟨g', hg', hafter⟩ := ih hg hchanged
      obtain ⟨m', hm', hfield⟩ : ∃ m', Member.find? key.text (Member.replaced n child members) =
          some m' ∧ m'.field = child := by
        rw [Member.replaced, Member.find?_put, if_pos (Member.name_of_find? hm)]
        exact ⟨_, rfl, rfl⟩
      exact ⟨g', hg', under?_cons_eq_some.mpr ⟨_, m', hunwrapped, hm', hfield ▸ hafter⟩⟩

/-- A walk over a default field changes the default beside the field inside, and what it
leaves there conforms to what that field becomes. -/
theorem onFieldAt_defaulted (hlook : c.LooksThrough rest)
    (h : c.onFieldAt rest place (.defaulted inner value) = .ok f') :
    ∃ inner' value', c.onValueAt rest (some inner) place value = .ok value' ∧
      inner'.check {} value' = .ok [] ∧ f' = .defaulted inner' value' := by
  cases rest with
  | nil =>
    unfold onFieldAt at h
    rw [if_pos (hlook.resolve_left (absurd rfl))] at h
    obtain ⟨inner', value', -, hvalue, hsuits, hf'⟩ := throughWrappers_defaulted h
    exact ⟨inner', value', hvalue, hsuits.valid, hf'⟩
  | cons segment rest =>
    obtain ⟨inner', value', -, hvalue, hsuits, hf'⟩ := throughWrappers_defaulted h
    exact ⟨inner', value', hvalue, hsuits.valid, hf'⟩

/-- No change of null gives a value. -/
def RefusesNull (c : Change) : Prop := ∀ field place w, c.onValue .null field place ≠ .ok w

omit [Externals] in
/-- If the walk gives a value for null, it has passed over it. -/
theorem onValueAt_null (hlook : c.LooksThrough rest)
    (hnull : c.through = true → c.RefusesNull)
    (h : c.onValueAt rest (some f) place .null = .ok w) : w = .null := by
  cases hskipped : isSkipped (some f) .null with
  | true =>
    rw [onValueAt_of_skipped hlook hskipped] at h
    exact (Except.ok.inj h).symm
  | false =>
    cases rest with
    | nil =>
      have hthrough := hlook.resolve_left (absurd rfl)
      rw [onValueAt, hthrough, hskipped] at h
      exact absurd h (hnull hthrough _ _ _)
    | cons segment rest =>
      refine absurd h (onValueAt_ne_ok hskipped ?_ ?_)
      · rintro entries ⟨⟩
      · rintro items ⟨⟩

omit [Externals] in
/-- Beside a default field a value becomes what it becomes beside the field inside. -/
theorem onValueAt_defaulted (hlook : c.LooksThrough rest)
    (hnull : c.through = true → c.RefusesNull)
    (hinner : c.onValueAt rest (some inner) place v = .ok u)
    (h : c.onValueAt rest (some (.defaulted inner value)) place v = .ok w) : w = u := by
  by_cases hv : v = .null
  · subst hv
    rw [onValueAt_null hlook hnull hinner, onValueAt_null hlook hnull h]
  · rw [onValueAt_inner hlook (.defaulted inner value) inner rfl hv] at h
    exact Except.ok.inj (h.symm.trans hinner)

end Change
end Lineage
