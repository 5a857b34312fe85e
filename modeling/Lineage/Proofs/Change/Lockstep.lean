import Lineage.Proofs.Change.Walk

/-
A field beside a value only adds places that are passed over.

Where the walk over a value gives a value without a field beside it, each place on its path
is there and holds a container.  A field passes over null and over what is absent, so it has
nothing to pass over there, and what it describes makes no difference on the way.
-/

namespace Lineage
namespace Value

/-- The values that a segment selects inside a container. -/
def inside (segment : Segment) : Value → List Value
  | object entries => (Entries.find? (.text segment.text) entries).toList
  | array items =>
    if segment = .wildcard then items
    else
      match segment.resolve items.length with
      | .ok (some i) => items[i]?.toList
      | _ => []
  | _ => []

/-- The values at the end of a path. -/
def targets : List Segment → Value → List Value
  | [], v => [v]
  | segment :: rest, v => (v.inside segment).flatMap (targets rest)

theorem mem_inside_object {segment : Segment} {entries : List (Key × Value)} {v : Value}
    (h : Entries.find? (.text segment.text) entries = some v) :
    v ∈ (object entries).inside segment := by
  rw [inside, h]
  exact List.mem_singleton.mpr rfl

theorem mem_inside_array {segment : Segment} {items : List Value} {i : Nat} {v : Value}
    (hsegment : segment ≠ .wildcard) (hi : segment.resolve items.length = .ok (some i))
    (hv : items[i]? = some v) : v ∈ (array items).inside segment := by
  rw [inside, if_neg hsegment, hi]
  simp only [hv]
  exact List.mem_singleton.mpr rfl

end Value

namespace Change

open Outcome

variable {c : Change} {segment : Segment} {segments rest : List Segment} {place : Path}
variable {field : Option Field} {v w : Value}

/-! ## Parts of containers -/

section Parts

variable {α : Type} {as bs : List α} {index i : Nat}

/-- An update that agrees with another wherever that gives a value. -/
theorem updateEach_of_updateEach {update update' : Nat → α → Outcome α}
    (h : ∀ i, ∀ a ∈ as, ∀ b, update i a = .ok b → update' i a = .ok b)
    (hupdate : updateEach update index as = .ok bs) : updateEach update' index as = .ok bs := by
  induction as generalizing index bs with
  | nil => exact hupdate
  | cons a rest ih =>
    obtain ⟨b, hb, hmore⟩ := bind_eq_ok.mp hupdate
    obtain ⟨more, hrest, hmore⟩ := bind_eq_ok.mp hmore
    have hlater := ih (fun i a ha => h i a (List.mem_cons_of_mem _ ha)) hrest
    rw [updateEach, h index a List.mem_cons_self b hb, ok_bind, hlater]
    exact hmore

theorem updateItem_of_updateItem {update update' : α → Outcome α} {a : α} (ha : as[i]? = some a)
    (h : ∀ b, update a = .ok b → update' a = .ok b) (hupdate : updateItem update i as = .ok bs) :
    updateItem update' i as = .ok bs := by
  obtain ⟨b, hb, rfl⟩ := (updateItem_eq_ok ha).mp hupdate
  exact (updateItem_eq_ok ha).mpr ⟨b, h b hb, rfl⟩

end Parts

/-! ## Whole paths -/

/-- What is asked of a change at the end of its path: where it gives a value without a field,
it gives the same value with any, and no wrapper passes that place over. -/
def IgnoresField (c : Change) (v : Value) : Prop :=
  ∀ place w, c.onValue v none place = .ok w →
    (c.through = true → v ≠ .null) ∧ ∀ field, c.onValue v field place = .ok w

/-- A walk without a field that gives a value gives the same value with any field beside it,
whether or not that describes the value. -/
theorem onValueAt_of_undescribed (hend : ∀ u ∈ v.targets segments, c.IgnoresField u)
    (h : c.onValueAt segments none place v = .ok w) (field : Option Field) :
    c.onValueAt segments field place v = .ok w := by
  induction segments generalizing field place v w with
  | nil =>
    have hend := hend v (List.mem_singleton.mpr rfl) place w
    unfold onValueAt at h ⊢
    cases hthrough : c.through with
    | false =>
      rw [hthrough] at h
      exact (hend h).2 field
    | true =>
      rw [hthrough] at h
      obtain ⟨hnull, hsame⟩ := hend h
      rw [isSkipped_of_ne_null (hnull hthrough)]
      exact hsame _
  | cons segment rest ih =>
    have hinside : ∀ u ∈ v.inside segment, ∀ t ∈ u.targets rest, c.IgnoresField t :=
      fun u hu t ht => hend t (List.mem_flatMap.mpr ⟨u, hu, ht⟩)
    cases v with
    | object entries =>
      rw [onValueAt_object] at h ⊢
      split at h
      · next child hchild =>
        obtain ⟨u, hu, h⟩ := bind_eq_ok.mp h
        rw [ih (hinside child (Value.mem_inside_object hchild)) hu _, ok_bind]
        exact h
      · cases h
    | array items =>
      by_cases hsegment : segment = .wildcard
      · subst hsegment
        rw [onValueAt_each] at h ⊢
        obtain ⟨us, hus, h⟩ := bind_eq_ok.mp h
        have hsame : ∀ i, ∀ a ∈ items, ∀ b,
            c.onValueAt rest (itemField none i) (place.index i) a = .ok b →
              c.onValueAt rest (itemField (field.map Field.unwrapped) i) (place.index i) a = .ok b :=
          fun i a ha b hb => ih (hinside a ha) hb _
        rw [updateEach_of_updateEach hsame hus, ok_bind]
        exact h
      · rw [onValueAt_at hsegment] at h ⊢
        obtain ⟨i, hi, h⟩ := bind_eq_ok.mp h
        obtain ⟨us, hus, h⟩ := bind_eq_ok.mp h
        have hresolve := indexAt_eq_ok.mp hi
        obtain ⟨a, ha⟩ : ∃ a, items[i]? = some a :=
          ⟨_, List.getElem?_eq_getElem (resolve_lt hresolve)⟩
        have hmem := Value.mem_inside_array hsegment hresolve ha
        rw [hi, ok_bind, updateItem_of_updateItem ha (fun b hb => ih (hinside a hmem) hb _) hus,
          ok_bind]
        exact h
    | _ => exact absurd h (onValueAt_ne_ok rfl nofun nofun)

end Change
end Lineage
