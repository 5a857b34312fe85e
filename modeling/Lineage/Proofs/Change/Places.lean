import Lineage.Proofs.Field.Places
import Lineage.Proofs.Value.Places

/-
A change of a value happens at the ends of its path and nowhere else.

The walk goes down one container at a time.  What it makes of a container is said once, as a
relation between the old one and the new one, for walks with a field beside the value and
without one alike.  Without a field no place is passed over, so that the walk gives a value
exactly if the whole path is there and the change gives a value at each of its ends.
-/

namespace Lineage

/-- The path to a place inside the value at a path. -/
def Path.below (path : Path) (t : List Segment) : Path := ⟨path.segments ++ t⟩

theorem Path.below_nil (path : Path) : path.below [] = path := by
  unfold below
  rw [List.append_nil]

theorem Path.below_cons (path : Path) (s : Segment) (t : List Segment) :
    path.below (s :: t) = (path.child s).below t := by
  unfold below child
  rw [List.append_assoc]
  rfl

namespace Change

open Lineage.Field Outcome

/-! ## Parts of containers -/

section Parts

variable {α : Type} {as : List α}

/-- A list of results, if there is one for each item. -/
theorem exists_each {R : Nat → α → α → Prop} (h : ∀ i a, as[i]? = some a → ∃ b, R i a b) :
    ∃ bs : List α, bs.length = as.length ∧
      ∀ i a b, as[i]? = some a → bs[i]? = some b → R i a b := by
  induction as generalizing R with
  | nil => exact ⟨[], rfl, nofun⟩
  | cons a rest ih =>
    obtain ⟨b, hb⟩ := h 0 a rfl
    obtain ⟨more, hlength, hmore⟩ := @ih (fun i => R (i + 1)) fun i c hc => h (i + 1) c hc
    refine ⟨b :: more, congrArg (· + 1) hlength, fun i c d hc hd => ?_⟩
    cases i with
    | zero =>
      cases hc
      cases hd
      exact hb
    | succ i => exact hmore i c d hc hd

end Parts

/-! ## One segment down -/

/-- What is left of a container when the parts that a segment selects are changed. -/
inductive Enters (segment : Segment) (R : Segment → Value → Value → Prop) : Value → Value → Prop
  | entry {entries : List (Key × Value)} {u u' : Value}
    (hfind : Entries.find? (.text segment.text) entries = some u) (h : R (.key segment.text) u u') :
    Enters segment R (.object entries) (.object (Entries.put (.text segment.text) u' entries))
  | each {items items' : List Value} (hsegment : segment = .wildcard)
    (hlength : items'.length = items.length)
    (h : ∀ i u u', items[i]? = some u → items'[i]? = some u' → R (.index i) u u') :
    Enters segment R (.array items) (.array items')
  | item {items : List Value} {i : Nat} {u u' : Value} (hsegment : segment ≠ .wildcard)
    (hi : segment.resolve items.length = .ok (some i)) (hu : items[i]? = some u)
    (h : R (.index i) u u') : Enters segment R (.array items) (.array (items.set i u'))

/-- A value at which the walk turns back: null or an absent key that the field lets be. -/
def PassesOver (field : Option Field) (segment : Segment) (v : Value) : Prop :=
  isSkipped field v = true ∨ ∃ entries, v = .object entries ∧
    Entries.find? (.text segment.text) entries = none ∧
    (memberField (field.map unwrapped) segment.text).any acceptsAbsence = true

theorem eq_null_of_isSkipped {field : Option Field} {v : Value} (h : isSkipped field v = true) :
    v = .null := by
  unfold isSkipped at h
  split at h
  · rfl
  · cases h

section Walk

variable {c : Change} {segment s : Segment} {segments rest t : List Segment}
variable {field : Option Field} {place : Path} {v w u : Value}
variable {R : Segment → Value → Value → Prop}

/-- What the walk gives where it comes to a container: the container itself if it passes it
over, or else what is left when the parts selected are walked. -/
theorem onValueAt_cons_eq_ok :
    c.onValueAt (segment :: rest) field place v = .ok w ↔
      PassesOver field segment v ∧ w = v ∨
      Enters segment (fun s u u' => c.onValueAt rest (partField (field.map unwrapped) s)
        (place.child s) u = .ok u') v w := by
  by_cases hskipped : isSkipped field v = true
  · obtain rfl := eq_null_of_isSkipped hskipped
    rw [onValueAt, if_pos hskipped]
    constructor
    · rintro ⟨⟩
      exact .inl ⟨.inl hskipped, rfl⟩
    · rintro (⟨-, rfl⟩ | h)
      · rfl
      · cases h
  cases v with
  | object entries =>
    rw [onValueAt_object]
    cases hfind : Entries.find? (.text segment.text) entries with
    | some u =>
      simp only
      rw [bind_eq_ok]
      constructor
      · rintro ⟨u', hu', h⟩
        cases h
        exact .inr (.entry hfind hu')
      · rintro (⟨hskip | ⟨es, hes, hnone, -⟩, -⟩ | ⟨hfind', h⟩)
        · exact absurd hskip hskipped
        · cases hes
          exact absurd (hfind.symm.trans hnone) (Option.some_ne_none u)
        · obtain rfl := Option.some.inj (hfind.symm.trans hfind')
          exact ⟨_, h, rfl⟩
    | none =>
      simp only
      constructor
      · intro h
        split at h
        · next habsence =>
          cases h
          exact .inl ⟨.inr ⟨entries, rfl, hfind, habsence⟩, rfl⟩
        · cases h
      · rintro (⟨hskip | ⟨es, hes, -, habsence⟩, rfl⟩ | ⟨hfind', -⟩)
        · exact absurd hskip hskipped
        · rw [if_pos habsence]
        · exact absurd (hfind'.symm.trans hfind) (Option.some_ne_none _)
  | array items =>
    have hpass : ¬PassesOver field segment (.array items) := by
      rintro (hskip | ⟨es, hes, -⟩)
      · exact hskipped hskip
      · cases hes
    rw [or_iff_right fun h => hpass h.1]
    by_cases hsegment : segment = .wildcard
    · subst hsegment
      rw [onValueAt_each, bind_eq_ok]
      constructor
      · rintro ⟨items', hitems, h⟩
        cases h
        obtain ⟨hlength, hall⟩ := updateEach_eq_ok.mp hitems
        refine .each rfl hlength fun i u u' hu hu' => ?_
        have hchanged := hall i u u' hu hu'
        rwa [Nat.zero_add] at hchanged
      · intro h
        cases h with
        | each _ hlength hall =>
          refine ⟨_, updateEach_eq_ok.mpr ⟨hlength, fun i u u' hu hu' => ?_⟩, rfl⟩
          rw [Nat.zero_add]
          exact hall i u u' hu hu'
        | item hne _ _ _ => exact absurd rfl hne
    · rw [onValueAt_at hsegment, bind_eq_ok]
      constructor
      · rintro ⟨i, hi, h⟩
        obtain ⟨items', hitems, h⟩ := bind_eq_ok.mp h
        cases h
        have hresolve := indexAt_eq_ok.mp hi
        obtain ⟨u, hu⟩ : ∃ u, items[i]? = some u :=
          ⟨_, List.getElem?_eq_getElem (resolve_lt hresolve)⟩
        obtain ⟨u', hu', rfl⟩ := (updateItem_eq_ok hu).mp hitems
        exact .item hsegment hresolve hu hu'
      · intro h
        cases h with
        | each hwildcard _ _ => exact absurd hwildcard hsegment
        | item _ hi hu h =>
          exact ⟨_, indexAt_eq_ok.mpr hi,
            bind_eq_ok.mpr ⟨_, (updateItem_eq_ok hu).mpr ⟨_, h, rfl⟩, rfl⟩⟩
  | _ =>
    constructor
    · intro h
      refine absurd h (onValueAt_ne_ok (Bool.eq_false_iff.mpr hskipped) ?_ ?_)
      · rintro entries ⟨⟩
      · rintro items ⟨⟩
    · rintro (⟨hskip | ⟨es, hes, -⟩, -⟩ | h)
      · exact absurd hskip hskipped
      · cases hes
      · cases h

theorem not_passesOver_of_selects (hu : v.Selects segment s u) :
    ¬PassesOver field segment v := by
  rintro (hskipped | ⟨entries, rfl, hnone, -⟩)
  · obtain rfl := eq_null_of_isSkipped hskipped
    cases hu
  · cases hu with
    | entry hfind => exact absurd (hfind.symm.trans hnone) nofun

theorem not_passesOver_none : ¬PassesOver none segment v := by
  rintro (h | ⟨_, -, -, h⟩)
  · cases h
  · cases h

/-- Without a field beside the value every container on the path is entered. -/
theorem onValueAt_cons_none_eq_ok :
    c.onValueAt (segment :: rest) none place v = .ok w ↔
      Enters segment (fun s u u' => c.onValueAt rest none (place.child s) u = .ok u') v w := by
  rw [onValueAt_cons_eq_ok, or_iff_right fun h => not_passesOver_none h.1, Option.map_none]
  simp only [partField_none]

theorem onValueAt_nil_none : c.onValueAt [] none place v = c.onValue v none place := by
  rw [onValueAt]
  cases c.through <;> rfl

/-! ## What entering changes -/

/-- A container can be entered if the segment is found and every part selected can be changed. -/
theorem exists_enters_iff :
    (∃ w, Enters segment R v w) ↔
      v.Admits segment ∧ ∀ s u, v.Selects segment s u → ∃ u', R s u u' := by
  constructor
  · rintro ⟨w, h⟩
    cases h with
    | @entry entries u u' hfind h =>
      refine ⟨⟨u, hfind⟩, fun s x hx => ?_⟩
      cases hx with
      | entry hx =>
        obtain rfl := Option.some.inj (hfind.symm.trans hx)
        exact ⟨u', h⟩
    | @each items items' hsegment hlength h =>
      refine ⟨.inl hsegment, fun s x hx => ?_⟩
      cases hx with
      | each _ hu =>
        obtain ⟨hlt, -⟩ := List.getElem?_eq_some_iff.mp hu
        exact ⟨_, h _ x _ hu (List.getElem?_eq_getElem (hlength ▸ hlt))⟩
      | item hne _ _ => exact absurd hsegment hne
    | @item items i u u' hsegment hi hu h =>
      refine ⟨.inr ⟨i, hi⟩, fun s x hx => ?_⟩
      cases hx with
      | each hwildcard _ => exact absurd hwildcard hsegment
      | item _ hj hx =>
        obtain rfl := Option.some.inj (Except.ok.inj (hi.symm.trans hj))
        obtain rfl := Option.some.inj (hu.symm.trans hx)
        exact ⟨u', h⟩
  · rintro ⟨hadmits, hall⟩
    cases v with
    | object entries =>
      obtain ⟨u, hu⟩ := hadmits
      obtain ⟨u', hu'⟩ := hall _ u (.entry hu)
      exact ⟨_, .entry hu hu'⟩
    | array items =>
      by_cases hsegment : segment = .wildcard
      · obtain ⟨items', hlength, hitems⟩ :=
          @exists_each _ items (fun i => R (.index i)) fun i u hu => hall _ u (.each hsegment hu)
        exact ⟨_, .each hsegment hlength hitems⟩
      · obtain ⟨i, hi⟩ := hadmits.resolve_left hsegment
        have hu := List.getElem?_eq_getElem (resolve_lt hi)
        obtain ⟨u', hu'⟩ := hall _ _ (.item hsegment hi hu)
        exact ⟨_, .item hsegment hi hu hu'⟩
    | _ => cases hadmits

/-- The parts selected are changed. -/
theorem Enters.part (h : Enters segment R v w) (hu : v.Selects segment s u) :
    ∃ u', R s u u' ∧ w.part? s = some u' := by
  cases h with
  | @entry entries x x' hfind h =>
    cases hu with
    | entry hu =>
      obtain rfl := Option.some.inj (hfind.symm.trans hu)
      refine ⟨x', h, ?_⟩
      show Entries.find? _ _ = _
      rw [Entries.find?_put, if_pos rfl]
  | @each items items' hsegment hlength h =>
    cases hu with
    | each _ hu =>
      obtain ⟨hlt, -⟩ := List.getElem?_eq_some_iff.mp hu
      have hu' := List.getElem?_eq_getElem (hlength ▸ hlt : _ < items'.length)
      exact ⟨_, h _ u _ hu hu', hu'⟩
    | item hne _ _ => exact absurd hsegment hne
  | @item items i x x' hsegment hi hx h =>
    cases hu with
    | each hwildcard _ => exact absurd hwildcard hsegment
    | item _ hj hu =>
      obtain rfl := Option.some.inj (Except.ok.inj (hi.symm.trans hj))
      obtain rfl := Option.some.inj (hx.symm.trans hu)
      exact ⟨x', h, List.getElem?_set_self (resolve_lt hi)⟩

/-- All other parts stay as they are. -/
theorem Enters.part_of_unselected (h : Enters segment R v w) (hu : ∀ u, ¬v.Selects segment s u) :
    w.part? s = v.part? s := by
  cases h with
  | @entry entries x x' hfind h =>
    cases s with
    | key name =>
      have hne : segment.text ≠ name := fun hname => hu x (hname ▸ .entry hfind)
      show Entries.find? _ _ = _
      rw [Entries.find?_put, if_neg hne]
      rfl
    | index i => rfl
  | @each items items' hsegment hlength h =>
    cases s with
    | key name => rfl
    | index i =>
      have hnone : items[i]? = none :=
        Option.eq_none_iff_forall_ne_some.mpr fun u hitem => hu u (.each hsegment hitem)
      show items'[i]? = items[i]?
      rw [hnone, List.getElem?_eq_none_iff, hlength]
      exact List.getElem?_eq_none_iff.mp hnone
  | @item items i x x' hsegment hi hx h =>
    cases s with
    | key name => rfl
    | index j =>
      have hne : i ≠ j := by
        rintro rfl
        exact hu x (.item hsegment hi hx)
      exact List.getElem?_set_ne hne

theorem Enters.sameShape (h : Enters segment R v w) : v.SameShape w := by
  cases h with
  | entry hfind h => exact Entries.keys_put hfind _
  | each hsegment hlength h => exact hlength
  | item hsegment hi hu h => exact List.length_set

/-- Nothing is changed if no part selected is. -/
theorem Enters.eq_self (h : Enters segment R v w)
    (hR : ∀ s u u', v.Selects segment s u → R s u u' → u' = u) : w = v := by
  cases h with
  | entry hfind h =>
    rw [hR _ _ _ (.entry hfind) h, Entries.put_found hfind]
  | each hsegment hlength h =>
    refine congrArg Value.array (List.ext_getElem hlength fun i hi hi' => ?_)
    have hitem := List.getElem?_eq_getElem hi'
    exact hR _ _ _ (.each hsegment hitem) (h i _ _ hitem (List.getElem?_eq_getElem hi))
  | item hsegment hi hu h =>
    obtain ⟨hlt, rfl⟩ := List.getElem?_eq_some_iff.mp hu
    rw [hR _ _ _ (.item hsegment hi hu) h, List.set_getElem_self]

/-! ## Whole paths -/

/-- The walk gives a value exactly if the path resolves and the change gives one at each end. -/
theorem onValueAt_returns_iff :
    (c.onValueAt segments none place v).Returns ↔
      v.Resolves segments ∧ ∀ t u, v.Ends segments t u →
        (c.onValue u none (place.below t)).Returns := by
  induction segments generalizing place v with
  | nil =>
    rw [onValueAt_nil_none]
    constructor
    · intro h
      refine ⟨trivial, fun t u hu => ?_⟩
      obtain ⟨rfl, rfl⟩ := Value.ends_nil_iff.mp hu
      rwa [Path.below_nil]
    · rintro ⟨-, h⟩
      have hend := h [] v (.nil v)
      rwa [Path.below_nil] at hend
  | cons segment rest ih =>
    have hreturns : (c.onValueAt (segment :: rest) none place v).Returns ↔ v.Admits segment ∧
        ∀ s u, v.Selects segment s u → (c.onValueAt rest none (place.child s) u).Returns := by
      unfold Outcome.Returns
      simp only [onValueAt_cons_none_eq_ok]
      exact exists_enters_iff
    rw [hreturns, Value.Resolves]
    simp only [ih]
    constructor
    · rintro ⟨hadmits, hall⟩
      refine ⟨⟨hadmits, fun s u hu => (hall s u hu).1⟩, fun t x hx => ?_⟩
      obtain ⟨s, u, t', rfl, hu, hrest⟩ := Value.ends_cons_iff.mp hx
      rw [Path.below_cons]
      exact (hall s u hu).2 t' x hrest
    · rintro ⟨⟨hadmits, hresolves⟩, hends⟩
      refine ⟨hadmits, fun s u hu => ⟨hresolves s u hu, fun t x hx => ?_⟩⟩
      rw [← Path.below_cons]
      exact hends _ x (.cons hu hx)

/-- At an end of the path stands what the change gives for the value there, beside the field
that the walk comes there with. -/
theorem onValueAt_at_end (h : c.onValueAt segments field place v = .ok w)
    (hu : v.Ends segments t u) :
    ∃ u', c.onValueAt [] (fieldAt t field) (place.below t) u = .ok u' ∧ w.at? t = some u' := by
  induction hu generalizing field place w with
  | nil v =>
    rw [Path.below_nil]
    exact ⟨w, h, rfl⟩
  | cons hselects _ ih =>
    have henters := (onValueAt_cons_eq_ok.mp h).resolve_left fun hpass =>
      not_passesOver_of_selects hselects hpass.1
    obtain ⟨u', hu', hpart⟩ := henters.part hselects
    obtain ⟨x', hx', hat⟩ := ih hu'
    rw [Path.below_cons]
    exact ⟨x', hx', Option.bind_eq_some_iff.mpr ⟨u', hpart, hat⟩⟩

/-- Where wildcards stand for no item at all nothing is changed. -/
theorem onValueAt_of_no_end (hends : ∀ t u, ¬v.Ends segments t u)
    (h : c.onValueAt segments none place v = .ok w) : w = v := by
  induction segments generalizing place v w with
  | nil => exact absurd (.nil v) (hends [] v)
  | cons segment rest ih =>
    refine (onValueAt_cons_none_eq_ok.mp h).eq_self fun s u u' hu hu' => ?_
    exact ih (fun t x hx => hends _ x (.cons hu hx)) hu'

theorem onValueAt_apart (h : c.onValueAt segments none place v = .ok w)
    (ht : ∀ e u, v.Ends segments e u → ¬t <+: e ∧ ¬e <+: t) : w.at? t = v.at? t := by
  induction segments generalizing place v w t with
  | nil => exact absurd List.nil_prefix (ht [] v (.nil v)).2
  | cons segment rest ih =>
    cases t with
    | nil => rw [onValueAt_of_no_end (fun e u hu => (ht e u hu).1 List.nil_prefix) h]
    | cons s t =>
      have henters := onValueAt_cons_none_eq_ok.mp h
      by_cases hs : ∃ u, v.Selects segment s u
      · obtain ⟨u, hu⟩ := hs
        obtain ⟨u', hu', hpart⟩ := henters.part hu
        rw [Value.at?, Value.at?, hpart, hu.part?]
        refine ih hu' fun e x hx => ?_
        obtain ⟨hbelow, habove⟩ := ht _ x (.cons hu hx)
        exact ⟨fun h => hbelow (List.cons_prefix_cons.mpr ⟨rfl, h⟩),
          fun h => habove (List.cons_prefix_cons.mpr ⟨rfl, h⟩)⟩
      · rw [Value.at?, Value.at?, henters.part_of_unselected (not_exists.mp hs)]

theorem onValueAt_above {above : List Segment} (h : c.onValueAt segments none place v = .ok w)
    (hu : v.Ends segments t u) (habove : above <+: t) (hne : above ≠ t) :
    ∃ x y, v.at? above = some x ∧ w.at? above = some y ∧ x.SameShape y := by
  induction hu generalizing place w above with
  | nil v => exact absurd (List.prefix_nil.mp habove) hne
  | cons hselects _ ih =>
    have henters := onValueAt_cons_none_eq_ok.mp h
    cases above with
    | nil => exact ⟨_, w, rfl, rfl, henters.sameShape⟩
    | cons s above =>
      obtain ⟨rfl, hrest⟩ := List.cons_prefix_cons.mp habove
      obtain ⟨u', hu', hpart⟩ := henters.part hselects
      obtain ⟨x, y, hx, hy, hshape⟩ := ih hu' hrest fun heq => hne (congrArg _ heq)
      exact ⟨x, y, Option.bind_eq_some_iff.mpr ⟨_, hselects.part?, hx⟩,
        Option.bind_eq_some_iff.mpr ⟨u', hpart, hy⟩, hshape⟩

/-- A value in which the ends of a path have been changed, each by itself. -/
structure ChangedAtEnds (c : Change) (segments : List Segment) (place : Path) (v w : Value) :
    Prop where
  /-- At an end stands what the change gives for the value there, at that place. -/
  ends : ∀ t u, v.Ends segments t u →
    ∃ u', c.onValue u none (place.below t) = .ok u' ∧ w.at? t = some u'
  /-- At a place that is neither above nor below an end stands what stood there. -/
  apart : ∀ t, (∀ e u, v.Ends segments e u → ¬t <+: e ∧ ¬e <+: t) → w.at? t = v.at? t
  /-- Containers above an end keep their keys in order, or their length. -/
  above : ∀ t e u, v.Ends segments e u → t <+: e → t ≠ e →
    ∃ x y, v.at? t = some x ∧ w.at? t = some y ∧ x.SameShape y

/-- The walk over a value without a field gives a value if and only if the path resolves, at
every item that wildcards stand for, and the change gives a value at every end.  Then it
changes the ends and nothing else. -/
theorem onValueAt_changes_ends (c : Change) (segments : List Segment) (place : Path) (v : Value) :
    ((c.onValueAt segments none place v).Returns ↔
      v.Resolves segments ∧ ∀ t u, v.Ends segments t u →
        (c.onValue u none (place.below t)).Returns) ∧
    ∀ w, c.onValueAt segments none place v = .ok w → ChangedAtEnds c segments place v w := by
  refine ⟨onValueAt_returns_iff, fun w h => ?_⟩
  exact {
    ends := fun t u hu => by
      obtain ⟨u', hu', hat⟩ := onValueAt_at_end h hu
      rw [fieldAt_none, onValueAt_nil_none] at hu'
      exact ⟨u', hu', hat⟩
    apart := fun t ht => onValueAt_apart h ht
    above := fun t e u hu hbelow hne => onValueAt_above h hu hbelow hne }

end Walk

end Change
end Lineage
