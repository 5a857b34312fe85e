import Lineage.Proofs.Change.Exchange
import Lineage.Proofs.Change.Undo

/-
Two changes on paths that part at an object commute.

Up to that object both walks go through the same containers, and from there on through
different entries.  A default above is changed twice, beside the field as it then is.  In between
it has to suit a field that the other order never saw, and it does: where the second change has
been, value and field are those that both changes leave, and everywhere else those of before.
-/

namespace Lineage

/-- A text that as a segment of a path stands for no item of an array. -/
structure PlainKey (name : String) : Prop where
  not_wildcard : name ≠ "*"
  no_selector : Selector.parse? name.toList = none

theorem PlainKey.ne_wildcard {name : String} (h : PlainKey name) :
    Segment.key name ≠ .wildcard := fun heq => h.not_wildcard (Segment.key.inj heq)

theorem PlainKey.resolve_ne {name : String} (h : PlainKey name) (length i : Nat) :
    (Segment.key name).resolve length ≠ .ok (some i) := by
  unfold Segment.resolve
  simp only [h.no_selector]
  exact nofun

namespace Change

open Lineage.Field Outcome

variable {c d : Change} {segment s : Segment} {segments segments' rest rest' pre : List Segment}
variable {a b : String} {f left right both g inner : Field} {v x w u : Value} {place : Path}

/-! ## Values -/

theorem Enters.object_of_plain {R : Segment → Value → Value → Prop} (ha : PlainKey a)
    (h : Enters (.key a) R v w) : ∃ entries, v = .object entries := by
  cases h with
  | entry hfind h => exact ⟨_, rfl⟩
  | each hsegment hlength h => exact absurd hsegment ha.ne_wildcard
  | item hsegment hi hu h => exact absurd hi (ha.resolve_ne _ _)

/-- Walks over a value alone, on paths that part at different keys, commute. -/
theorem onValueAt_commutes (ha : PlainKey a) (hne : a ≠ b)
    (h : c.onValueAt (pre ++ .key a :: rest) none place v = .ok x)
    (h' : d.onValueAt (pre ++ .key b :: rest') none place x = .ok w) :
    ∃ y, d.onValueAt (pre ++ .key b :: rest') none place v = .ok y ∧
      c.onValueAt (pre ++ .key a :: rest) none place y = .ok w := by
  induction pre generalizing place v x w with
  | nil =>
    obtain ⟨entries, rfl⟩ := (onValueAt_cons_none_eq_ok.mp h).object_of_plain ha
    obtain ⟨_, rfl, hchange⟩ := onValueAt_object_eq_ok.mp h
    obtain ⟨_, rfl, hchange'⟩ := onValueAt_object_eq_ok.mp h'
    obtain ⟨_, hfirst, hsecond⟩ := hchange.exchange hne hchange'
    exact ⟨_, onValueAt_object_eq_ok.mpr ⟨_, rfl, hfirst⟩,
      onValueAt_object_eq_ok.mpr ⟨_, rfl, hsecond⟩⟩
  | cons segment pre ih =>
    simp only [List.cons_append, onValueAt_cons_none_eq_ok] at h h' ⊢
    exact h.exchange h' fun s u u' y _ _ hu hu' => ih hu hu'

/-! ## Values beside a field -/

theorem onValueAt_beside_eq_ok (hbare : f.acceptsAbsence = false) :
    c.onValueAt (segment :: rest) (some f) place v = .ok w ↔
      (∃ entries, v = .object entries ∧ Entries.find? (.text segment.text) entries = none ∧
        (memberField (some f) segment.text).any acceptsAbsence = true ∧ w = v) ∨
      Enters segment (fun s u u' => c.onValueAt rest (partField (some f) s) (place.child s) u =
        .ok u') v w := by
  rw [onValueAt_cons_eq_ok, Option.map_some, unwrapped_of_not_acceptsAbsence hbare]
  refine or_congr_left ⟨?_, ?_⟩
  · rintro ⟨hskipped | ⟨entries, hv, hnone, habsence⟩, rfl⟩
    · obtain rfl := eq_null_of_isSkipped hskipped
      exact absurd (hbare.symm.trans hskipped) nofun
    · rw [Option.map_some, unwrapped_of_not_acceptsAbsence hbare] at habsence
      exact ⟨entries, hv, hnone, habsence, rfl⟩
  · rintro ⟨entries, hv, hnone, habsence, rfl⟩
    refine ⟨.inr ⟨entries, hv, hnone, ?_⟩, rfl⟩
    rwa [Option.map_some, unwrapped_of_not_acceptsAbsence hbare]

/-! ## Paths that lead on -/

variable [Externals]

section Onwards

variable {segments : List Segment} {f f' : Field}

theorem onFieldAt_cons_eq_ok (hbare : f.acceptsAbsence = false) :
    c.onFieldAt (segment :: rest) place f = .ok f' ↔
      Descends (fun p g => c.onFieldAt rest p g) segment place f f' := by
  rw [onFieldAt, throughWrappers_of_bare hbare, descend_eq_ok]

/-- A change further down leaves the wrappers as they are. -/
theorem acceptsAbsence_of_onFieldAt (hsegments : segments ≠ [])
    (h : c.onFieldAt segments place f = .ok f') : f'.acceptsAbsence = f.acceptsAbsence := by
  obtain ⟨segment, rest, rfl⟩ := List.exists_cons_of_ne_nil hsegments
  cases hbare : f.acceptsAbsence with
  | false => exact ((onFieldAt_cons_eq_ok hbare).mp h).bare
  | true =>
    cases f with
    | optional inner =>
      obtain ⟨inner', -, h⟩ := bind_eq_ok.mp h
      cases h
      rfl
    | defaulted inner value =>
      obtain ⟨inner', value', -, -, -, rfl⟩ := throughWrappers_defaulted h
      rfl
    | _ => cases hbare

/-- Where nothing has to be, what stands for it is valid after a change further down. -/
theorem validate_missing_of_onFieldAt (hsegments : segments ≠ [])
    (h : c.onFieldAt segments place f = .ok f') (habsence : f.acceptsAbsence = true) :
    f'.validate {} .root .missing = .ok [] := by
  obtain ⟨segment, rest, rfl⟩ := List.exists_cons_of_ne_nil hsegments
  cases f with
  | optional inner =>
    obtain ⟨inner', -, h⟩ := bind_eq_ok.mp h
    cases h
    rfl
  | defaulted inner value =>
    obtain ⟨inner', value', -, -, hsuits, rfl⟩ := throughWrappers_defaulted h
    exact hsuits.valid
  | _ => cases habsence

/-- Null suits nothing that a path leads through but wrappers. -/
theorem acceptsAbsence_of_suits_null (hsegments : segments ≠ [])
    (h : c.onFieldAt segments place f = .ok f') (hnull : f.Suits .null) :
    f.acceptsAbsence = true := by
  obtain ⟨segment, rest, rfl⟩ := List.exists_cons_of_ne_nil hsegments
  cases hbare : f.acceptsAbsence with
  | true => rfl
  | false =>
    have hvalid := hnull.valid
    cases (onFieldAt_cons_eq_ok hbare).mp h with
    | member _ _ => cases hvalid
    | element _ _ => cases hvalid
    | items _ _ _ => cases hvalid
    | item _ _ _ _ => cases hvalid

omit [Externals] in
theorem onValueAt_ne_null (hsegments : segments ≠ []) (hv : v ≠ .null)
    (h : c.onValueAt segments field place v = .ok w) : w ≠ .null := by
  obtain ⟨segment, rest, rfl⟩ := List.exists_cons_of_ne_nil hsegments
  rcases onValueAt_cons_eq_ok.mp h with ⟨-, rfl⟩ | henters
  · exact hv
  · rintro rfl
    cases henters

omit [Externals] in
theorem onValueAt_null_of_absence (hsegments : segments ≠ []) (habsence : f.acceptsAbsence = true) :
    c.onValueAt segments (some f) place .null = .ok .null :=
  onValueAt_of_skipped (.inl hsegments) habsence

end Onwards

/-! ## Defaults -/

theorem refit_of_suits {f : Field} {v : Value} (h : f.Suits v) (place : Path) :
    refit f v place = .ok (.defaulted f v) := by
  rw [refit, makeDefaulted_of h.checked h.valid]

/-- Beside a field, two walks that can be done in one order can be done in the other, and
in between stands a value that suits the field there.  The field is given as it was, as each of
the changes leaves it, and as both do. -/
def Crosses (c d : Change) (segments segments' : List Segment) (f left right both : Field) : Prop :=
  ∀ place v x w, f.Suits v → both.Suits w →
    c.onValueAt segments (some f) place v = .ok x →
    d.onValueAt segments' (some left) place x = .ok w →
    ∃ y, d.onValueAt segments' (some f) place v = .ok y ∧
      c.onValueAt segments (some right) place y = .ok w ∧ right.Suits y

/-- Two changes that can be made to a field tree in one order can be made in the other, with
the same result. -/
def Swaps (c d : Change) (segments segments' : List Segment) (f : Field) : Prop :=
  ∀ place left both, c.onFieldAt segments place f = .ok left →
    d.onFieldAt segments' place left = .ok both →
    ∃ right, d.onFieldAt segments' place f = .ok right ∧
      c.onFieldAt segments place right = .ok both ∧
      Crosses c d segments segments' f left right both

section Wrappers

variable {l r t : Field} {p q y value : Value}
variable (hsegments : segments ≠ []) (hsegments' : segments' ≠ [])

include hsegments hsegments'

/-- Wrappers make no difference to a value that is not null. -/
theorem Crosses.around (h : Crosses c d segments segments' inner l r t) (hnull : v ≠ .null)
    (hx : c.onValueAt segments (some f) place v = .ok x)
    (hxw : d.onValueAt segments' (some left) place x = .ok w) (right : Field)
    (hf : f.unwrapped = inner.unwrapped) (hleft : left.unwrapped = l.unwrapped)
    (hright : right.unwrapped = r.unwrapped) (hv : inner.Suits v) (hw : t.Suits w) :
    ∃ y, d.onValueAt segments' (some f) place v = .ok y ∧
      c.onValueAt segments (some right) place y = .ok w ∧ r.Suits y := by
  rw [onValueAt_inner (.inl hsegments) f inner hf hnull] at hx
  rw [onValueAt_inner (.inl hsegments') left l hleft (onValueAt_ne_null hsegments hnull hx)] at hxw
  obtain ⟨y, hy, hyw, hsuits⟩ := h place v x w hv hw hx hxw
  refine ⟨y, ?_, ?_, hsuits⟩
  · rwa [onValueAt_inner (.inl hsegments') f inner hf hnull]
  · rwa [onValueAt_inner (.inl hsegments) right r hright (onValueAt_ne_null hsegments' hnull hy)]

theorem Crosses.optional (h : Crosses c d segments segments' inner l r t) :
    Crosses c d segments segments' (.optional inner) (.optional l) (.optional r)
      (.optional t) := by
  intro place v x w hv hw hx hxw
  by_cases hnull : v = .null
  · subst hnull
    rw [onValueAt_null_of_absence hsegments rfl] at hx
    cases hx
    rw [onValueAt_null_of_absence hsegments' rfl] at hxw
    cases hxw
    exact ⟨.null, onValueAt_null_of_absence hsegments' rfl, onValueAt_null_of_absence hsegments rfl,
      suits_optional.mpr (.inl rfl)⟩
  · have hwnull := onValueAt_ne_null hsegments' (onValueAt_ne_null hsegments hnull hx) hxw
    obtain ⟨y, hy, hyw, hsuits⟩ := h.around hsegments hsegments' hnull hx hxw (.optional r) rfl rfl
      rfl ((suits_optional.mp hv).resolve_left hnull) ((suits_optional.mp hw).resolve_left hwnull)
    exact ⟨y, hy, hyw, suits_optional.mpr (.inr hsuits)⟩

theorem Crosses.defaulted (h : Crosses c d segments segments' inner l r t)
    (habsence : inner.Suits .null → inner.acceptsAbsence = true ∧ l.acceptsAbsence = true) :
    Crosses c d segments segments' (.defaulted inner value) (.defaulted l p) (.defaulted r y)
      (.defaulted t q) := by
  intro place v x w hv hw hx hxw
  have hv := suits_defaulted.mp hv
  have hw := suits_defaulted.mp hw
  by_cases hnull : v = .null
  · subst hnull
    rw [onValueAt_null_of_absence hsegments rfl] at hx
    cases hx
    rw [onValueAt_null_of_absence hsegments' rfl] at hxw
    cases hxw
    obtain ⟨hinner, hl⟩ := habsence hv
    obtain ⟨z, hz, -, hsuits⟩ := h place .null .null .null hv hw
      (onValueAt_null_of_absence hsegments hinner) (onValueAt_null_of_absence hsegments' hl)
    rw [onValueAt_null_of_absence hsegments' hinner] at hz
    cases hz
    exact ⟨.null, onValueAt_null_of_absence hsegments' rfl, onValueAt_null_of_absence hsegments rfl,
      suits_defaulted.mpr hsuits⟩
  · obtain ⟨z, hz, hzw, hsuits⟩ := h.around hsegments hsegments' hnull hx hxw (.defaulted r y) rfl
      rfl rfl hv hw
    exact ⟨z, hz, hzw, suits_defaulted.mpr hsuits⟩

theorem swaps_of_unwrapped (hsound : f.Sound) (h : Swaps c d segments segments' f.unwrapped) :
    Swaps c d segments segments' f := by
  obtain ⟨segment, rest, rfl⟩ := List.exists_cons_of_ne_nil hsegments
  obtain ⟨segment', rest', rfl⟩ := List.exists_cons_of_ne_nil hsegments'
  induction f with
  | optional inner ih =>
    intro place left both hc hd
    obtain ⟨l, hl, hc⟩ := bind_eq_ok.mp hc
    cases hc
    obtain ⟨t, ht, hd⟩ := bind_eq_ok.mp hd
    cases hd
    obtain ⟨r, hr, hrt, hcrosses⟩ := ih hsound.optionalInner h place l t hl ht
    exact ⟨.optional r, bind_eq_ok.mpr ⟨r, hr, rfl⟩, bind_eq_ok.mpr ⟨t, hrt, rfl⟩,
      hcrosses.optional hsegments hsegments'⟩
  | defaulted inner value ih =>
    intro place left both hc hd
    obtain ⟨l, p, hl, hp, -, rfl⟩ := throughWrappers_defaulted hc
    obtain ⟨t, q, ht, hq, hsuits, rfl⟩ := throughWrappers_defaulted hd
    obtain ⟨r, hr, hrt, hcrosses⟩ := ih hsound.defaultedInner h place l t hl ht
    obtain ⟨hjson, hvalid⟩ := hsound.here
    obtain ⟨y, hy, hyq, hysuits⟩ := hcrosses place value p q ⟨hjson.checked, hvalid⟩ hsuits hp hq
    refine ⟨.defaulted r y,
      bind_eq_ok.mpr ⟨r, hr, bind_eq_ok.mpr ⟨y, hy, refit_of_suits hysuits place⟩⟩,
      bind_eq_ok.mpr ⟨t, hrt, bind_eq_ok.mpr ⟨q, hyq, refit_of_suits hsuits place⟩⟩, ?_⟩
    refine hcrosses.defaulted hsegments hsegments' fun hnull => ?_
    have hinner := acceptsAbsence_of_suits_null hsegments hl hnull
    exact ⟨hinner, (acceptsAbsence_of_onFieldAt hsegments hl).trans hinner⟩
  | _ => exact h

end Wrappers

/-! ## Whole paths -/

/-- A default above the object where the paths part is entered by both walks at the same parts,
or passed over by both. -/
theorem crosses_of_inside {update update' : Path → Field → Outcome Field} {here here' : Path}
    (hsound : f.Sound) (hbare : f.acceptsAbsence = false)
    (hleft : Descends update segment here f left)
    (hright : Descends update' segment here' f right)
    (hupdate' : ∀ p g r, update' p g = .ok r → r.acceptsAbsence = g.acceptsAbsence ∧
      (g.acceptsAbsence = true → r.validate {} .root .missing = .ok []))
    (hparts : ∀ s g, f.Selects segment s g → ∃ l r t, partField (some left) s = some l ∧
      partField (some right) s = some r ∧ partField (some both) s = some t ∧
      Crosses c d rest rest' g l r t) :
    Crosses c d (segment :: rest) (segment :: rest') f left right both := by
  intro place v x w hv hw hx hxw
  rw [onValueAt_beside_eq_ok hbare] at hx
  rw [onValueAt_beside_eq_ok hleft.bare] at hxw
  simp only [onValueAt_beside_eq_ok hbare, onValueAt_beside_eq_ok hright.bare]
  rcases hx with ⟨entries, rfl, hnone, habsence, rfl⟩ | henters
  · rcases hxw with ⟨_, -, -, -, rfl⟩ | henters'
    · refine ⟨.object entries, .inl ⟨entries, rfl, hnone, habsence, rfl⟩,
        .inl ⟨entries, rfl, hnone, ?_, rfl⟩, ?_⟩
      · rwa [hright.absence fun p g r hr => (hupdate' p g r hr).1]
      · exact hright.suits_passed hsound hv hnone habsence hupdate'
    · cases henters' with
      | entry hfind _ => cases hnone.symm.trans hfind
  · rcases hxw with ⟨entries, rfl, hnone, -, -⟩ | henters'
    · exact absurd hnone henters.found
    · obtain ⟨y, hy, hyw⟩ : ∃ y, Enters segment (fun s u z =>
          d.onValueAt rest' (partField (some f) s) (place.child s) u = .ok z ∧
            ∀ r, partField (some right) s = some r → r.Suits z) v y ∧
          Enters segment (fun s z y => c.onValueAt rest (partField (some right) s)
            (place.child s) z = .ok y) y w := by
        refine henters.exchange henters' fun s u u' y hu hy hu' hyu' => ?_
        obtain ⟨g, hg, -⟩ := hleft.selects ⟨{}, .root, rfl, hv.valid⟩ hu
        obtain ⟨l, r, t, hl, hr, ht, hcross⟩ := hparts s g hg
        rw [hg.partField] at hu'
        rw [hl] at hyu'
        obtain ⟨z, hz, hzy, hsuits⟩ := hcross _ u u' y (hv.part hg.partField hu.part?)
          (hw.part ht hy) hu' hyu'
        refine ⟨z, ⟨hg.partField ▸ hz, fun r' hr' => ?_⟩, hr ▸ hzy⟩
        obtain rfl := Option.some.inj (hr.symm.trans hr')
        exact hsuits
      exact ⟨y, .inr (hy.imp fun _ _ _ h => h.1), .inr hyw,
        hright.suits hsound hv hy fun s u z r h hr => h.2 r hr⟩

/-- Above the object where the paths part, both lead to the same parts. -/
theorem swaps_of_inside (hsound : f.Sound) (hbare : f.acceptsAbsence = false) (hrest : rest ≠ [])
    (hrest' : rest' ≠ []) (hparts : ∀ g ∈ f.inside segment, Swaps c d rest rest' g) :
    Swaps c d (segment :: rest) (segment :: rest') f := by
  intro place left both hc hd
  have hleft := (onFieldAt_cons_eq_ok hbare).mp hc
  have hboth := (onFieldAt_cons_eq_ok hleft.bare).mp hd
  obtain ⟨right, hright, hback, hcrosses⟩ := hleft.exchange hboth
    (fun _ _ _ => acceptsAbsence_of_onFieldAt hrest)
    (fun _ _ _ => acceptsAbsence_of_onFieldAt hrest')
    fun g hg p l t hl ht => hparts g hg p l t hl ht
  refine ⟨right, (onFieldAt_cons_eq_ok hbare).mpr hright,
    (onFieldAt_cons_eq_ok hright.bare).mpr hback, ?_⟩
  exact crosses_of_inside hsound hbare hleft hright (fun p g r hr =>
    ⟨acceptsAbsence_of_onFieldAt hrest' hr, validate_missing_of_onFieldAt hrest' hr⟩) hcrosses

omit [Externals] in
theorem Descends.member_of_plain {update : Path → Field → Outcome Field} {f' : Field}
    (ha : PlainKey a) (h : Descends update (.key a) place f f') :
    ∃ members m child, f = .object members ∧ Member.find? a members = some m ∧
      update (place.key a) m.field = .ok child ∧
      f' = .object (Member.replaced m child members) := by
  cases h with
  | member hm h => exact ⟨_, _, _, rfl, hm, h, rfl⟩
  | element hsegment h => exact absurd hsegment ha.ne_wildcard
  | items hsegment hlength h => exact absurd hsegment ha.ne_wildcard
  | item hsegment hi hg h => exact absurd hi (ha.resolve_ne _ _)

/-- At the object where the paths part, each leads to a member of its own. -/
theorem swaps_of_parting (hsound : f.Sound) (hbare : f.acceptsAbsence = false) (ha : PlainKey a)
    (hb : PlainKey b) (hne : a ≠ b) : Swaps c d (.key a :: rest) (.key b :: rest') f := by
  intro place left both hc hd
  obtain ⟨members, m, l, rfl, hm, hl, rfl⟩ :=
    ((onFieldAt_cons_eq_ok hbare).mp hc).member_of_plain ha
  obtain ⟨_, n, r, ⟨⟩, hn, hr, rfl⟩ := ((onFieldAt_cons_eq_ok rfl).mp hd).member_of_plain hb
  rw [Member.find?_replaced_of_ne hm hne] at hn
  obtain rfl := Member.name_of_find? hm
  obtain rfl := Member.name_of_find? hn
  have hcomm : Member.replaced n r (Member.replaced m l members) =
      Member.replaced m l (Member.replaced n r members) := Member.put_comm hne.symm hn
  refine ⟨.object (Member.replaced n r members), (onFieldAt_cons_eq_ok rfl).mpr (.member hn hr), ?_,
    fun place v x w hv hw hx hxw => ?_⟩
  · rw [hcomm]
    exact (onFieldAt_cons_eq_ok rfl).mpr
      (.member ((Member.find?_replaced_of_ne hn hne.symm).trans hm) hl)
  · obtain ⟨entries, rfl, -⟩ := suits_object.mp hv
    obtain ⟨_, rfl, hchange⟩ := onValueAt_object_eq_ok.mp hx
    obtain ⟨after, rfl, hchange'⟩ := onValueAt_object_eq_ok.mp hxw
    -- Each change meets the field that was there before the other one.
    have hleft : memberField (some (.object (Member.replaced m l members))) n.name =
        memberField (some (.object members)) n.name :=
      congrArg (Option.map Member.field) (Member.find?_replaced_of_ne hm hne)
    have hright : memberField (some (.object (Member.replaced n r members))) m.name =
        memberField (some (.object members)) m.name :=
      congrArg (Option.map Member.field) (Member.find?_replaced_of_ne hn hne.symm)
    simp only [Option.map_some, unwrapped, Segment.text, hleft] at hchange hchange'
    obtain ⟨between, hfirst, hsecond⟩ := hchange.exchange hne hchange'
    refine ⟨.object between, onValueAt_object_eq_ok.mpr ⟨between, rfl, hfirst⟩,
      onValueAt_object_eq_ok.mpr ⟨after, rfl, ?_⟩, hv.put hsound.here hfirst.eq_or_put ?_⟩
    · simp only [Option.map_some, unwrapped, Segment.text, hright]
      exact hsecond
    · rw [← hsecond.find?_of_ne hne]
      refine hw.member ?_
      rw [Member.replaced, Member.find?_put, if_pos rfl]

/-- Two changes on paths that part at different keys can be made to a field tree in either
order, defaults above included. -/
theorem onFieldAt_swaps (hsound : f.Sound) (ha : PlainKey a) (hb : PlainKey b) (hne : a ≠ b) :
    Swaps c d (pre ++ .key a :: rest) (pre ++ .key b :: rest') f := by
  induction pre generalizing f with
  | nil =>
    refine swaps_of_unwrapped (List.cons_ne_nil _ _) (List.cons_ne_nil _ _) hsound ?_
    exact swaps_of_parting hsound.unwrapped (acceptsAbsence_unwrapped f) ha hb hne
  | cons segment pre ih =>
    refine swaps_of_unwrapped (List.cons_ne_nil _ _) (List.cons_ne_nil _ _) hsound ?_
    refine swaps_of_inside hsound.unwrapped (acceptsAbsence_unwrapped f)
      (List.append_ne_nil_of_right_ne_nil _ (List.cons_ne_nil _ _))
      (List.append_ne_nil_of_right_ne_nil _ (List.cons_ne_nil _ _)) fun g hg => ?_
    exact ih (hsound.unwrapped.child (child_of_mem_inside hg))

end Change
end Lineage
