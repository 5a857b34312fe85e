import Lineage.Proofs.Change.Frame
import Lineage.Proofs.Change.Places
import Lineage.Proofs.Field.Suits

/-
Two changes of one container, made in the other order.

Where the changes are made under different names, neither sees the other.  Where they are made
to the same parts, they commute if they do in each part.  An object of a field tree is rebuilt
twice, with the same result in both orders: it depends on what the parts become and on whether
they accept absence.
-/

namespace Lineage

/-! ## Puts under different names -/

theorem Member.put_comm {α : Type} {members : List (Member α)} {m n k : Member α}
    (hne : m.name ≠ n.name) (hm : find? m.name members = some k) :
    put m (put n members) = put n (put m members) := by
  induction members with
  | nil => cases hm
  | cons l rest ih =>
    rw [find?] at hm
    rw [put, put]
    by_cases hln : l.name = n.name
    · have hlm : l.name ≠ m.name := fun h => hne (h.symm.trans hln)
      rw [if_pos hln, if_neg hlm, put, if_neg hne.symm, put, if_pos hln]
    · by_cases hlm : l.name = m.name
      · rw [if_neg hln, if_pos hlm, put, if_pos hlm, put, if_neg hne]
      · rw [if_neg hlm] at hm
        rw [if_neg hln, if_neg hlm, put, if_neg hlm, put, if_neg hln, ih hm]

theorem Entries.put_comm {α : Type} {entries : List (Key × α)} {a b : String} {u : α}
    (hne : a ≠ b) (ha : find? (.text a) entries = some u) (x y : α) :
    put (.text a) x (put (.text b) y entries) = put (.text b) y (put (.text a) x entries) := by
  induction entries with
  | nil => cases ha
  | cons e rest ih =>
    obtain ⟨k, w⟩ := e
    rw [find?] at ha
    rw [put, put]
    by_cases hkb : k.same (.text b) = true
    · have hka : ¬k.same (.text a) = true := by
        rw [Key.same_text_iff.mp hkb]
        simpa using hne.symm
      rw [if_pos hkb, if_neg hka, put, if_neg hka, put, if_pos hkb]
    · by_cases hka : k.same (.text a) = true
      · rw [if_neg hkb, if_pos hka, put, if_pos hka, put, if_neg hkb]
      · rw [if_neg hka] at ha
        rw [if_neg hkb, if_neg hka, put, if_neg hka, put, if_neg hkb, ih ha]

theorem Member.find?_replaced_of_ne {name other : String} {members : List (Member Field)}
    {m : Member Field} {child : Field} (hm : find? name members = some m) (hne : name ≠ other) :
    find? other (replaced m child members) = find? other members := by
  rw [replaced, find?_put, if_neg (name_of_find? hm ▸ hne)]

/-- A field that is swapped twice is required as if it was swapped once, where none of the three
differ in whether they accept absence. -/
theorem Member.replaced_again {name : String} {members : List (Member Field)} {m : Member Field}
    {child : Field} (hm : find? name members = some m)
    (habsence : child.acceptsAbsence = m.field.acceptsAbsence) :
    ∃ m', find? name (replaced m child members) = some m' ∧ m'.field = child ∧
      ∀ last : Field, last.acceptsAbsence = m.field.acceptsAbsence →
        replaced m' last (replaced m child members) = replaced m last members := by
  have hkept : (⟨m.name, m.staysRequired, child⟩ : Member Field).staysRequired =
      m.staysRequired := by
    unfold staysRequired
    rw [habsence, Bool.and_assoc, Bool.and_self]
  rw [replaced_of_same_absence habsence]
  refine ⟨⟨m.name, m.staysRequired, child⟩, ?_, rfl, fun last hlast => ?_⟩
  · rw [find?_put, if_pos (name_of_find? hm)]
  · rw [replaced_of_same_absence (m := ⟨m.name, m.staysRequired, child⟩)
      (hlast.trans habsence.symm), hkept, replaced_of_same_absence hlast]
    exact put_put (m := ⟨m.name, m.staysRequired, last⟩) (n := ⟨m.name, m.staysRequired, child⟩)
      rfl members

namespace Change

open Lineage.Field Outcome

variable {c : Change} {segment : Segment} {rest : List Segment} {a b : String}
variable {f left right both g : Field} {v x w u : Value} {place : Path} {field : Option Field}

/-! ## Entries under different names -/

/-- What a walk makes of entries under a name: it changes what is there, or passes over a lack
of it that is allowed. -/
inductive KeyChange (name : String) (absence : Bool) (R : Value → Value → Prop) :
    List (Key × Value) → List (Key × Value) → Prop
  | passed {entries : List (Key × Value)} (hnone : Entries.find? (.text name) entries = none)
    (habsence : absence = true) : KeyChange name absence R entries entries
  | changed {entries : List (Key × Value)} {u u' : Value}
    (hfind : Entries.find? (.text name) entries = some u) (h : R u u') :
    KeyChange name absence R entries (Entries.put (.text name) u' entries)

theorem onValueAt_object_eq_ok {entries : List (Key × Value)} :
    c.onValueAt (segment :: rest) field place (.object entries) = .ok w ↔
      ∃ entries', w = .object entries' ∧ KeyChange segment.text
        ((memberField (field.map unwrapped) segment.text).any acceptsAbsence)
        (fun u u' => c.onValueAt rest (memberField (field.map unwrapped) segment.text)
          (place.key segment.text) u = .ok u') entries entries' := by
  rw [onValueAt_cons_eq_ok]
  constructor
  · rintro (⟨hskipped | ⟨_, ⟨⟩, hnone, habsence⟩, rfl⟩ | h)
    · cases eq_null_of_isSkipped hskipped
    · exact ⟨entries, rfl, .passed hnone habsence⟩
    · cases h with
      | entry hfind h => exact ⟨_, rfl, .changed hfind h⟩
  · rintro ⟨_, rfl, hnone | ⟨hfind, h⟩⟩
    · exact .inl ⟨.inr ⟨entries, rfl, hnone, ‹_›⟩, rfl⟩
    · exact .inr (.entry hfind h)

namespace KeyChange

variable {absence absence' : Bool} {R P : Value → Value → Prop}
variable {entries entries' after : List (Key × Value)}

theorem find?_of_ne (h : KeyChange a absence R entries entries') (hne : a ≠ b) :
    Entries.find? (.text b) entries' = Entries.find? (.text b) entries := by
  cases h with
  | passed hnone habsence => rfl
  | changed hfind h => rw [Entries.find?_put, if_neg hne]

theorem eq_or_put (h : KeyChange a absence R entries entries') :
    entries' = entries ∨ ∃ u, entries' = Entries.put (.text a) u entries := by
  cases h with
  | passed hnone habsence => exact .inl rfl
  | changed hfind h => exact .inr ⟨_, rfl⟩

/-- Changes under different names do not see each other. -/
theorem exchange (hne : a ≠ b) (h : KeyChange a absence R entries entries')
    (h' : KeyChange b absence' P entries' after) :
    ∃ between, KeyChange b absence' P entries between ∧ KeyChange a absence R between after := by
  have hsame := h.find?_of_ne hne
  cases h' with
  | passed hnone' habsence' => exact ⟨entries, .passed (hsame ▸ hnone') habsence', h⟩
  | @changed _ y' hfind' h' =>
    rw [hsame] at hfind'
    refine ⟨_, .changed hfind' h', ?_⟩
    have hsame' : Entries.find? (.text a) (Entries.put (.text b) y' entries) =
        Entries.find? (.text a) entries := by
      rw [Entries.find?_put, if_neg hne.symm]
    cases h with
    | passed hnone habsence => exact .passed (hsame'.trans hnone) habsence
    | changed hfind h =>
      rw [← Entries.put_comm hne hfind]
      exact .changed (hsame'.trans hfind) h

end KeyChange

/-! ## Containers of values -/

/-- A list beside three others, if there is an item for each three at one index. -/
theorem exists_beside {α : Type} {as bs cs : List α} {T : Nat → α → α → α → α → Prop}
    (hbs : bs.length = as.length) (hcs : cs.length = bs.length)
    (h : ∀ i a b c, as[i]? = some a → bs[i]? = some b → cs[i]? = some c → ∃ d, T i a b c d) :
    ∃ ds : List α, ds.length = as.length ∧ cs.length = ds.length ∧
      (∀ i a d, as[i]? = some a → ds[i]? = some d →
        ∃ b c, bs[i]? = some b ∧ cs[i]? = some c ∧ T i a b c d) ∧
      ∀ i d c, ds[i]? = some d → cs[i]? = some c → ∃ a b, T i a b c d := by
  obtain ⟨ds, hds, hT⟩ := @exists_each _ as
    (fun i a d => ∃ b c, bs[i]? = some b ∧ cs[i]? = some c ∧ T i a b c d) fun i a ha => by
      obtain ⟨hlt, -⟩ := List.getElem?_eq_some_iff.mp ha
      have hb := List.getElem?_eq_getElem (hbs ▸ hlt : i < bs.length)
      have hc := List.getElem?_eq_getElem (hcs ▸ hbs ▸ hlt : i < cs.length)
      obtain ⟨d, hd⟩ := h i a _ _ ha hb hc
      exact ⟨d, _, _, hb, hc, hd⟩
  refine ⟨ds, hds, (hcs.trans hbs).trans hds.symm, hT, fun i d c hd hc => ?_⟩
  obtain ⟨hlt, -⟩ := List.getElem?_eq_some_iff.mp hd
  have ha := List.getElem?_eq_getElem (hds ▸ hlt : i < as.length)
  obtain ⟨b, c', -, hc', hT⟩ := hT i _ d ha hd
  obtain rfl := Option.some.inj (hc'.symm.trans hc)
  exact ⟨_, b, hT⟩

section Containers

variable {R R' P P' : Segment → Value → Value → Prop}

/-- An object that was entered has an entry to be entered again. -/
theorem Enters.found {entries : List (Key × Value)} (h : Enters segment R v (.object entries)) :
    Entries.find? (.text segment.text) entries ≠ none := by
  cases h with
  | entry hfind h =>
    rw [Entries.find?_put, if_pos rfl]
    exact nofun

/-- Two changes of a container commute if they do in each part. -/
theorem Enters.exchange (h : Enters segment R v x) (h' : Enters segment P x w)
    (hparts : ∀ s u u' y, v.Selects segment s u → w.part? s = some y → R s u u' → P s u' y →
      ∃ z, P' s u z ∧ R' s z y) :
    ∃ z, Enters segment P' v z ∧ Enters segment R' z w := by
  cases h with
  | @entry entries u u' hfind h =>
    cases h' with
    | @entry _ _ y hfind' h' =>
      rw [Entries.find?_put, if_pos rfl] at hfind'
      cases hfind'
      have hput := Entries.put_put hfind u' y
      obtain ⟨z, hz, hy⟩ := hparts _ u u' y (.entry hfind) (by
        rw [hput]
        exact (Entries.find?_put _ _ _ _).trans (if_pos rfl)) h h'
      refine ⟨_, .entry hfind hz, ?_⟩
      rw [hput, ← Entries.put_put hfind z y]
      exact .entry ((Entries.find?_put _ _ _ _).trans (if_pos rfl)) hy
  | @each items items' hsegment hlength h =>
    cases h' with
    | @each _ after _ hlength' h' =>
      obtain ⟨between, hbetween, hafter, hfirst, hsecond⟩ := @exists_beside _ items items' after
        (fun i u _ y z => P' (.index i) u z ∧ R' (.index i) z y) hlength hlength'
        fun i u u' y hu hu' hy => hparts (.index i) u u' y (.each hsegment hu) hy
          (h i u u' hu hu') (h' i u' y hu' hy)
      refine ⟨.array between, .each hsegment hbetween fun i u z hu hz => ?_,
        .each hsegment hafter fun i z y hz hy => ?_⟩
      · obtain ⟨_, _, -, -, hchanged, -⟩ := hfirst i u z hu hz
        exact hchanged
      · obtain ⟨_, _, -, hchanged⟩ := hsecond i z y hz hy
        exact hchanged
    | item hne _ _ _ => exact absurd hsegment hne
  | @item items i u u' hsegment hi hu h =>
    cases h' with
    | each hwildcard _ _ => exact absurd hwildcard hsegment
    | @item _ j _ y _ hj hu' h' =>
      rw [List.length_set] at hj
      obtain rfl := Option.some.inj (Except.ok.inj (hi.symm.trans hj))
      have hlt := resolve_lt hi
      rw [List.getElem?_set_self hlt] at hu'
      cases hu'
      obtain ⟨z, hz, hy⟩ := hparts _ u u' y (.item hsegment hi hu) (by
        rw [List.set_set]
        exact List.getElem?_set_self hlt) h h'
      refine ⟨_, .item hsegment hi hu hz, ?_⟩
      have hset : (items.set i z).set i y = items.set i y := List.set_set _
      rw [List.set_set, ← hset]
      exact .item hsegment (by rwa [List.length_set]) (List.getElem?_set_self hlt) hy

theorem Enters.imp (h : Enters segment R v w) (himp : ∀ s u u', R s u u' → P s u u') :
    Enters segment P v w := by
  cases h with
  | entry hfind h => exact .entry hfind (himp _ _ _ h)
  | each hsegment hlength h =>
    exact .each hsegment hlength fun i u u' hu hu' => himp _ _ _ (h i u u' hu hu')
  | item hsegment hi hu h => exact .item hsegment hi hu (himp _ _ _ h)

end Containers

/-! ## Containers of a field tree -/

section Exchange

variable {update update' : Path → Field → Outcome Field} {Q : Field → Field → Field → Field → Prop}
variable {l r t : Field} {fields lefts boths : List Field}

/-- The second of two changes of a container can be made to it first, with the same result of
both.  `Q` is what else there is to say about a part that changes: as it was, as each of the
changes leaves it, and as both do. -/
def Exchanges (update update' : Path → Field → Outcome Field)
    (Q : Field → Field → Field → Field → Prop) (segment : Segment) (place : Path)
    (f left both : Field) : Prop :=
  ∃ right, Descends update' segment place f right ∧ Descends update segment place right both ∧
    ∀ s g, f.Selects segment s g → ∃ l r t, partField (some left) s = some l ∧
      partField (some right) s = some r ∧ partField (some both) s = some t ∧ Q g l r t

theorem exchanges_member {members : List (Member Field)} {m : Member Field}
    (hm : Member.find? segment.text members = some m)
    (hr : update' (place.key segment.text) m.field = .ok r)
    (ht : update (place.key segment.text) r = .ok t)
    (habsence : r.acceptsAbsence = m.field.acceptsAbsence)
    (habsence' : t.acceptsAbsence = m.field.acceptsAbsence) (hQ : Q m.field l r t) :
    Exchanges update update' Q segment place (.object members)
      (.object (Member.replaced m l members)) (.object (Member.replaced m t members)) := by
  obtain ⟨m', hm', hfield, hagain⟩ := Member.replaced_again hm habsence
  refine ⟨.object (Member.replaced m r members), .member hm hr, ?_, fun s g hg => ?_⟩
  · rw [← hagain t habsence']
    exact .member hm' (hfield ▸ ht)
  · cases hg with
    | member hn =>
      obtain rfl := Option.some.inj (hm.symm.trans hn)
      exact ⟨l, r, t, partField_replaced hm l, partField_replaced hm r, partField_replaced hm t, hQ⟩

theorem exchanges_items (hsegment : segment = .wildcard) (hlefts : lefts.length = fields.length)
    (hboths : boths.length = lefts.length)
    (hparts : ∀ (i : Nat) g l t, fields[i]? = some g → lefts[i]? = some l → boths[i]? = some t →
      ∃ r, update' (place.index i) g = .ok r ∧ update (place.index i) r = .ok t ∧ Q g l r t) :
    Exchanges update update' Q segment place (.tuple fields) (.tuple lefts) (.tuple boths) := by
  obtain ⟨rights, hrights, hboths, hfirst, hsecond⟩ := exists_beside hlefts hboths hparts
  refine ⟨.tuple rights, .items hsegment hrights fun i g r hg hr => ?_,
    .items hsegment hboths fun i r t hr ht => ?_, fun s g hg => ?_⟩
  · obtain ⟨_, _, -, -, hchanged, -⟩ := hfirst i g r hg hr
    exact hchanged
  · obtain ⟨_, _, -, hchanged, -⟩ := hsecond i r t hr ht
    exact hchanged
  · cases hg with
    | @each _ i _ _ hg =>
      obtain ⟨hlt, -⟩ := List.getElem?_eq_some_iff.mp hg
      have hr := List.getElem?_eq_getElem (hrights ▸ hlt : i < rights.length)
      obtain ⟨l, t, hl, ht, -, -, hQ⟩ := hfirst i g _ hg hr
      exact ⟨l, _, t, hl, hr, ht, hQ⟩
    | item hne _ _ => exact absurd hsegment hne

theorem exchanges_item {i : Nat} (hsegment : segment ≠ .wildcard)
    (hi : segment.resolve fields.length = .ok (some i)) (hg : fields[i]? = some g)
    (hr : update' (place.index i) g = .ok r) (ht : update (place.index i) r = .ok t)
    (hQ : Q g l r t) : Exchanges update update' Q segment place (.tuple fields)
      (.tuple (fields.set i l)) (.tuple (fields.set i t)) := by
  have hlt := resolve_lt hi
  refine ⟨.tuple (fields.set i r), .item hsegment hi hg hr, ?_, fun s k hk => ?_⟩
  · have hset : (fields.set i r).set i t = fields.set i t := List.set_set _
    rw [← hset]
    exact .item hsegment (by rwa [List.length_set]) (List.getElem?_set_self hlt) ht
  · cases hk with
    | each hwildcard _ => exact absurd hwildcard hsegment
    | item _ hk hfound =>
      obtain rfl := Option.some.inj (Except.ok.inj (hi.symm.trans hk))
      obtain rfl := Option.some.inj (hg.symm.trans hfound)
      have hpart : ∀ child : Field,
          partField (some (.tuple (fields.set i child))) (.index i) = some child :=
        fun _ => List.getElem?_set_self hlt
      exact ⟨l, r, t, hpart l, hpart r, hpart t, hQ⟩

/-- Two changes of a container commute if they do in each part and alter nowhere whether a part
accepts absence. -/
theorem Descends.exchange (h : Descends update segment place f left)
    (h' : Descends update' segment place left both)
    (habsence : ∀ p g g', update p g = .ok g' → g'.acceptsAbsence = g.acceptsAbsence)
    (habsence' : ∀ p g g', update' p g = .ok g' → g'.acceptsAbsence = g.acceptsAbsence)
    (hparts : ∀ g ∈ f.inside segment, ∀ p l t, update p g = .ok l → update' p l = .ok t →
      ∃ r, update' p g = .ok r ∧ update p r = .ok t ∧ Q g l r t) :
    Exchanges update update' Q segment place f left both := by
  cases h with
  | @member members m l hm hl =>
    obtain ⟨m', hm', hfield, hagain⟩ := Member.replaced_again hm (habsence _ _ _ hl)
    cases h' with
    | @member _ _ t hfound ht =>
      obtain rfl := Option.some.inj (hm'.symm.trans hfound)
      rw [hfield] at ht
      obtain ⟨r, hr, hrt, hQ⟩ := hparts m.field (mem_inside_object hm) _ l t hl ht
      have hboth := (habsence' _ _ _ ht).trans (habsence _ _ _ hl)
      rw [hagain t hboth]
      exact exchanges_member hm hr hrt (habsence' _ _ _ hr) hboth hQ
  | @element element l low high hsegment hl =>
    cases h' with
    | @element _ t _ _ _ ht =>
      obtain ⟨r, hr, hrt, hQ⟩ := hparts element (Selects.element 0 hsegment).mem_inside _ l t hl ht
      refine ⟨_, .element hsegment hr, .element hsegment hrt, fun s g hg => ?_⟩
      cases hg with
      | element i _ => exact ⟨l, r, t, rfl, rfl, rfl, hQ⟩
  | @items fields lefts hsegment hlength hl =>
    cases h' with
    | items _ hlength' ht =>
      exact exchanges_items hsegment hlength hlength' fun i g l t hg hgl hlt =>
        hparts g (Selects.each hsegment hg).mem_inside _ l t (hl i g l hg hgl) (ht i l t hgl hlt)
    | item hne _ _ _ => exact absurd hsegment hne
  | @item fields i g l hsegment hi hg hl =>
    cases h' with
    | items hwildcard _ _ => exact absurd hwildcard hsegment
    | @item _ j _ t _ hj hg' ht =>
      rw [List.length_set] at hj
      obtain rfl := Option.some.inj (Except.ok.inj (hi.symm.trans hj))
      rw [List.getElem?_set_self (resolve_lt hi)] at hg'
      cases hg'
      obtain ⟨r, hr, hrt, hQ⟩ := hparts g (mem_inside_tuple hsegment hi hg) _ l t hl ht
      rw [List.set_set]
      exact exchanges_item hsegment hi hg hr hrt hQ

end Exchange

/-! ## Values beside the containers of a field tree -/

variable [Externals]

section Beside

variable {update : Path → Field → Outcome Field} {R : Segment → Value → Value → Prop}
variable {entries : List (Key × Value)} {y : Value}

/-- A value that suits a container suits it afterwards, if the parts entered suit what the parts
of the container have become. -/
theorem Descends.suits (h : Descends update segment place f right) (hsound : f.Sound)
    (hv : f.Suits v) (hy : Enters segment R v y)
    (hR : ∀ s u z r, R s u z → partField (some right) s = some r → r.Suits z) :
    right.Suits y := by
  cases h with
  | @member members m child hm h =>
    obtain ⟨_, rfl, -⟩ := suits_object.mp hv
    have hname := Member.name_of_find? hm
    cases hy with
    | @entry entries u z hfind hz =>
      have hsuits := hR _ u z child hz (partField_replaced hm child)
      refine hv.put hsound.here (.inr ⟨z, by rw [hname]⟩) ?_
      rw [hname, Entries.find?_put, if_pos rfl]
      exact hsuits
  | element hsegment h =>
    obtain ⟨items, rfl, -⟩ := validate_array_eq_nil.mp hv.valid
    cases hy with
    | @each _ items' _ hlength hz =>
      obtain ⟨hcount, -⟩ := suits_array.mp hv
      refine suits_array.mpr ⟨hlength ▸ hcount, fun z hmem => ?_⟩
      obtain ⟨i, hlt, rfl⟩ := List.mem_iff_getElem.mp hmem
      have hu := List.getElem?_eq_getElem (hlength ▸ hlt : i < items.length)
      exact hR _ _ _ _ (hz i _ _ hu (List.getElem?_eq_getElem hlt)) rfl
    | item hne _ _ _ => exact absurd hsegment hne
  | @items fields rights hsegment hlength h =>
    obtain ⟨items, rfl, -⟩ := validate_tuple_eq_nil.mp hv.valid
    have hitems := suits_tuple.mp hv
    cases hy with
    | @each _ items' _ hlength' hz =>
      refine suits_tuple.mpr (Alongside.of_getElem? ?_ fun i r z hr hz' => ?_)
      · exact hlength'.trans (hitems.length_eq.symm.trans hlength.symm)
      · obtain ⟨hlt, -⟩ := List.getElem?_eq_some_iff.mp hz'
        have hu := List.getElem?_eq_getElem (hlength' ▸ hlt : i < items.length)
        exact hR _ _ _ _ (hz i _ _ hu hz') hr
    | item hne _ _ _ => exact absurd hsegment hne
  | @item fields i g r hsegment hi hg h =>
    obtain ⟨items, rfl, -⟩ := validate_tuple_eq_nil.mp hv.valid
    have hitems := suits_tuple.mp hv
    cases hy with
    | each hwildcard _ _ => exact absurd hwildcard hsegment
    | @item _ j _ z _ hj hu hz =>
      rw [← hitems.length_eq, hi] at hj
      obtain rfl := Option.some.inj (Except.ok.inj hj)
      refine suits_tuple.mpr (Alongside.set hitems i ?_)
      exact hR _ _ _ _ hz (List.getElem?_set_self (resolve_lt hi))

/-- An object in which the name on the path may be absent and is, suits its field afterwards. -/
theorem Descends.suits_passed (h : Descends update segment place f right) (hsound : f.Sound)
    (hv : f.Suits (.object entries))
    (hnone : Entries.find? (.text segment.text) entries = none)
    (habsence : (memberField (some f) segment.text).any acceptsAbsence = true)
    (hupdate : ∀ p g r, update p g = .ok r → r.acceptsAbsence = g.acceptsAbsence ∧
      (g.acceptsAbsence = true → r.validate {} .root .missing = .ok [])) :
    right.Suits (.object entries) := by
  cases h with
  | @member members m child hm h =>
    have hname := Member.name_of_find? hm
    obtain ⟨hsame, hmissing⟩ := hupdate _ _ _ h
    have hmember : m.field.acceptsAbsence = true := by
      rwa [memberField, hm] at habsence
    rw [Member.replaced_of_same_absence hsame]
    refine hv.put hsound.here (.inl rfl) ?_
    rw [hname, hnone]
    refine ⟨?_, fun _ => hmissing hmember⟩
    unfold Member.staysRequired
    rw [hmember, Bool.not_true, Bool.and_false]
  | _ => cases habsence

end Beside

end Change
end Lineage
