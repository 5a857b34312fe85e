import Lineage.Proofs.Alongside
import Lineage.Proofs.Value.Equality

/-
The two equalities of values as relations.

Both are transitive, and symmetric between values whose containers hold each key once.  An
object is looked through from one side only, and so is a set; the other side follows by
counting, as both hold equally many keys.  Structural equality implies loose equality.  Every
value but NaN itself equals itself loosely.
-/

namespace Lineage

/-- Where each item of a list has a partner in another list of the same length, and no two
have one in common, each item of the other list is a partner. -/
theorem exists_partner_of_length {α β : Type} {R : α → β → Prop} {as : List α} {bs : List β}
    (hlength : as.length = bs.length) (hpartner : ∀ a ∈ as, ∃ b ∈ bs, R a b)
    (happart : as.Pairwise fun a a' => ∀ b, R a b → ¬R a' b) : ∀ b ∈ bs, ∃ a ∈ as, R a b := by
  induction as generalizing bs with
  | nil =>
    obtain rfl := List.eq_nil_of_length_eq_zero hlength.symm
    exact List.forall_mem_nil _
  | cons a rest ih =>
    obtain ⟨⟨b, hb, hab⟩, hrest⟩ := List.forall_mem_cons.mp hpartner
    obtain ⟨ha, happart⟩ := List.pairwise_cons.mp happart
    -- The partner of the first item is set aside; the later items have theirs elsewhere.
    obtain ⟨before, after, rfl⟩ := List.append_of_mem hb
    have hothers : ∀ a' ∈ rest, ∃ c ∈ before ++ after, R a' c := by
      intro a' ha'
      obtain ⟨c, hc, hac⟩ := hrest a' ha'
      rcases List.mem_cons.mp (List.perm_middle.mem_iff.mp hc) with rfl | hc
      · exact absurd hac (ha a' ha' c hab)
      · exact ⟨c, hc, hac⟩
    have hcount : rest.length = (before ++ after).length :=
      Nat.succ.inj (hlength.trans List.perm_middle.length_eq)
    intro c hc
    rcases List.mem_cons.mp (List.perm_middle.mem_iff.mp hc) with rfl | hc
    · exact ⟨a, List.mem_cons_self, hab⟩
    · obtain ⟨a', ha', hac⟩ := ih hcount hothers happart c hc
      exact ⟨a', List.mem_cons_of_mem _ ha', hac⟩

/-! ## Scalars and keys -/

namespace Scalar

variable {numbers numbers' : Number → Number → Bool}

theorem sameBy_comm (hcomm : ∀ m n, numbers m n = numbers n m) (a b : Scalar) :
    a.sameBy numbers b = b.sameBy numbers a := by
  unfold sameBy
  cases a.asNumber? with
  | none =>
    cases b.asNumber? with
    | none => exact equal_comm a b
    | some n => rfl
  | some m =>
    cases b.asNumber? with
    | none => rfl
    | some n => exact hcomm m n

theorem sameBy_trans
    (htrans : ∀ l m n, numbers l m = true → numbers m n = true → numbers l n = true)
    {a b c : Scalar} (hab : a.sameBy numbers b = true) (hbc : b.sameBy numbers c = true) :
    a.sameBy numbers c = true := by
  unfold sameBy at hab hbc ⊢
  cases ha : a.asNumber? with
  | none =>
    cases hb : b.asNumber? with
    | none =>
      cases hc : c.asNumber? with
      | none =>
        rw [ha, hb] at hab
        rw [hb, hc] at hbc
        exact equal_trans hab hbc
      | some n =>
        rw [hb, hc] at hbc
        cases hbc
    | some n =>
      rw [ha, hb] at hab
      cases hab
  | some m =>
    cases hb : b.asNumber? with
    | none =>
      rw [ha, hb] at hab
      cases hab
    | some n =>
      cases hc : c.asNumber? with
      | none =>
        rw [hb, hc] at hbc
        cases hbc
      | some l =>
        rw [ha, hb] at hab
        rw [hb, hc] at hbc
        exact htrans m n l hab hbc

theorem copyOf_comm (a b : Scalar) : a.sameBy Number.copyOf b = b.sameBy Number.copyOf a :=
  sameBy_comm (fun m n => by
    rw [Bool.eq_iff_iff, Number.copyOf_iff, Number.copyOf_iff, eq_comm]) a b

theorem copyOf_trans {a b c : Scalar} (hab : a.sameBy Number.copyOf b = true)
    (hbc : b.sameBy Number.copyOf c = true) : a.sameBy Number.copyOf c = true := by
  have htrans : ∀ l m n : Number, l.copyOf m = true → m.copyOf n = true → l.copyOf n = true := by
    intro l m n hlm hmn
    rw [Number.copyOf_iff] at hlm hmn ⊢
    exact hlm.trans hmn
  exact sameBy_trans htrans hab hbc

theorem copyOf_self (a : Scalar) : a.sameBy Number.copyOf a = true := by
  cases a with
  | bool b => exact Number.copyOf_iff.mpr rfl
  | number n => exact Number.copyOf_iff.mpr rfl
  | null => rfl
  | text s => exact beq_self_eq_true s

theorem sameBy_mono (himp : ∀ m n, numbers m n = true → numbers' m n = true) {a b : Scalar}
    (h : a.sameBy numbers b = true) : a.sameBy numbers' b = true := by
  unfold sameBy at h ⊢
  split at h
  · exact himp _ _ h
  · exact h
  · cases h

theorem sameBy_of_equal {a b : Scalar} (h : a.equal b = true) :
    a.sameBy Number.same b = true := by
  cases a with
  | bool x =>
    cases b with
    | bool y =>
      obtain rfl : x = y := by simpa [equal] using h
      exact @Number.same_refl (.int (if x then 1 else 0)) rfl
    | _ => cases h
  | _ => cases b <;> first | exact h | cases h

end Scalar

namespace Key

mutual

theorem same_comm : ∀ k l : Key, k.same l = l.same k
  | .scalar a, .scalar b => Scalar.copyOf_comm a b
  | .tuple as, .tuple bs => sameItems_comm as bs
  | .bytes _, .bytes _ => Bool.beq_comm
  | .thing, .thing => rfl
  | .missing, .missing => rfl
  | .thing, .scalar _ | .thing, .tuple _ | .thing, .bytes _ | .thing, .missing => rfl
  | .scalar _, .tuple _ | .scalar _, .bytes _ | .scalar _, .thing | .scalar _, .missing => rfl
  | .tuple _, .scalar _ | .tuple _, .bytes _ | .tuple _, .thing | .tuple _, .missing => rfl
  | .bytes _, .scalar _ | .bytes _, .tuple _ | .bytes _, .thing | .bytes _, .missing => rfl
  | .missing, .scalar _ | .missing, .tuple _ | .missing, .bytes _ | .missing, .thing => rfl

theorem sameItems_comm : ∀ ks ls : List Key, sameItems ks ls = sameItems ls ks
  | [], [] => rfl
  | [], _ :: _ | _ :: _, [] => rfl
  | k :: ks, l :: ls => by rw [sameItems, sameItems, same_comm k l, sameItems_comm ks ls]

end

mutual

theorem same_trans : ∀ {k l j : Key}, k.same l = true → l.same j = true → k.same j = true
  | .scalar _, .scalar _, .scalar _, hkl, hlj => Scalar.copyOf_trans hkl hlj
  | .tuple _, .tuple _, .tuple _, hkl, hlj => sameItems_trans hkl hlj
  | .bytes _, .bytes _, .bytes _, hkl, hlj =>
    beq_iff_eq.mpr ((beq_iff_eq.mp hkl).trans (beq_iff_eq.mp hlj))
  | .thing, .thing, .thing, _, _ => rfl
  | .missing, .missing, .missing, _, _ => rfl

theorem sameItems_trans : ∀ {ks ls js : List Key}, sameItems ks ls = true →
    sameItems ls js = true → sameItems ks js = true
  | [], [], [], _, _ => rfl
  | _ :: _, _ :: _, _ :: _, hkl, hlj => by
    obtain ⟨hk, hks⟩ := Bool.and_eq_true_iff.mp hkl
    obtain ⟨hl, hls⟩ := Bool.and_eq_true_iff.mp hlj
    exact Bool.and_eq_true_iff.mpr ⟨same_trans hk hl, sameItems_trans hks hls⟩

end

mutual

/-- Each key names its own entry, NaN and foreign things among them. -/
theorem same_self : ∀ k : Key, k.same k = true
  | .scalar a => Scalar.copyOf_self a
  | .tuple ks => sameItems_self ks
  | .bytes s => beq_self_eq_true s
  | .thing => rfl
  | .missing => rfl

theorem sameItems_self : ∀ ks : List Key, sameItems ks ks = true
  | [] => rfl
  | k :: ks => Bool.and_eq_true_iff.mpr ⟨same_self k, sameItems_self ks⟩

end

theorem same_symm {k l : Key} (h : k.same l = true) : l.same k = true := same_comm k l ▸ h

/-- Keys that name one entry name the same others. -/
theorem same_congr {k l : Key} (h : k.same l = true) (j : Key) : j.same k = j.same l := by
  rw [Bool.eq_iff_iff]
  exact ⟨fun hk => same_trans hk h, fun hl => same_trans hl (same_symm h)⟩

/-- Keys that differ do not name one entry both. -/
theorem not_same_of_same {k l : Key} (hne : k.same l = false) (j : Key) (h : k.same j = true) :
    ¬l.same j = true := fun h' =>
  Bool.false_ne_true (hne.symm.trans (same_trans h (same_symm h')))

end Key

/-! ## Entries -/

namespace Entries

variable {k l : Key} {es ds cs : List (Key × Value)}

theorem find?_congr (h : k.same l = true) : find? k es = find? l es := by
  induction es with
  | nil => rfl
  | cons e rest ih => rw [find?, find?, Key.same_congr h, ih]

/-- Where keys differ, an entry is the one found under each key that names it. -/
theorem Distinct.find?_of_same (h : Distinct es) {e : Key × Value} (he : e ∈ es)
    (hkey : e.1.same k = true) : find? k es = some e.2 := by
  induction es with
  | nil => cases he
  | cons d rest ih =>
    obtain ⟨hd, hrest⟩ := List.pairwise_cons.mp h
    rw [find?]
    rcases List.mem_cons.mp he with rfl | he
    · exact if_pos hkey
    · have hne : d.1.same k = false := by rw [← Key.same_congr hkey, hd e he]
      rw [hne, if_neg Bool.false_ne_true]
      exact ih hrest he

/-- Equally many entries, and under each key of the first a related value in the second. -/
structure Matched (R : Value → Value → Prop) (es ds : List (Key × Value)) : Prop where
  length : es.length = ds.length
  found : ∀ e ∈ es, ∃ w, find? e.1 ds = some w ∧ R e.2 w

variable {R S T : Value → Value → Prop}

theorem Matched.sameKeys (h : Matched R es ds) : sameKeys es ds = true := by
  refine Bool.and_eq_true_iff.mpr ⟨beq_iff_eq.mpr h.length, List.all_eq_true.mpr fun e he => ?_⟩
  obtain ⟨w, hw, -⟩ := h.found e he
  exact Option.isSome_iff_exists.mpr ⟨w, hw⟩

theorem Matched.imp (h : Matched R es ds) (himp : ∀ e ∈ es, ∀ w, R e.2 w → S e.2 w) :
    Matched S es ds where
  length := h.length
  found e he := by
    obtain ⟨w, hw, hvalue⟩ := h.found e he
    exact ⟨w, hw, himp e he w hvalue⟩

theorem Matched.trans (h : Matched R es ds) (h' : Matched S ds cs)
    (hT : ∀ e ∈ es, ∀ w u, R e.2 w → S w u → T e.2 u) : Matched T es cs where
  length := h.length.trans h'.length
  found e he := by
    obtain ⟨w, hw, hvalue⟩ := h.found e he
    obtain ⟨d, hd, hkey, rfl⟩ := mem_of_find? hw
    obtain ⟨u, hu, hvalue'⟩ := h'.found d hd
    exact ⟨u, (find?_congr hkey).symm.trans hu, hT e he _ u hvalue hvalue'⟩

theorem Matched.symm (h : Matched R es ds) (hes : Distinct es) (hds : Distinct ds)
    (hS : ∀ e ∈ es, ∀ d ∈ ds, R e.2 d.2 → S d.2 e.2) : Matched S ds es where
  length := h.length.symm
  found := by
    have hpartner : ∀ e ∈ es, ∃ d ∈ ds, e.1.same d.1 = true := by
      intro e he
      obtain ⟨w, hw, -⟩ := h.found e he
      obtain ⟨d, hd, hkey, -⟩ := mem_of_find? hw
      exact ⟨d, hd, Key.same_symm hkey⟩
    have hback := exists_partner_of_length h.length hpartner
      (hes.imp fun hne (d : Key × Value) => Key.not_same_of_same hne d.1)
    intro d hd
    obtain ⟨e, he, hkey⟩ := hback d hd
    obtain ⟨w, hw, hvalue⟩ := h.found e he
    obtain rfl : d.2 = w :=
      Option.some.inj ((hds.find?_of_same hd (Key.same_symm hkey)).symm.trans hw)
    exact ⟨e.2, hes.find?_of_same he hkey, hS e he d hd hvalue⟩

theorem Matched.refl (h : Distinct es) (hvalues : ∀ e ∈ es, R e.2 e.2) : Matched R es es where
  length := rfl
  found e he := ⟨e.2, h.find?_of_same he (Key.same_self e.1), hvalues e he⟩

end Entries

namespace Value

variable {numbers numbers' : Number → Number → Bool}

/-- Induction over values. -/
theorem treeInduction {motive : Value → Prop} (scalar : ∀ s, motive (.scalar s))
    (array : ∀ items, (∀ v ∈ items, motive v) → motive (.array items))
    (object : ∀ entries, (∀ e ∈ entries, motive e.2) → motive (.object entries))
    (tuple : ∀ items, (∀ v ∈ items, motive v) → motive (.tuple items))
    (set : ∀ items, motive (.set items)) (bytes : ∀ s, motive (.bytes s))
    (thing : motive .thing) (missing : motive .missing) : ∀ v, motive v
  | .scalar s => scalar s
  | .array items => array items fun v hv =>
    have := List.sizeOf_lt_of_mem hv
    treeInduction scalar array object tuple set bytes thing missing v
  | .object entries => object entries fun e he =>
    have := Entries.sizeOf_value_lt he
    treeInduction scalar array object tuple set bytes thing missing e.2
  | .tuple items => tuple items fun v hv =>
    have := List.sizeOf_lt_of_mem hv
    treeInduction scalar array object tuple set bytes thing missing v
  | .set items => set items
  | .bytes s => bytes s
  | .thing => thing
  | .missing => missing
termination_by v => sizeOf v

/-! ## What the two equalities say -/

theorem equalItems_eq_ok {items others : List Value} :
    items.length = others.length ∧ equalItems items others = .ok true ↔
      List.Forall₂ (fun v w => v.equal w = .ok true) items others := by
  constructor
  · rintro ⟨hlength, h⟩
    exact of_equalItems hlength h
  · intro h
    refine ⟨h.length_eq, ?_⟩
    induction h with
    | nil => rfl
    | cons hvw _ ih =>
      rw [equalItems, hvw]
      exact ih

theorem equal_array {items others : List Value} :
    (array items).equal (array others) = .ok true ↔
      List.Forall₂ (fun v w => v.equal w = .ok true) items others := by
  rw [← equalItems_eq_ok, equal]
  by_cases hlength : items.length = others.length
  · simp [hlength]
  · simp [hlength]

theorem equalEntries_of {entries others : List (Key × Value)}
    (h : ∀ e ∈ entries, ∃ w, Entries.find? e.1 others = some w ∧ e.2.equal w = .ok true) :
    equalEntries entries others = .ok true := by
  induction entries with
  | nil => rfl
  | cons e rest ih =>
    obtain ⟨⟨w, hw, hvw⟩, hrest⟩ := List.forall_mem_cons.mp h
    rw [equalEntries, hw]
    simp only [hvw]
    exact ih hrest

theorem equal_object {entries others : List (Key × Value)} :
    (object entries).equal (object others) = .ok true ↔
      Entries.Matched (fun v w => v.equal w = .ok true) entries others := by
  constructor
  · intro h
    obtain ⟨_, hothers, hlength, hfound⟩ := object_of_equal h
    cases hothers
    exact ⟨hlength, hfound⟩
  · intro h
    rw [equal, h.sameKeys]
    exact equalEntries_of h.found

theorem itemsCopied_eq_true {items others : List Value} :
    itemsCopied items others = true ↔ List.Forall₂ (fun v w => v.copyOf w = true) items others := by
  induction items generalizing others with
  | nil => cases others <;> simp [itemsCopied]
  | cons v rest ih => cases others <;> simp [itemsCopied, ih]

theorem entriesCopied_eq_true {entries others : List (Key × Value)} :
    entriesCopied entries others = true ↔
      ∀ e ∈ entries, ∃ w, Entries.find? e.1 others = some w ∧ e.2.copyOf w = true := by
  induction entries with
  | nil => simp [entriesCopied]
  | cons e rest ih =>
    rw [entriesCopied, Bool.and_eq_true, ih, List.forall_mem_cons]
    refine and_congr_left fun _ => ?_
    cases Entries.find? e.1 others with
    | none => simp
    | some w => simp

theorem copyOf_object {entries others : List (Key × Value)} :
    (object entries).copyOf (object others) = true ↔
      Entries.Matched (fun v w => v.copyOf w = true) entries others := by
  rw [copyOf, Bool.and_eq_true, entriesCopied_eq_true]
  constructor
  · rintro ⟨hkeys, hfound⟩
    obtain ⟨hlength, -⟩ := Bool.and_eq_true_iff.mp hkeys
    exact ⟨beq_iff_eq.mp hlength, hfound⟩
  · intro h
    exact ⟨h.sameKeys, h.found⟩

theorem copyOf_set {items others : List Key} :
    (set items).copyOf (set others) = true ↔
      items.length = others.length ∧ ∀ k ∈ items, ∃ l ∈ others, k.same l = true := by
  simp [copyOf]

/-! ## Structural equality -/

theorem equal_symm {v w : Value} (hv : v.KeysDistinct) (hw : w.KeysDistinct)
    (h : v.equal w = .ok true) : w.equal v = .ok true := by
  induction v using treeInduction generalizing w with
  | scalar a =>
    obtain ⟨b, rfl, hab⟩ := scalar_of_equal h
    show Except.ok (b.equal a) = .ok true
    rw [Scalar.equal_comm, hab]
  | array items ih =>
    obtain ⟨others, rfl, hitems⟩ := array_of_equal h
    cases hv with
    | array hvs =>
      cases hw with
      | array hws =>
        exact equal_array.mpr (List.Forall₂.flip (Alongside.imp_mem hitems fun a ha b hb hab =>
          ih a ha (hvs a ha) (hws b hb) hab))
  | object entries ih =>
    obtain ⟨others, rfl, hlength, hfound⟩ := object_of_equal h
    cases hv with
    | object hkeys hvs =>
      cases hw with
      | object hkeys' hws =>
        have hmatched := equal_object.mp h
        exact equal_object.mpr (hmatched.symm hkeys hkeys' fun e he d hd hed =>
          ih e he (hvs e he) (hws d hd) hed)
  | tuple => cases h
  | set => cases h
  | bytes => cases h
  | thing => cases h
  | missing => cases h

theorem equal_trans {v w u : Value} (hvw : v.equal w = .ok true) (hwu : w.equal u = .ok true) :
    v.equal u = .ok true := by
  induction v using treeInduction generalizing w u with
  | scalar a =>
    obtain ⟨b, rfl, hab⟩ := scalar_of_equal hvw
    obtain ⟨c, rfl, hbc⟩ := scalar_of_equal hwu
    exact congrArg Except.ok (Scalar.equal_trans hab hbc)
  | array items ih =>
    obtain ⟨others, rfl, hitems⟩ := array_of_equal hvw
    obtain ⟨more, rfl, hothers⟩ := array_of_equal hwu
    exact equal_array.mpr (Alongside.comp hitems hothers fun a ha b c hab hbc =>
      ih a ha hab hbc)
  | object entries ih =>
    obtain ⟨others, rfl, -⟩ := object_of_equal hvw
    obtain ⟨more, rfl, -⟩ := object_of_equal hwu
    exact equal_object.mpr ((equal_object.mp hvw).trans (equal_object.mp hwu)
      fun e he w u hew hwu => ih e he hew hwu)
  | tuple => cases hvw
  | set => cases hvw
  | bytes => cases hvw
  | thing => cases hvw
  | missing => cases hvw

/-! ## Loose equality -/

/-- A value whose objects and sets hold each key once. -/
inductive Proper : Value → Prop
  | scalar (s : Scalar) : Proper (.scalar s)
  | array {items : List Value} (hitems : ∀ v ∈ items, Proper v) : Proper (.array items)
  | object {entries : List (Key × Value)} (hkeys : Entries.Distinct entries)
      (hvalues : ∀ e ∈ entries, Proper e.2) : Proper (.object entries)
  | tuple {items : List Value} (hitems : ∀ v ∈ items, Proper v) : Proper (.tuple items)
  | set {items : List Key} (hitems : items.Pairwise fun k l => k.same l = false) :
      Proper (.set items)
  | bytes (s : String) : Proper (.bytes s)
  | thing : Proper .thing
  | missing : Proper .missing

theorem copyOf_symm {v w : Value} (hv : v.Proper) (hw : w.Proper) (h : v.copyOf w = true) :
    w.copyOf v = true := by
  induction v using treeInduction generalizing w with
  | scalar a =>
    cases w with
    | scalar b => exact (Scalar.copyOf_comm b a).trans h
    | _ => cases h
  | array items ih =>
    cases w with
    | array others =>
      cases hv with
      | array hvs =>
        cases hw with
        | array hws =>
          exact itemsCopied_eq_true.mpr (List.Forall₂.flip (Alongside.imp_mem
            (itemsCopied_eq_true.mp h) fun a ha b hb hab => ih a ha (hvs a ha) (hws b hb) hab))
    | _ => cases h
  | object entries ih =>
    cases w with
    | object others =>
      cases hv with
      | object hkeys hvs =>
        cases hw with
        | object hkeys' hws =>
          exact copyOf_object.mpr ((copyOf_object.mp h).symm hkeys hkeys' fun e he d hd hed =>
            ih e he (hvs e he) (hws d hd) hed)
    | _ => cases h
  | tuple items ih =>
    cases w with
    | tuple others =>
      cases hv with
      | tuple hvs =>
        cases hw with
        | tuple hws =>
          exact itemsCopied_eq_true.mpr (List.Forall₂.flip (Alongside.imp_mem
            (itemsCopied_eq_true.mp h) fun a ha b hb hab => ih a ha (hvs a ha) (hws b hb) hab))
    | _ => cases h
  | set items =>
    cases w with
    | set others =>
      cases hv with
      | set hitems =>
        obtain ⟨hlength, hpartner⟩ := copyOf_set.mp h
        have hback := exists_partner_of_length hlength hpartner
          (hitems.imp Key.not_same_of_same)
        refine copyOf_set.mpr ⟨hlength.symm, fun l hl => ?_⟩
        obtain ⟨k, hk, hkl⟩ := hback l hl
        exact ⟨k, hk, Key.same_symm hkl⟩
    | _ => cases h
  | bytes s =>
    cases w with
    | bytes t => exact beq_iff_eq.mpr (beq_iff_eq.mp h).symm
    | _ => cases h
  | thing =>
    cases w with
    | thing => rfl
    | _ => cases h
  | missing =>
    cases w with
    | missing => rfl
    | _ => cases h

theorem copyOf_trans {v w u : Value} (hvw : v.copyOf w = true) (hwu : w.copyOf u = true) :
    v.copyOf u = true := by
  induction v using treeInduction generalizing w u with
  | scalar a =>
    cases w with
    | scalar b =>
      cases u with
      | scalar c => exact Scalar.copyOf_trans hvw hwu
      | _ => cases hwu
    | _ => cases hvw
  | array items ih =>
    cases w with
    | array others =>
      cases u with
      | array more =>
        exact itemsCopied_eq_true.mpr (Alongside.comp (itemsCopied_eq_true.mp hvw)
          (itemsCopied_eq_true.mp hwu) fun a ha b c hab hbc => ih a ha hab hbc)
      | _ => cases hwu
    | _ => cases hvw
  | object entries ih =>
    cases w with
    | object others =>
      cases u with
      | object more =>
        exact copyOf_object.mpr ((copyOf_object.mp hvw).trans (copyOf_object.mp hwu)
          fun e he w u hew hwu => ih e he hew hwu)
      | _ => cases hwu
    | _ => cases hvw
  | tuple items ih =>
    cases w with
    | tuple others =>
      cases u with
      | tuple more =>
        exact itemsCopied_eq_true.mpr (Alongside.comp (itemsCopied_eq_true.mp hvw)
          (itemsCopied_eq_true.mp hwu) fun a ha b c hab hbc => ih a ha hab hbc)
      | _ => cases hwu
    | _ => cases hvw
  | set items =>
    cases w with
    | set others =>
      cases u with
      | set more =>
        obtain ⟨hlength, hpartner⟩ := copyOf_set.mp hvw
        obtain ⟨hlength', hpartner'⟩ := copyOf_set.mp hwu
        refine copyOf_set.mpr ⟨hlength.trans hlength', fun k hk => ?_⟩
        obtain ⟨l, hl, hkl⟩ := hpartner k hk
        obtain ⟨j, hj, hlj⟩ := hpartner' l hl
        exact ⟨j, hj, Key.same_trans hkl hlj⟩
      | _ => cases hwu
    | _ => cases hvw
  | bytes s =>
    cases w with
    | bytes t =>
      cases u with
      | bytes r => exact beq_iff_eq.mpr ((beq_iff_eq.mp hvw).trans (beq_iff_eq.mp hwu))
      | _ => cases hwu
    | _ => cases hvw
  | thing =>
    cases w with
    | thing => exact hwu
    | _ => cases hvw
  | missing =>
    cases w with
    | missing => exact hwu
    | _ => cases hvw

theorem copyOf_self {v : Value} (hv : v.Proper) : v.copyOf v = true := by
  induction v using treeInduction with
  | scalar a => exact Scalar.copyOf_self a
  | array items ih =>
    cases hv with
    | array hvs =>
      exact itemsCopied_eq_true.mpr (List.forall₂_same.mpr fun a ha => ih a ha (hvs a ha))
  | object entries ih =>
    cases hv with
    | object hkeys hvs =>
      exact copyOf_object.mpr (Entries.Matched.refl hkeys fun e he => ih e he (hvs e he))
  | tuple items ih =>
    cases hv with
    | tuple hvs =>
      exact itemsCopied_eq_true.mpr (List.forall₂_same.mpr fun a ha => ih a ha (hvs a ha))
  | set items => exact copyOf_set.mpr ⟨rfl, fun k hk => ⟨k, hk, Key.same_self k⟩⟩
  | bytes s => exact beq_self_eq_true s
  | thing => rfl
  | missing => rfl

/-- Structural equality implies loose equality. -/
theorem copyOf_of_equal {v w : Value} (h : v.equal w = .ok true) : v.copyOf w = true := by
  induction v using treeInduction generalizing w with
  | scalar a =>
    obtain ⟨b, rfl, hab⟩ := scalar_of_equal h
    exact Scalar.sameBy_mono (fun m n hmn => Number.copyOf_iff.mpr
      (Number.position_eq_of_same hmn)) (Scalar.sameBy_of_equal hab)
  | array items ih =>
    obtain ⟨others, rfl, hitems⟩ := array_of_equal h
    exact itemsCopied_eq_true.mpr (Alongside.imp_mem hitems fun a ha b _ hab => ih a ha hab)
  | object entries ih =>
    obtain ⟨others, rfl, -⟩ := object_of_equal h
    exact copyOf_object.mpr ((equal_object.mp h).imp fun e he w hew => ih e he hew)
  | tuple => cases h
  | set => cases h
  | bytes => cases h
  | thing => cases h
  | missing => cases h

/-! ### Values that are compared by themselves -/

theorem sameBy_symm {v w : Value} (hv : v.Proper) (hw : w.Proper)
    (h : v.sameBy Number.same w = true) : w.sameBy Number.same v = true := by
  cases v with
  | scalar a =>
    cases w with
    | scalar b => exact (Scalar.sameBy_comm Number.same_comm b a).trans h
    | _ => cases h
  | _ =>
    cases w with
    | scalar b => cases h
    | _ => exact copyOf_symm hv hw h

theorem sameBy_comm {v w : Value} (hv : v.Proper) (hw : w.Proper) :
    v.sameBy Number.same w = w.sameBy Number.same v :=
  Bool.eq_iff_iff.mpr ⟨sameBy_symm hv hw, sameBy_symm hw hv⟩

theorem sameBy_trans {v w u : Value} (hvw : v.sameBy Number.same w = true)
    (hwu : w.sameBy Number.same u = true) : v.sameBy Number.same u = true := by
  cases v with
  | scalar a =>
    cases w with
    | scalar b =>
      cases u with
      | scalar c =>
        have htrans : ∀ l m n : Number, l.same m = true → m.same n = true → l.same n = true :=
          fun _ _ _ => Number.same_trans
        exact Scalar.sameBy_trans htrans hvw hwu
      | _ => cases hwu
    | _ => cases hvw
  | _ =>
    cases w with
    | scalar b => cases hvw
    | _ =>
      change Value.copyOf _ _ = true at hvw hwu ⊢
      exact copyOf_trans hvw hwu

/-- Only NaN differs from itself. -/
theorem sameBy_self {v : Value} (hv : v.Proper) (hreal : ∀ a, v = .scalar a → a.IsReal) :
    v.sameBy Number.same v = true := by
  cases v with
  | scalar a => exact Scalar.sameBy_of_equal (Scalar.equal_of_isReal (hreal a rfl))
  | _ => exact copyOf_self hv

theorem sameBy_mono (himp : ∀ m n, numbers m n = true → numbers' m n = true) {v w : Value}
    (h : v.sameBy numbers w = true) : v.sameBy numbers' w = true := by
  cases v with
  | scalar a =>
    cases w with
    | scalar b => exact Scalar.sameBy_mono himp h
    | _ => cases h
  | _ => exact h

theorem sameBy_of_equal {v w : Value} (h : v.equal w = .ok true) :
    v.sameBy Number.same w = true := by
  cases v with
  | scalar a =>
    obtain ⟨b, rfl, hab⟩ := scalar_of_equal h
    exact Scalar.sameBy_of_equal hab
  | _ => exact copyOf_of_equal h

end Value
end Lineage
