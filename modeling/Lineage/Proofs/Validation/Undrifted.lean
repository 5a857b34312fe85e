import Lineage.Format.Email
import Lineage.Proofs.Field.Agreement
import Lineage.Proofs.Field.Equality
import Lineage.Proofs.Validation.Complete
import Lineage.Proofs.Value.Loose

/-
Fields between which the comparison finds nothing accept the same JSON values.

The comparison takes bounds, literals and defaults by value and members under their
names, so the two sides may spell a number differently and list names in another order.
Validation cannot tell such attributes apart, provided that no tag is a number: a tag is
looked up by its type, too, so `1` and `1.0` compare as one tag and select as two.
-/

namespace Lineage

/-! ## Values -/

namespace Scalar

theorem alike_of_equal {a b : Scalar} (h : a.equal b = true) : a.Alike b := by
  cases a with
  | null =>
    cases b with
    | null => exact .null
    | _ => cases h
  | bool x =>
    cases b with
    | bool y =>
      have hxy : (x == y) = true := h
      obtain rfl := eq_of_beq hxy
      exact .bool x
    | _ => cases h
  | number m =>
    cases b with
    | number n => exact .number (Number.position_eq_of_same h)
    | _ => cases h
  | text s =>
    cases b with
    | text t =>
      have hst : (s == t) = true := h
      obtain rfl := eq_of_beq hst
      exact .text s
    | _ => cases h

end Scalar

namespace Value

/-- One JSON value, up to the order of keys and the spelling of numbers, or nothing on both
sides. -/
inductive Same : Value → Value → Prop
  | json {v w : Value} (hv : v.IsJson) (hw : w.IsJson) (h : v.equal w = .ok true) : Same v w
  | missing : Same .missing .missing

theorem same_self {v : Value} (h : v.IsJson) : Same v v := .json h h (equal_self h)

end Value

namespace Entries

/-- Keys of entries under texts are keys of the entries they are matched with. -/
theorem Matched.key_mem {R : Value → Value → Prop} {es ds : List (Key × Value)}
    (h : Matched R es ds) (hnames : ∀ e ∈ es, ∃ name, e.1 = .text name) {key : Key}
    (hkey : ∃ e ∈ es, e.1 = key) : ∃ d ∈ ds, d.1 = key := by
  obtain ⟨⟨k, v⟩, he, rfl⟩ := hkey
  obtain ⟨name, hname⟩ := hnames _ he
  obtain rfl : k = .text name := hname
  obtain ⟨w, hw, -⟩ := h.found _ he
  exact ⟨_, mem_of_find?_text hw, rfl⟩

/-- Objects of which the first has as many keys as the second, each with an equal value
there, have the same keys. -/
theorem alike_of_equal {es ds : List (Key × Value)} (hes : (Value.object es).IsJson)
    (hds : (Value.object ds).IsJson)
    (h : Matched (fun v w => v.equal w = .ok true) es ds) : Alike Value.Same es ds := by
  obtain ⟨hdistinct, hentries⟩ := Value.isJson_object.mp hes
  obtain ⟨hdistinct', hothers⟩ := Value.isJson_object.mp hds
  have hback : Matched (fun _ _ => True) ds es :=
    h.symm hdistinct hdistinct' fun _ _ _ _ _ => trivial
  have hkeys : ∀ key, (∃ e ∈ es, e.1 = key) ↔ ∃ d ∈ ds, d.1 = key := fun key =>
    ⟨h.key_mem fun e he => (hentries e he).1, hback.key_mem fun d hd => (hothers d hd).1⟩
  refine ⟨hkeys, fun name => ?_⟩
  cases hv : find? (.text name) es with
  | some v =>
    have hmem := mem_of_find?_text hv
    obtain ⟨w, hw, hvw⟩ := h.found _ hmem
    rw [hw]
    exact .some (.json (hentries _ hmem).2 (hothers _ (mem_of_find?_text hw)).2 hvw)
  | none =>
    have hnone : find? (.text name) ds = none := by
      refine find?_eq_none.mpr fun d hd hname => ?_
      obtain ⟨e, he, hename⟩ := (hkeys (.text name)).mpr ⟨d, hd, hname⟩
      exact find?_eq_none.mp hv e he hename
    rw [hnone]
    exact .none

end Entries

namespace Value

theorem correspondence_same : Correspondence Same where
  missing := .missing
  checked h := by
    cases h with
    | missing => exact Iff.rfl
    | json hv hw h => exact iff_of_true hv.checked hw.checked
  parts {v w} h := by
    cases h with
    | missing => exact .missing
    | json hv hw h =>
      cases v with
      | scalar s =>
        obtain ⟨t, rfl, hst⟩ := scalar_of_equal h
        exact .scalar (Scalar.alike_of_equal hst)
      | array items =>
        obtain ⟨others, rfl, hitems⟩ := array_of_equal h
        have hjson := isJson_array.mp hv
        have hothers := isJson_array.mp hw
        exact .array (Alongside.imp_mem hitems fun a ha b hb hab =>
          .json (hjson a ha) (hothers b hb) hab)
      | object entries =>
        obtain ⟨others, rfl, hlength, hentries⟩ := object_of_equal h
        exact .object (Entries.alike_of_equal hv hw ⟨hlength, hentries⟩)
      | tuple _ => cases h
      | set _ => cases h
      | bytes _ => cases h
      | thing => cases h
      | missing => cases h

end Value

namespace Field

open Validation

variable {f g expected actual : Field} {key : String} {tag tag' : Value}

/-! ## Tags -/

theorem tag_of_matches (h : Matches f g) {a : Scalar} (ha : f.tagOf? key = some a) :
    ∃ b, g.tagOf? key = some b ∧ a.equal b = true := by
  obtain ⟨members, rfl, hfind⟩ := tagOf?_eq_some ha
  cases matches_iff.mp h with
  | @object _ others hmembers hdeclared =>
    obtain ⟨⟨name, required, k⟩, hn, hrequired, hfield⟩ := hmembers _ (Member.mem_of_find? hfind)
    obtain rfl : required = true := hrequired.symm
    cases matches_iff.mp hfield with
    | @literal _ b hequal =>
      have hb : (object others).tagOf? key = some b := by
        unfold tagOf?
        simp only [hn]
      exact ⟨b, hb, hequal⟩

/-- A tag that is no number is carried by a value as soon as it is carried by an equal one. -/
theorem hasTag_of_same {a : Scalar} (ha : f.tagOf? key = some a) (hplain : ∀ n, a ≠ .number n)
    (htag : Value.Same tag tag') : hasTag key tag f = hasTag key tag' f := by
  unfold hasTag
  rw [ha]
  cases Value.correspondence_same.parts htag with
  | scalar hscalar =>
    cases hscalar with
    | number hnumber => cases a <;> first | rfl | exact absurd rfl (hplain _)
    | _ => rfl
  | _ => rfl

/-- Tags that are not numbers and that compare as equal are selected by the same tags. -/
theorem hasTag_congr (h : Matches f g) {a : Scalar} (ha : f.tagOf? key = some a)
    (hplain : ∀ n, a ≠ .number n) (htag : Value.Same tag tag') :
    hasTag key tag f = hasTag key tag' g := by
  obtain ⟨b, hb, hab⟩ := tag_of_matches h ha
  obtain rfl := Scalar.eq_of_equal hplain hab
  rw [hasTag_of_same ha hplain htag]
  unfold hasTag
  rw [ha, hb]

/-! ## Whole trees -/

section

variable [Externals]

/-- What has to hold at one field for the comparison to be sound. -/
structure Comparable (f : Field) : Prop where
  notCustom : f.NotCustom
  sound : f.SoundHere
  plainTags : f.HasPlainTags

/-- Fields between which the comparison finds nothing, and which it can be relied on to
compare. -/
structure Undrifted (expected actual : Field) : Prop where
  matched : Matches expected actual
  comparable : expected.Everywhere Comparable
  sound : actual.Sound

theorem undrifted_all {as bs : List Field} (h : List.Forall₂ Matches as bs)
    (has : ∀ f ∈ as, f.Everywhere Comparable) (hbs : ∀ g ∈ bs, g.Sound) :
    List.Forall₂ Undrifted as bs :=
  Alongside.imp_mem h fun f hf g hg hfg => ⟨hfg, has f hf, hbs g hg⟩

theorem Undrifted.parts (h : Undrifted f g) : PartsAlike Undrifted Value.Same f g := by
  have hcomparable := h.comparable
  have hsound := h.sound
  cases matches_iff.mp h.matched with
  | string pattern format hlow hhigh =>
    exact .string (position_of_boundDiffers hlow) (position_of_boundDiffers hhigh)
  | number hlow hhigh hflag =>
    exact .number (position_of_boundDiffers hlow) (position_of_boundDiffers hhigh)
      (Value.truthy_of_sameBy (fun _ _ => Number.position_eq_of_same) hflag.1)
  | boolean => exact .boolean
  | null => exact .null
  | any => exact .any
  | literal hequal => exact .literal (Scalar.alike_of_equal hequal)
  | array hlow hhigh hmatch =>
    exact .array ⟨hmatch, hcomparable.arrayElement, hsound.arrayElement⟩
      (position_of_boundDiffers hlow) (position_of_boundDiffers hhigh)
  | tuple hsides =>
    exact .tuple (undrifted_all hsides (fun _ => hcomparable.tupleItem) fun _ => hsound.tupleItem)
  | object hmembers hdeclared =>
    refine .object (membersAlike_of hsound.here (fun m hm => ?_) hdeclared)
    obtain ⟨n, hn, hrequired, hmatch⟩ := hmembers m hm
    exact ⟨n, hn, hrequired, hmatch, hcomparable.objectMember hm,
      hsound.objectMember (Member.mem_of_find? hn)⟩
  | optional hmatch =>
    exact .optional ⟨hmatch, hcomparable.optionalInner, hsound.optionalInner⟩
  | defaulted hequal hmatch =>
    exact .defaulted ⟨hmatch, hcomparable.defaultedInner, hsound.defaultedInner⟩
      (.json hcomparable.here.sound.1 hsound.here.1 hequal)
  | @union variants _ discriminant hmatches =>
    have hsides := undrifted_all hmatches (fun _ => hcomparable.unionVariant)
      fun _ => hsound.unionVariant
    cases discriminant with
    | none => exact .union hsides
    | some key =>
      have htags : TagsDistinct key variants := hcomparable.here.sound.2
      refine .tagged hsides fun v w hvw => ?_
      refine Alongside.findIdx?_congr hsides fun k hk l _ hkl => ?_
      obtain ⟨a, ha⟩ := htags.tagged k hk
      have hplain : ∀ n, a ≠ .number n :=
        fun n hn => hcomparable.here.plainTags k hk n (hn ▸ ha)
      exact hasTag_congr hkl.matched ha hplain hvw
  | custom _ _ => exact hcomparable.here.notCustom.elim

/-- Where the comparison finds nothing between two constructed fields without custom checks
and without numbers as tags, the two accept the same JSON values under the same options. -/
theorem accepts_iff_of_undrifted (hexpected : expected.Constructed) (hactual : actual.Constructed)
    (hcustom : expected.Everywhere NotCustom) (htags : expected.Everywhere HasPlainTags)
    {place : Path} (hnil : compareAt place expected actual = []) {v : Value} (hv : v.IsJson)
    (o : Options) (path : Path) :
    expected.validate o path v = .ok [] ↔ actual.validate o path v = .ok [] := by
  have hundrifted : Undrifted expected actual :=
    { matched := ⟨place, hnil⟩
      comparable := fun k hk => ⟨hcustom k hk, hexpected.sound k hk, htags k hk⟩
      sound := hactual.sound }
  have hagree : Validation.Agree (expected.validate o path v) (actual.validate o path v) :=
    validate_agree Value.correspondence_same (fun _ _ => Undrifted.parts) hundrifted
      (Value.same_self hv)
  exact (agree_iff.mp hagree).2

end

/-- Members in another order, and `1.0` where the other side writes `1`. -/
theorem accepts_iff_of_undrifted_spelled :
    let one : Number := .float (.units (1 * unitsPerOne))
    let least : Number → Field := fun n => .number (some n) none (.bool false)
    let preset : Number → Field := fun n => .defaulted .any (.number n)
    let expected : Field := .object [⟨"a", true, least (.int 1)⟩, ⟨"b", false, preset (.int 1)⟩]
    let actual : Field := .object [⟨"b", false, preset one⟩, ⟨"a", true, least one⟩]
    let v : Value := .object [(.text "a", .int 1)]
    compareAt .root expected actual = [] ∧
      (expected.check {} v = .ok [] ↔ actual.check {} v = .ok []) := by
  intro one least preset expected actual v
  have hleast : ∀ n, (least n).Constructed := fun n =>
    @Constructed.number _ (.number n) .null (.bool false) _ rfl
  have hpreset : ∀ n, makeDefaulted (.field .any) (.number n) = .ok (preset n) →
      (preset n).Constructed := fun _ hmade => .defaulted .any (.scalar _) hmade
  have hexpected : expected.Constructed :=
    @Constructed.object _ [(.text "a", least (.int 1)), (.text "b", preset (.int 1))] .null _
      (List.forall_mem_cons.mpr ⟨hleast _, List.forall_mem_singleton.mpr (hpreset _ rfl)⟩) rfl
  have hactual : actual.Constructed :=
    @Constructed.object _ [(.text "b", preset one), (.text "a", least one)] .null _
      (List.forall_mem_cons.mpr ⟨hpreset _ rfl, List.forall_mem_singleton.mpr (hleast _)⟩) rfl
  have hnil : compareAt .root expected actual = [] :=
    List.isEmpty_iff.mp (by decide +kernel)
  have hv : v.IsJson := Value.isJson_object.mpr
    ⟨List.pairwise_singleton _ _, List.forall_mem_singleton.mpr ⟨⟨"a", rfl⟩, rfl, .scalar _⟩⟩
  have hall : ∀ {P : Field → Prop}, P expected → P (least (.int 1)) → P (preset (.int 1)) →
      P .any → expected.Everywhere P := fun hP hl hp ha =>
    everywhere_object hP (List.forall_mem_cons.mpr ⟨everywhere_leaf hl rfl,
      List.forall_mem_singleton.mpr (everywhere_defaulted hp (everywhere_leaf ha rfl))⟩)
  exact ⟨hnil, accepts_iff_of_undrifted hexpected hactual (hall trivial trivial trivial trivial)
    (hall trivial trivial trivial trivial) hnil hv {} .root⟩

end Field
end Lineage
