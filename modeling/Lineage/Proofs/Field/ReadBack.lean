import Lineage.Proofs.Validation.Unambiguous

/-
What is read back from the document of a field.

A document says almost everything about a field.  A least count of zero without a greatest
count is left unsaid, and reading supplies the integer zero, however the zero was written
before; of the flag for whole numbers only its truth is said.  The two fields cannot be told
apart by values or by the analysis of overlaps.
-/

namespace Lineage

namespace Field

open Validation

theorem isZeroBound_congr {a b : Option Number}
    (h : a.map Number.position = b.map Number.position) : isZeroBound a = isZeroBound b := by
  cases a with
  | none =>
    cases b with
    | none => rfl
    | some y => cases h
  | some x =>
    cases b with
    | none => cases h
    | some y => exact Number.isZero_congr (Option.some.inj h)

theorem rangesDisjoint_congr {a a' b b' : Option Number} (high high' : Option Number)
    (ha : a.map Number.position = a'.map Number.position)
    (hb : b.map Number.position = b'.map Number.position) :
    rangesDisjoint a high b high' = rangesDisjoint a' high b' high' := by
  have hany : ∀ {c c' : Option Number}, c.map Number.position = c'.map Number.position →
      ∀ h : Number, c.any h.lt = c'.any h.lt := fun hc _ => below_congr hc rfl
  unfold rangesDisjoint
  simp only [hany ha, hany hb]

/-! ## Reading back -/

/-- The least count that is read back. -/
def readLeast (minItems maxItems : Option Number) : Option Number :=
  if minItems.any Number.isZero && maxItems.isNone then some (.int 0) else minItems

mutual

/-- The field that is read back from a field's document. -/
def readBack : Field → Field
  | .array element minItems maxItems =>
    .array (readBack element) (readLeast minItems maxItems) maxItems
  | .tuple items => .tuple (readBackAll items)
  | .object members => .object (readBackMembers members)
  | .optional inner => .optional (readBack inner)
  | .defaulted inner value => .defaulted (readBack inner) value
  | .union variants discriminant => .union (readBackAll variants) discriminant
  | .string minLen maxLen pattern format => .string minLen maxLen pattern format
  | .number min max integerOnly => .number min max (.bool integerOnly.truthy)
  | .boolean => .boolean
  | .null => .null
  | .any => .any
  | .literal value => .literal value
  | .custom check name => .custom check name

def readBackAll : List Field → List Field
  | [] => []
  | f :: rest => readBack f :: readBackAll rest

def readBackMembers : List (Member Field) → List (Member Field)
  | [] => []
  | ⟨name, required, f⟩ :: rest => ⟨name, required, readBack f⟩ :: readBackMembers rest

end

theorem readBackAll_eq (fields : List Field) : readBackAll fields = fields.map readBack := by
  induction fields with
  | nil => rfl
  | cons f rest ih => rw [readBackAll, ih, List.map_cons]

theorem readBackMembers_eq (members : List (Member Field)) :
    readBackMembers members = members.map fun m => ⟨m.name, m.required, m.field.readBack⟩ := by
  induction members with
  | nil => rfl
  | cons m rest ih => rw [readBackMembers, ih, List.map_cons]

theorem position_readLeast (minItems maxItems : Option Number) :
    (readLeast minItems maxItems).map Number.position = minItems.map Number.position := by
  unfold readLeast
  split
  · next h =>
    obtain ⟨hzero, -⟩ := Bool.and_eq_true _ _ |>.mp h
    cases minItems with
    | none => cases hzero
    | some n => exact congrArg some (Number.position_eq_of_same hzero).symm
  · rfl

theorem lengthAllowed_readLeast (length : Nat) (minItems maxItems : Option Number) :
    lengthAllowed length (readLeast minItems maxItems) maxItems =
      lengthAllowed length minItems maxItems :=
  congrArg not (rangesDisjoint_congr _ _ rfl (position_readLeast minItems maxItems))

@[simp] theorem acceptsAbsence_readBack (f : Field) :
    f.readBack.acceptsAbsence = f.acceptsAbsence := by
  cases f <;> rfl

theorem declares_readBack (members : List (Member Field)) (name : String) :
    Member.declares (readBackMembers members) name = Member.declares members name := by
  unfold Member.declares
  rw [readBackMembers_eq, Member.find?_map, Option.isSome_map]

theorem tagOf?_readBack (key : String) (f : Field) : f.readBack.tagOf? key = f.tagOf? key := by
  cases f with
  | object members =>
    simp only [readBack, tagOf?, readBackMembers_eq, Member.find?_map]
    cases Member.find? key members with
    | none => rfl
    | some m =>
      obtain ⟨name, required, g⟩ := m
      cases required with
      | false => rfl
      | true => cases g <;> rfl
  | _ => rfl

/-! ## Values -/

theorem validateItemCount_readLeast (minItems maxItems : Option Number) (path : Path) (n : Nat) :
    validateItemCount (readLeast minItems maxItems) maxItems path n =
      validateItemCount minItems maxItems path n := by
  cases minItems with
  | none => rfl
  | some low =>
    unfold readLeast
    split
    · next h =>
      -- No count is below zero, so neither way of writing the zero is shown.
      obtain ⟨hzero, -⟩ := Bool.and_eq_true _ _ |>.mp h
      have hposition : low.position = (Number.int 0).position := Number.position_eq_of_same hzero
      have hbelow : (count n).lt (.int 0) = false := Number.int_lt_zero (Int.natCast_nonneg n)
      have hbelow' : (count n).lt low = false := by
        rw [Number.lt_congr_right hposition, hbelow]
      have hcount : ∀ bound, (count n).lt bound = false →
          validateItemCount (some bound) maxItems path n =
            .ok (reportIf (above (count n) maxItems) path .outOfRange
              s!"array has {n} items, at most {Number.boundText maxItems} allowed") := by
        intro bound hbound
        have hnone : below (count n) (some bound) = false := hbound
        unfold validateItemCount
        rw [hnone]
        rfl
      rw [hcount _ hbelow, hcount _ hbelow']
    · rfl

variable [Externals]

theorem validate_readBack (o : Options) (f : Field) (path : Path) (v : Value) :
    f.readBack.validate o path v = f.validate o path v := by
  induction f generalizing path v with
  | string | number | boolean | null | any | literal | custom => rfl
  | array element low high ih =>
    rw [readBack]
    rw [validate_array, validate_array]
    split
    · rfl
    · rw [validateItemCount_readLeast]
      rw [validateEach_congr fun w _ q => ih q w]
    · rfl
  | tuple fields ih =>
    have hitems : ∀ (fs : List Field), (∀ f ∈ fs, ∀ q w, f.readBack.validate o q w =
        f.validate o q w) → ∀ index items,
        validateItems o (readBackAll fs) path index items =
          validateItems o fs path index items := by
      intro fs
      induction fs with
      | nil => exact fun _ _ _ => rfl
      | cons f rest hrest =>
        intro h index items
        obtain ⟨hf, hmore⟩ := List.forall_mem_cons.mp h
        cases items with
        | nil => rfl
        | cons w more => rw [readBackAll, validateItems, validateItems, hf, hrest hmore]
    rw [readBack]
    rw [validate_tuple, validate_tuple]
    split
    · rfl
    · rw [hitems fields ih, readBackAll_eq, List.length_map]
    · rfl
  | object members ih =>
    have hmembers : ∀ (ms : List (Member Field)), (∀ m ∈ ms, ∀ q w,
        m.field.readBack.validate o q w = m.field.validate o q w) → ∀ entries,
        validateMembers o (readBackMembers ms) path entries =
          validateMembers o ms path entries := by
      intro ms
      induction ms with
      | nil => exact fun _ _ => rfl
      | cons m rest hrest =>
        intro h entries
        obtain ⟨hm, hmore⟩ := List.forall_mem_cons.mp h
        obtain ⟨name, required, f⟩ := m
        rw [readBackMembers, validateMembers_cons, validateMembers_cons, hrest hmore]
        unfold validateMember
        simp only [hm, acceptsAbsence_readBack]
    have hundeclared : ∀ entries, undeclared (readBackMembers members) path entries =
        undeclared members path entries := by
      have hdeclared : ∀ key, isDeclared (readBackMembers members) key = isDeclared members key := by
        intro key
        unfold isDeclared
        rw [funext (declares_readBack members)]
      intro entries
      induction entries with
      | nil => rfl
      | cons e rest hrest => rw [undeclared, undeclared, hdeclared, hrest]
    rw [readBack]
    rw [validate_object, validate_object]
    split
    · rfl
    · rw [hmembers members ih, hundeclared]
    · rfl
  | optional inner ih =>
    rw [readBack]
    rw [validate_optional, validate_optional]
    split
    · rfl
    · rfl
    · exact ih _ _
  | defaulted inner value ih =>
    rw [readBack]
    rw [validate_defaulted, validate_defaulted]
    split
    · exact ih _ _
    · exact ih _ _
  | union variants discriminant ih =>
    have hvariants : ∀ (fs : List Field), (∀ f ∈ fs, ∀ q w, f.readBack.validate o q w =
        f.validate o q w) → ∀ w,
        validateVariants o (readBackAll fs) path w = validateVariants o fs path w := by
      intro fs
      induction fs with
      | nil => exact fun _ _ => rfl
      | cons f rest hrest =>
        intro h w
        obtain ⟨hf, hmore⟩ := List.forall_mem_cons.mp h
        rw [readBackAll, validateVariants, validateVariants, hf, hrest hmore]
    have htagged : ∀ (fs : List Field), (∀ f ∈ fs, ∀ q w, f.readBack.validate o q w =
        f.validate o q w) → ∀ key tag w,
        validateTagged o key tag (readBackAll fs) path w =
          validateTagged o key tag fs path w := by
      intro fs
      induction fs with
      | nil => exact fun _ _ _ _ => rfl
      | cons f rest hrest =>
        intro h key tag w
        obtain ⟨hf, hmore⟩ := List.forall_mem_cons.mp h
        have htag : hasTag key tag f.readBack = hasTag key tag f := by
          unfold hasTag
          rw [tagOf?_readBack]
        rw [readBackAll, validateTagged, validateTagged, htag, hf, hrest hmore]
    rw [readBack]
    rw [validate_union, validate_union]
    split
    · rfl
    · split
      · rw [hvariants variants ih]
      · split
        · split
          · exact htagged variants ih _ _ _
          · rfl
        · rfl

theorem acceptsScalar_readBack (f : Field) (s : Scalar) :
    f.readBack.acceptsScalar s = f.acceptsScalar s := by
  unfold acceptsScalar check
  rw [validate_readBack]

omit [Externals] in
theorem mayAccept_readBack (kind : Kind) (f : Field) :
    f.readBack.mayAccept kind = f.mayAccept kind := by
  induction f with
  | optional inner ih => rw [readBack, mayAccept, mayAccept, ih]
  | defaulted inner value ih => rw [readBack, mayAccept, mayAccept, ih]
  | union variants discriminant ih =>
    rw [readBack, mayAccept, mayAccept, Bool.eq_iff_iff, anyMayAccept_iff, anyMayAccept_iff,
      readBackAll_eq]
    constructor
    · rintro ⟨_, hmem, h⟩
      obtain ⟨f, hf, rfl⟩ := List.mem_map.mp hmem
      exact ⟨f, hf, ih f hf ▸ h⟩
    · rintro ⟨f, hf, h⟩
      exact ⟨_, List.mem_map_of_mem hf, (ih f hf).trans h⟩
  | _ => rfl

/-! ## The analysis -/

section Layers

variable {f : Field}

omit [Externals]

theorem IsBare.readBack (h : f.IsBare) : f.readBack.IsBare := by
  cases f with
  | custom | defaulted => cases h
  | _ => trivial

theorem IsPresent.readBack (h : f.IsPresent) : f.readBack.IsPresent := by
  cases f with
  | custom | defaulted | optional => cases h
  | _ => trivial

theorem IsPlain.readBack (h : f.IsPlain) : f.readBack.IsPlain := by
  cases f with
  | custom | defaulted | optional | union => cases h
  | _ => trivial

theorem IsBasic.readBack (h : f.IsBasic) : f.readBack.IsBasic := by
  cases f with
  | custom | defaulted | optional | union | any => cases h
  | _ => trivial

theorem ownKind?_readBack (f : Field) : f.readBack.ownKind? = f.ownKind? := by
  cases f <;> rfl

end Layers

theorem anyMayOverlap_readBack {variants : List Field} {g : Field}
    (h : ∀ v ∈ variants, mayOverlap v.readBack g.readBack = mayOverlap v g) :
    anyMayOverlap (readBackAll variants) g.readBack = anyMayOverlap variants g := by
  induction variants with
  | nil => rw [readBackAll, anyMayOverlap, anyMayOverlap]
  | cons v rest ih =>
    obtain ⟨hv, hrest⟩ := List.forall_mem_cons.mp h
    rw [readBackAll, anyMayOverlap, anyMayOverlap, hv, ih hrest]

theorem allMayOverlap_readBack {items : List Field} {g : Field}
    (h : ∀ k ∈ items, mayOverlap k.readBack g.readBack = mayOverlap k g) :
    allMayOverlap (readBackAll items) g.readBack = allMayOverlap items g := by
  induction items with
  | nil => rw [readBackAll, allMayOverlap, allMayOverlap]
  | cons k rest ih =>
    obtain ⟨hk, hrest⟩ := List.forall_mem_cons.mp h
    rw [readBackAll, allMayOverlap, allMayOverlap, hk, ih hrest]

theorem itemsMayOverlap_readBack {a b : List Field}
    (h : ∀ f ∈ a, ∀ g ∈ b, mayOverlap f.readBack g.readBack = mayOverlap f g) :
    itemsMayOverlap (readBackAll a) (readBackAll b) = itemsMayOverlap a b := by
  induction a generalizing b with
  | nil =>
    rw [readBackAll, itemsMayOverlap_nil_left, itemsMayOverlap_nil_left]
  | cons f fs ih =>
    cases b with
    | nil =>
      rw [readBackAll, itemsMayOverlap_nil_right, itemsMayOverlap_nil_right]
    | cons g gs =>
      rw [readBackAll, readBackAll, itemsMayOverlap, itemsMayOverlap,
        h f List.mem_cons_self g List.mem_cons_self]
      rw [ih fun k hk l hl => h k (List.mem_cons_of_mem _ hk) l (List.mem_cons_of_mem _ hl)]

theorem membersMayOverlap_readBack {a b : List (Member Field)}
    (h : ∀ m ∈ a, ∀ n ∈ b,
      mayOverlap m.field.readBack n.field.readBack = mayOverlap m.field n.field) :
    membersMayOverlap (readBackMembers a) (readBackMembers b) = membersMayOverlap a b := by
  induction a with
  | nil => rw [readBackMembers, membersMayOverlap, membersMayOverlap]
  | cons m rest ih =>
    obtain ⟨hm, hrest⟩ := List.forall_mem_cons.mp h
    obtain ⟨name, required, f⟩ := m
    rw [readBackMembers, membersMayOverlap_cons, membersMayOverlap_cons, ih hrest,
      readBackMembers_eq b, Member.find?_map]
    cases hfind : Member.find? name b with
    | none => rfl
    | some n => simp only [Option.map_some, hm n (Member.mem_of_find? hfind)]

/-- The analysis cannot tell fields from what is read back for them. -/
theorem mayOverlap_readBack (f g : Field) :
    mayOverlap f.readBack g.readBack = mayOverlap f g := by
  induction f, g using overlapInduction with
  | custom_left => rw [readBack, mayOverlap_custom_left, mayOverlap_custom_left]
  | custom_right =>
    rw [readBack.eq_def (.custom _ _), mayOverlap_custom_right, mayOverlap_custom_right]
  | defaulted_left inner value g ih =>
    rw [readBack, mayOverlap_defaulted_left, mayOverlap_defaulted_left, ih]
  | defaulted_right f inner value ih =>
    rw [readBack, mayOverlap_defaulted_right, mayOverlap_defaulted_right, ih]
  | optional_left inner g hbare ih =>
    rw [readBack, mayOverlap_optional_left _ hbare.readBack, mayOverlap_optional_left _ hbare,
      mayAccept_readBack, ih]
  | optional_right f inner hpresent ih =>
    rw [readBack, mayOverlap_optional_right hpresent.readBack,
      mayOverlap_optional_right hpresent, mayAccept_readBack, ih]
  | union_left variants key g hpresent ih =>
    rw [readBack, mayOverlap_union_left _ _ hpresent.readBack,
      mayOverlap_union_left _ _ hpresent, anyMayOverlap_readBack ih]
  | union_right f variants key hplain ih =>
    rw [readBack, mayOverlap_union_right hplain.readBack, mayOverlap_union_right hplain,
      anyMayOverlap_readBack ih]
  | any_left g hplain =>
    rw [readBack, mayOverlap_any_left hplain.readBack, mayOverlap_any_left hplain]
  | any_right f hbasic =>
    rw [readBack, mayOverlap_any_right hbasic.readBack, mayOverlap_any_right hbasic]
  | literal_left a g hbasic =>
    rw [readBack, mayOverlap_literal_left a hbasic.readBack, mayOverlap_literal_left a hbasic,
      acceptsScalar_readBack]
  | literal_right f b kind hkind =>
    have hkind' : f.readBack.ownKind? = some kind := ownKind?_readBack f ▸ hkind
    rw [readBack, mayOverlap_literal_right hkind', mayOverlap_literal_right hkind,
      acceptsScalar_readBack]
  | string | boolean | null => rfl
  | number => rw [readBack, readBack, mayOverlap, mayOverlap]
  | object a b ih =>
    rw [readBack, readBack, mayOverlap, mayOverlap, membersMayOverlap_readBack ih]
  | array elementA minA maxA elementB minB maxB ih =>
    rw [readBack, readBack, mayOverlap, mayOverlap, ih,
      rangesDisjoint_congr _ _ (position_readLeast _ _) (position_readLeast _ _),
      isZeroBound_congr (position_readLeast _ _), isZeroBound_congr (position_readLeast _ _)]
  | tuple a b ih =>
    rw [readBack, readBack, mayOverlap, mayOverlap, itemsMayOverlap_readBack ih, readBackAll_eq,
      readBackAll_eq, List.length_map, List.length_map]
  | tuple_array items element minItems maxItems ih =>
    rw [readBack, readBack, mayOverlap, mayOverlap, allMayOverlap_readBack ih, readBackAll_eq,
      List.length_map, lengthAllowed_readLeast]
  | array_tuple element minItems maxItems items ih =>
    rw [readBack, readBack, mayOverlap, mayOverlap, allMayOverlap_readBack ih, readBackAll_eq,
      List.length_map, lengthAllowed_readLeast]
  | apart f g kind kind' hkind hkind' hne =>
    rw [mayOverlap_apart hkind hkind' hne]
    exact mayOverlap_apart (ownKind?_readBack f ▸ hkind) (ownKind?_readBack g ▸ hkind') hne

end Field
end Lineage
