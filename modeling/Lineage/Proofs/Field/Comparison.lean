import Lineage.AuthorFn.Catalogue
import Lineage.Format.Email
import Lineage.History
import Lineage.Proofs.Field.Equality
import Lineage.Proofs.Field.Matching
import Lineage.Proofs.Value.Loose

/-
The comparison of fields is an equivalence and finer than equality.

Reflexivity, transitivity and the step to equality are proved for one level of the trees and
carried through them.  Symmetry is a statement about the number of differences, which holds
also where there are some: an object counts its names on either side once, however the two
sides are ordered.
-/

namespace Lineage

theorem Provenance.numbers_of_same (source : Provenance) {m n : Number} (h : m.same n = true) :
    source.numbers m n = true := by
  cases source with
  | taken => exact Bool.or_eq_true_iff.mpr (.inl h)
  | written => exact h

namespace Field

variable {f g k : Field} {R S T : Field → Field → Prop}

/-! ## Attributes -/

theorem boundDiffers_comm (a b : Option Number) : boundDiffers a b = boundDiffers b a := by
  cases a with
  | none => cases b <;> rfl
  | some m =>
    cases b with
    | none => rfl
    | some n => exact congrArg not (Number.same_comm m n)

theorem boundDiffers_trans {a b c : Option Number} (hab : boundDiffers a b = false)
    (hbc : boundDiffers b c = false) : boundDiffers a c = false := by
  cases a with
  | none =>
    cases b with
    | none => exact hbc
    | some n => cases hab
  | some m =>
    cases b with
    | none => cases hab
    | some n =>
      cases c with
      | none => cases hbc
      | some l =>
        simp only [boundDiffers, Bool.not_eq_false'] at hab hbc ⊢
        exact Number.same_trans hab hbc

theorem boundDiffers_self {bound : Option Number} (h : RealBound bound) :
    boundDiffers bound bound = false := boundDiffers_eq_false h rfl

theorem sameBound_of_boundDiffers {numbers : Number → Number → Bool}
    (himp : ∀ m n, m.same n = true → numbers m n = true) {a b : Option Number}
    (h : boundDiffers a b = false) : sameBound numbers a b = true := by
  cases a with
  | none =>
    cases b with
    | none => rfl
    | some n => cases h
  | some m =>
    cases b with
    | none => cases h
    | some n => exact himp m n (by simpa [boundDiffers] using h)

theorem valuesDiffer_comm {v w : Value} (hv : v.IsJson) (hw : w.IsJson) :
    valuesDiffer v w = valuesDiffer w v := by
  rw [← Bool.not_inj_iff, Bool.eq_iff_iff, Bool.not_eq_true', Bool.not_eq_true',
    valuesDiffer_eq_false, valuesDiffer_eq_false]
  exact ⟨Value.equal_symm hv.distinct hw.distinct, Value.equal_symm hw.distinct hv.distinct⟩

/-! ## Transitivity -/

theorem LevelMatches.trans (h : LevelMatches R f g) (h' : LevelMatches S g k)
    (hT : ∀ a ∈ f.children, ∀ b c, R a b → S b c → T a c) : LevelMatches T f k := by
  cases h with
  | string pattern format hlow hhigh =>
    cases h' with
    | string _ _ hlow' hhigh' =>
      exact .string pattern format (boundDiffers_trans hlow hlow') (boundDiffers_trans hhigh hhigh')
  | number hlow hhigh hflag =>
    cases h' with
    | number hlow' hhigh' hflag' =>
      exact .number (boundDiffers_trans hlow hlow') (boundDiffers_trans hhigh hhigh')
        ⟨Value.sameBy_trans hflag.1 hflag'.1, hflag.2.trans hflag'.2⟩
  | boolean =>
    cases h'
    exact .boolean
  | null =>
    cases h'
    exact .null
  | any =>
    cases h'
    exact .any
  | literal h =>
    cases h' with
    | literal h' => exact .literal (Scalar.equal_trans h h')
  | array hlow hhigh h =>
    cases h' with
    | array hlow' hhigh' h' =>
      exact .array (boundDiffers_trans hlow hlow') (boundDiffers_trans hhigh hhigh')
        (hT _ List.mem_cons_self _ _ h h')
  | tuple h =>
    cases h' with
    | tuple h' => exact .tuple (Alongside.comp h h' hT)
  | object hmembers hdeclared =>
    cases h' with
    | object hmembers' hdeclared' =>
      refine .object (fun m hm => ?_) fun l hl => ?_
      · obtain ⟨n, hn, hrequired, hfield⟩ := hmembers m hm
        obtain ⟨l, hl, hrequired', hfield'⟩ := hmembers' n (Member.mem_of_find? hn)
        rw [Member.name_of_find? hn] at hl
        exact ⟨l, hl, hrequired.trans hrequired', hT _ (List.mem_map_of_mem hm) _ _ hfield hfield'⟩
      · obtain ⟨n, hn⟩ := Option.isSome_iff_exists.mp (hdeclared' l hl)
        rw [← Member.name_of_find? hn]
        exact hdeclared n (Member.mem_of_find? hn)
  | optional h =>
    cases h' with
    | optional h' => exact .optional (hT _ List.mem_cons_self _ _ h h')
  | defaulted hvalue h =>
    cases h' with
    | defaulted hvalue' h' =>
      exact .defaulted (Value.equal_trans hvalue hvalue') (hT _ List.mem_cons_self _ _ h h')
  | union key h =>
    cases h' with
    | union _ h' => exact .union key (Alongside.comp h h' hT)
  | custom hcheck hname =>
    cases h' with
    | custom hcheck' hname' =>
      exact .custom (hcheck.trans hcheck') (Value.sameBy_trans hname hname')

theorem Matches.trans (h : Matches f g) (h' : Matches g k) : Matches f k := by
  induction f using childInduction generalizing g k with
  | h f ih =>
    exact matches_iff.mpr ((matches_iff.mp h).trans (matches_iff.mp h') fun a ha _ _ hab hbc =>
      ih a ha hab hbc)

/-! ## Reflexivity -/

/-- A flag and a name may be any values; these hold each key once. -/
def HasProperAttributes : Field → Prop
  | number _ _ flag => flag.Proper
  | custom _ name => name.Proper
  | _ => True

/-- No bound, literal, flag or name is NaN.  Defaults are JSON values. -/
def WithoutNaN : Field → Prop
  | string low high _ _ | array _ low high => RealBound low ∧ RealBound high
  | number low high flag =>
    RealBound low ∧ RealBound high ∧ ∀ a, flag = .scalar a → a.IsReal
  | literal a => a.IsReal
  | custom _ name => ∀ a, name = .scalar a → a.IsReal
  | _ => True

section

variable [Externals]

/-- What a comparison relies on at one field: what construction leaves behind, and attributes
that hold each key once. -/
structure Orderly (f : Field) : Prop where
  sound : f.SoundHere
  proper : f.HasProperAttributes

theorem levelMatches_self (horderly : f.Orderly) (hreal : f.WithoutNaN)
    (h : ∀ a ∈ f.children, R a a) : LevelMatches R f f := by
  obtain ⟨hsound, hproper⟩ := horderly
  cases f with
  | string low high pattern format =>
    exact .string pattern format (boundDiffers_self hreal.1) (boundDiffers_self hreal.2)
  | number low high flag =>
    obtain ⟨hlow, hhigh, hflag⟩ := hreal
    exact .number (boundDiffers_self hlow) (boundDiffers_self hhigh)
      ⟨Value.sameBy_self hproper hflag, rfl⟩
  | boolean => exact .boolean
  | null => exact .null
  | any => exact .any
  | literal a => exact .literal (Scalar.equal_of_isReal hreal)
  | array element low high =>
    exact .array (boundDiffers_self hreal.1) (boundDiffers_self hreal.2)
      (h element List.mem_cons_self)
  | tuple items => exact .tuple (List.forall₂_same.mpr h)
  | object members =>
    exact .object (fun m hm => ⟨m, Member.find?_of_mem hsound hm, rfl, h _ (List.mem_map_of_mem hm)⟩)
      fun m hm => Member.declares_of_mem hm
  | optional inner => exact .optional (h inner List.mem_cons_self)
  | defaulted inner value =>
    exact .defaulted (Value.equal_self hsound.1) (h inner List.mem_cons_self)
  | union variants key => exact .union key (List.forall₂_same.mpr h)
  | custom check name => exact .custom rfl (Value.sameBy_self hproper hreal)

theorem matches_self (horderly : f.Everywhere Orderly) (hreal : f.Everywhere WithoutNaN) :
    Matches f f := by
  induction f using childInduction with
  | h f ih =>
    exact matches_iff.mpr (levelMatches_self horderly.here hreal.here fun a ha =>
      ih a ha (horderly.child ha) (hreal.child ha))

/-! ## Equality -/

omit [Externals] in
theorem sameItemsBy_of_forall₂ {numbers : Number → Number → Bool} {as bs : List Field}
    (h : List.Forall₂ (fun a b => a.sameBy numbers b = true) as bs) :
    sameItemsBy numbers as bs = true := by
  induction h with
  | nil => rfl
  | cons hab _ ih => exact Bool.and_eq_true_iff.mpr ⟨hab, ih⟩

omit [Externals] in
theorem sameMembersBy_of {numbers : Number → Number → Bool} {as bs : List (Member Field)}
    (h : ∀ m ∈ as, ∃ n, Member.find? m.name bs = some n ∧ m.required = n.required ∧
      m.field.sameBy numbers n.field = true) : sameMembersBy numbers as bs = true := by
  induction as with
  | nil => rfl
  | cons m rest ih =>
    obtain ⟨⟨n, hn, hrequired, hfield⟩, hrest⟩ := List.forall_mem_cons.mp h
    obtain ⟨name, required, f⟩ := m
    refine Bool.and_eq_true_iff.mpr ⟨?_, ih hrest⟩
    rw [hn]
    exact Bool.and_eq_true_iff.mpr ⟨beq_iff_eq.mpr hrequired, hfield⟩

omit [Externals] in
/-- Objects that declare the same names declare equally many. -/
theorem length_eq_of_declares {as bs : List (Member Field)} (has : (Member.names as).Nodup)
    (hbs : (Member.names bs).Nodup) (hab : ∀ m ∈ as, Member.declares bs m.name = true)
    (hba : ∀ n ∈ bs, Member.declares as n.name = true) : as.length = bs.length := by
  have hnames : ∀ name, name ∈ Member.names as ↔ name ∈ Member.names bs := by
    refine fun name => ⟨fun hname => ?_, fun hname => ?_⟩
    · obtain ⟨m, hm, rfl⟩ := List.mem_map.mp hname
      exact Member.declares_iff.mp (hab m hm)
    · obtain ⟨n, hn, rfl⟩ := List.mem_map.mp hname
      exact Member.declares_iff.mp (hba n hn)
  have hlength := ((List.perm_ext_iff_of_nodup has hbs).mpr hnames).length_eq
  rwa [Member.names, Member.names, List.length_map, List.length_map] at hlength

theorem sameBy_of_levelMatches {numbers : Number → Number → Bool}
    (himp : ∀ m n, m.same n = true → numbers m n = true) (hf : f.SoundHere) (hg : g.SoundHere)
    (h : LevelMatches (fun a b => a.sameBy numbers b = true) f g) : f.sameBy numbers g = true := by
  have hbound : ∀ {a b : Option Number}, boundDiffers a b = false → sameBound numbers a b = true :=
    sameBound_of_boundDiffers himp
  cases h with
  | string pattern format hlow hhigh =>
    simp only [sameBy, hbound hlow, hbound hhigh, BEq.rfl, Bool.and_self]
  | number hlow hhigh hflag =>
    simp only [sameBy, hbound hlow, hbound hhigh, Value.sameBy_mono himp hflag.1, Bool.and_self]
  | boolean => rfl
  | null => rfl
  | any => rfl
  | literal h => exact Scalar.sameBy_mono himp (Scalar.sameBy_of_equal h)
  | array hlow hhigh h => simp only [sameBy, hbound hlow, hbound hhigh, h, Bool.and_self]
  | tuple h => exact sameItemsBy_of_forall₂ h
  | @object as bs hmembers hdeclared =>
    have hback : ∀ m ∈ as, Member.declares bs m.name = true := by
      intro m hm
      obtain ⟨n, hn, -⟩ := hmembers m hm
      exact Option.isSome_iff_exists.mpr ⟨n, hn⟩
    exact Bool.and_eq_true_iff.mpr ⟨beq_iff_eq.mpr (length_eq_of_declares hf hg hback hdeclared),
      sameMembersBy_of hmembers⟩
  | optional h => exact h
  | defaulted hvalue h =>
    exact Bool.and_eq_true_iff.mpr ⟨h, Value.sameBy_mono himp (Value.sameBy_of_equal hvalue)⟩
  | union key h =>
    exact Bool.and_eq_true_iff.mpr ⟨sameItemsBy_of_forall₂ h, beq_self_eq_true key⟩
  | custom hcheck hname =>
    exact Bool.and_eq_true_iff.mpr ⟨beq_iff_eq.mpr hcheck, Value.sameBy_mono himp hname⟩

theorem Matches.sameBy {numbers : Number → Number → Bool}
    (himp : ∀ m n, m.same n = true → numbers m n = true) (hf : f.Sound) (hg : g.Sound)
    (h : Matches f g) : f.sameBy numbers g = true := by
  induction f using childInduction generalizing g with
  | h f ih =>
    exact sameBy_of_levelMatches himp hf.here hg.here ((matches_iff.mp h).imp
      fun a ha b hb hab => ih a ha (hf.child ha) (hg.child hb) hab)

/-! ## The number of differences -/

omit [Externals] in
theorem length_differenceIf (condition : Bool) (path : Path) (reason expected actual : String) :
    (differenceIf condition path reason expected actual).length = condition.toNat := by
  cases condition <;> rfl

/-- Two fields differ in equally many places, whichever of them is expected. -/
def CountAlike (f g : Field) : Prop :=
  ∀ path path', (compareAt path f g).length = (compareAt path' g f).length

omit [Externals] in
theorem length_compareSides {as bs : List Field} (h : ∀ a ∈ as, ∀ b ∈ bs, CountAlike a b)
    (place place' : Nat → Path) (index : Nat) :
    (compareSides place index as bs).length = (compareSides place' index bs as).length := by
  induction as generalizing bs index with
  | nil => cases bs <;> rfl
  | cons a as ih =>
    cases bs with
    | nil => rfl
    | cons b bs =>
      rw [compareSides, compareSides, List.length_append, List.length_append,
        h a List.mem_cons_self b List.mem_cons_self _ (place' index),
        ih fun a ha b hb => h a (List.mem_cons_of_mem _ ha) b (List.mem_cons_of_mem _ hb)]

section Objects

variable {as bs : List (Member Field)}

/-- What the comparison of two objects finds under a name. -/
def differencesUnder (path : Path) (as bs : List (Member Field)) (name : String) :
    List Difference :=
  match Member.find? name as, Member.find? name bs with
  | none, none => []
  | some m, none => difference (path.key name) "field missing" m.field.describe "<absent>"
  | none, some n => difference (path.key name) "unexpected field" "<absent>" n.field.describe
  | some m, some n =>
    differenceIf (m.required != n.required) (path.key name) "required differs"
        (truthText m.required) (truthText n.required) ++
      compareAt (path.key name) m.field n.field

omit [Externals] in
theorem length_differencesUnder (h : ∀ m ∈ as, ∀ n ∈ bs, CountAlike m.field n.field)
    (path path' : Path) (name : String) :
    (differencesUnder path as bs name).length = (differencesUnder path' bs as name).length := by
  unfold differencesUnder
  cases hm : Member.find? name as with
  | none => cases Member.find? name bs <;> rfl
  | some m =>
    cases hn : Member.find? name bs with
    | none => rfl
    | some n =>
      have hcount := h m (Member.mem_of_find? hm) n (Member.mem_of_find? hn)
      simp only [List.length_append, length_differenceIf, hcount _ (path'.key name), bne_comm]

/-- The names of two objects, each once: those of the first and what the second has besides. -/
def namesOfBoth (as bs : List (Member Field)) : List String :=
  Member.names as ++ (Member.names bs).filter fun name => !Member.declares as name

section

omit [Externals]

theorem nodup_namesOfBoth (has : (Member.names as).Nodup) (hbs : (Member.names bs).Nodup) :
    (namesOfBoth as bs).Nodup := by
  refine List.nodup_append.mpr ⟨has, hbs.filter _, ?_⟩
  rintro a ha b hb rfl
  obtain ⟨-, hb⟩ := List.mem_filter.mp hb
  rw [Member.declares_iff.mpr ha] at hb
  cases hb

theorem mem_namesOfBoth {name : String} :
    name ∈ namesOfBoth as bs ↔ name ∈ Member.names as ∨ name ∈ Member.names bs := by
  unfold namesOfBoth
  rw [List.mem_append, List.mem_filter, Bool.not_eq_true', ← Bool.not_eq_true,
    Member.declares_iff]
  by_cases hname : name ∈ Member.names as
  · simp [hname]
  · simp [hname]

theorem namesOfBoth_perm (has : (Member.names as).Nodup) (hbs : (Member.names bs).Nodup) :
    (namesOfBoth as bs).Perm (namesOfBoth bs as) := by
  refine (List.perm_ext_iff_of_nodup (nodup_namesOfBoth has hbs)
    (nodup_namesOfBoth hbs has)).mpr fun name => ?_
  rw [mem_namesOfBoth, mem_namesOfBoth, or_comm]

theorem compareMembers_eq (has : (Member.names as).Nodup) {part : List (Member Field)}
    (hwithin : ∀ m ∈ part, m ∈ as) (path : Path) :
    compareMembers path part bs = (Member.names part).flatMap (differencesUnder path as bs) := by
  induction part with
  | nil => rfl
  | cons m rest ih =>
    obtain ⟨hm, hrest⟩ := List.forall_mem_cons.mp hwithin
    have hfind := Member.find?_of_mem has hm
    obtain ⟨name, required, f⟩ := m
    rw [compareMembers, ih hrest]
    refine congrArg (· ++ (Member.names rest).flatMap (differencesUnder path as bs)) ?_
    unfold differencesUnder
    rw [hfind]
    cases Member.find? name bs <;> rfl

theorem unexpected_eq (hbs : (Member.names bs).Nodup) (path : Path) :
    unexpected as path bs =
      ((Member.names bs).filter fun name => !Member.declares as name).flatMap
        (differencesUnder path as bs) := by
  unfold unexpected Member.names
  rw [List.filter_map, List.flatMap_map]
  refine List.flatMap_congr fun n hn => ?_
  obtain ⟨hn, habsent⟩ := List.mem_filter.mp hn
  have hnone : Member.find? n.name as = none := by simpa [Member.declares] using habsent
  unfold differencesUnder
  rw [hnone, Member.find?_of_mem hbs hn]

/-- Objects are compared name by name. -/
theorem compareAt_object (has : (Member.names as).Nodup) (hbs : (Member.names bs).Nodup)
    (path : Path) : compareAt path (.object as) (.object bs) =
      (namesOfBoth as bs).flatMap (differencesUnder path as bs) := by
  rw [compareAt, compareMembers_eq has (fun _ hm => hm), unexpected_eq hbs, namesOfBoth,
    List.flatMap_append]

theorem length_flatMap_congr {α β : Type} {xs ys : List α} {F G : α → List β}
    (hperm : xs.Perm ys) (h : ∀ x, (F x).length = (G x).length) :
    (xs.flatMap F).length = (ys.flatMap G).length := by
  rw [(hperm.flatMap_right F).length_eq]
  -- The order no longer matters, and what is left goes item by item.
  clear hperm
  induction ys with
  | nil => rfl
  | cons y rest ih => simp only [List.flatMap_cons, List.length_append, h, ih]

end

end Objects

theorem countAlike (hf : f.Everywhere Orderly) (hg : g.Everywhere Orderly) : CountAlike f g := by
  induction f generalizing g with
  | string low high pattern format =>
    intro path path'
    cases g with
    | string low' high' pattern' format' =>
      simp only [compareAt, compareBound, List.length_append, length_differenceIf,
        boundDiffers_comm low, boundDiffers_comm high, bne_comm (a := pattern),
        bne_comm (a := format)]
    | _ => rfl
  | number low high flag =>
    intro path path'
    cases g with
    | number low' high' flag' =>
      have hflag := Value.sameBy_comm hf.here.proper hg.here.proper
      simp only [compareAt, compareBound, compareFlag, List.length_append, length_differenceIf,
        boundDiffers_comm low, boundDiffers_comm high, hflag, bne_comm (a := isTruth flag)]
    | _ => rfl
  | boolean => intro path path'; cases g <;> rfl
  | null => intro path path'; cases g <;> rfl
  | any => intro path path'; cases g <;> rfl
  | literal a =>
    intro path path'
    cases g with
    | literal b => simp only [compareAt, length_differenceIf, Scalar.equal_comm a]
    | _ => rfl
  | array a low high ih =>
    intro path path'
    cases g with
    | array b low' high' =>
      have helement := ih hf.arrayElement hg.arrayElement
      simp only [compareAt, compareBound, List.length_append, length_differenceIf,
        boundDiffers_comm low, boundDiffers_comm high, helement _ (path'.child .wildcard)]
    | _ => rfl
  | tuple as ih =>
    intro path path'
    cases g with
    | tuple bs =>
      have hitems : ∀ a ∈ as, ∀ b ∈ bs, CountAlike a b := fun a ha b hb =>
        ih a ha (hf.tupleItem ha) (hg.tupleItem hb)
      rw [compareAt, compareAt]
      by_cases hlength : as.length = bs.length
      · rw [if_pos hlength, if_pos hlength.symm, compareItems_eq, compareItems_eq]
        exact length_compareSides hitems path.index path'.index 0
      · rw [if_neg hlength, if_neg (Ne.symm hlength)]
        rfl
    | _ => rfl
  | object as ih =>
    intro path path'
    cases g with
    | object bs =>
      have hmembers : ∀ m ∈ as, ∀ n ∈ bs, CountAlike m.field n.field := fun m hm n hn =>
        ih m hm (hf.objectMember hm) (hg.objectMember hn)
      -- The two loops over names do not mirror each other, so both sides are put by name first.
      rw [compareAt_object hf.here.sound hg.here.sound,
        compareAt_object hg.here.sound hf.here.sound]
      exact length_flatMap_congr (namesOfBoth_perm hf.here.sound hg.here.sound)
        (length_differencesUnder hmembers path path')
    | _ => rfl
  | optional a ih =>
    intro path path'
    cases g with
    | optional b =>
      exact ih hf.optionalInner hg.optionalInner path path'
    | _ => rfl
  | defaulted a v ih =>
    intro path path'
    cases g with
    | defaulted b w =>
      have hinner := ih hf.defaultedInner hg.defaultedInner
      simp only [compareAt, List.length_append, length_differenceIf,
        valuesDiffer_comm hf.here.sound.1 hg.here.sound.1, hinner path path']
    | _ => rfl
  | union as key ih =>
    intro path path'
    cases g with
    | union bs key' =>
      have hvariants : ∀ a ∈ as, ∀ b ∈ bs, CountAlike a b := fun a ha b hb =>
        ih a ha (hf.unionVariant ha) (hg.unionVariant hb)
      rw [compareAt, compareAt, List.length_append, List.length_append, length_differenceIf,
        length_differenceIf, bne_comm]
      refine congrArg ((key' != key).toNat + ·) ?_
      by_cases hlength : as.length = bs.length
      · rw [if_pos hlength, if_pos hlength.symm, compareVariants_eq, compareVariants_eq]
        exact length_compareSides hvariants _ _ 0
      · rw [if_neg hlength, if_neg (Ne.symm hlength)]
        rfl
    | _ => rfl
  | custom check name =>
    intro path path'
    cases g with
    | custom check' name' =>
      have hname := Value.sameBy_comm hf.here.proper hg.here.proper
      simp only [compareAt, length_differenceIf, hname, bne_comm (a := check.identity)]
    | _ => rfl

/-! ## The relation -/

/-- A tree that construction lets through, with attributes that hold each key once. -/
structure Built (f : Field) : Prop where
  constructed : f.Constructed
  proper : f.Everywhere HasProperAttributes

theorem Built.orderly (h : f.Built) : f.Everywhere Orderly := fun k hk =>
  ⟨h.constructed.sound k hk, h.proper k hk⟩

theorem Built.symm (hf : f.Built) (hg : g.Built) (h : Matches f g) : Matches g f := by
  have hnone := countAlike hf.orderly hg.orderly .root .root
  rw [h.compareAt_eq_nil] at hnone
  exact ⟨.root, List.eq_nil_of_length_eq_zero hnone.symm⟩

/-- The comparison of fields is an equivalence.  On trees without NaN it finds nothing between a
tree and itself; it finds equally much in both directions, so nothing in the one where it finds
nothing in the other; and it is transitive.  Where it finds nothing, the fields are equal as
definitions, so that an append, which asks for an equal source, does not tell them apart. -/
theorem comparison_equivalence :
    (∀ f : Field, f.Built → f.Everywhere WithoutNaN → ∀ path, compareAt path f f = []) ∧
    (∀ f g : Field, f.Built → g.Built → ∀ path path',
      (compareAt path f g).length = (compareAt path' g f).length ∧
        (compareAt path f g = [] → compareAt path' g f = [])) ∧
    (∀ f g k : Field, ∀ path path' path'', compareAt path f g = [] → compareAt path' g k = [] →
      compareAt path'' f k = []) ∧
    (∀ f g : Field, f.Built → g.Built → ∀ path, compareAt path f g = [] →
      f.same g = true ∧ ∀ source : Provenance, f.sameBy source.numbers g = true) ∧
    ∀ s t : Schema, s.root.Built → t.root.Built → ∀ path, compareAt path s.root t.root = [] →
      ∀ source : Provenance, s.sameBy source.numbers t =
        { s with root := t.root }.sameBy source.numbers t := by
  refine ⟨?_, ?_, ?_, ?_, ?_⟩
  · intro f hf hreal path
    exact (matches_self hf.orderly hreal).compareAt_eq_nil path
  · intro f g hf hg path path'
    exact ⟨countAlike hf.orderly hg.orderly path path',
      fun h => (hf.symm hg ⟨path, h⟩).compareAt_eq_nil path'⟩
  · intro f g k path path' path'' hfg hgk
    have hmatches : Matches f k := Matches.trans ⟨path, hfg⟩ ⟨path', hgk⟩
    exact hmatches.compareAt_eq_nil path''
  · intro f g hf hg path h
    have hmatches : Matches f g := ⟨path, h⟩
    exact ⟨hmatches.sameBy (fun _ _ => id) hf.constructed.sound hg.constructed.sound,
      fun source => hmatches.sameBy (fun _ _ => Provenance.numbers_of_same source)
        hf.constructed.sound hg.constructed.sound⟩
  · intro s t hs ht path h source
    have hmatches : Matches s.root t.root := ⟨path, h⟩
    have hself : Matches t.root t.root := (hs.symm ht hmatches).trans hmatches
    have hsame : ∀ {f : Field}, f.Built → Matches f t.root →
        f.sameBy source.numbers t.root = true := fun hf h =>
      h.sameBy (fun _ _ => Provenance.numbers_of_same source) hf.constructed.sound
        ht.constructed.sound
    unfold Schema.sameBy
    rw [hsame hs hmatches, hsame ht hself]

end

/-- An object with a custom check, and the same object with its names in another order. -/
theorem comparison_equivalence_reordered :
    let even : AuthorFn := ⟨"even", AuthorFn.Catalogue.even⟩
    let a : Member Field := ⟨"a", true, .custom even (.text "custom")⟩
    let b : Member Field := ⟨"b", true, .boolean⟩
    let f : Field := .object [a, b]
    let g : Field := .object [b, a]
    let s : Schema := { version := 1, root := f }
    compareAt .root f f = [] ∧ compareAt .root g f = [] ∧ compareAt .root g g = [] ∧
      f.same g = true ∧ s.sameBy Number.same { s with root := g } =
        { s with root := g }.sameBy Number.same { s with root := g } := by
  intro even a b f g s
  have hmembers : ∀ {P : Field → Prop}, P a.field → P b.field →
      ∀ m ∈ [a, b], m.field.Everywhere P := fun ha hb =>
    List.forall_mem_cons.mpr ⟨everywhere_leaf ha rfl,
      List.forall_mem_singleton.mpr (everywhere_leaf hb rfl)⟩
  have hentries : ∀ e ∈ [(Key.text "a", a.field), (Key.text "b", b.field)], e.2.Constructed :=
    List.forall_mem_cons.mpr ⟨.custom rfl, List.forall_mem_singleton.mpr .boolean⟩
  have hf : f.Built :=
    ⟨@Constructed.object _ [(.text "a", a.field), (.text "b", b.field)] .null _ hentries rfl,
      everywhere_object trivial (hmembers (.scalar _) trivial)⟩
  have hg : g.Built := by
    refine ⟨@Constructed.object _ [(.text "b", b.field), (.text "a", a.field)] .null _ ?_ rfl,
      everywhere_object trivial fun m hm => ?_⟩
    · exact fun e he => hentries e ((List.Perm.swap _ _ []).mem_iff.mp he)
    · exact hmembers (.scalar _) trivial m ((List.Perm.swap _ _ []).mem_iff.mp hm)
  have hname : a.field.WithoutNaN := by
    rintro _ ⟨⟩
    exact nofun
  have hreal : f.Everywhere WithoutNaN := everywhere_object trivial (hmembers hname trivial)
  obtain ⟨hrefl, hsymm, htrans, hequal, happend⟩ := comparison_equivalence
  have hfg : compareAt .root f g = [] := rfl
  have hgf : compareAt .root g f = [] := (hsymm f g hf hg .root .root).2 hfg
  exact ⟨hrefl f hf hreal .root, hgf, htrans g f g .root .root .root hgf hfg,
    (hequal f g hf hg .root hfg).1, happend s { s with root := g } hf hg .root hfg .written⟩

end Field
end Lineage
