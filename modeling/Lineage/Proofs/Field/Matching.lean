import Lineage.Field.Difference
import Lineage.Proofs.Alongside
import Lineage.Proofs.Field.Attributes
import Lineage.Proofs.Field.Members

/-
Fields between which the comparison finds nothing.

That it finds nothing is a statement about one level of two trees and about the children that
face each other there.
-/

namespace Lineage
namespace Field

variable {f g : Field} {R S : Field → Field → Prop}

/-! ## Attributes -/

@[simp] theorem differenceIf_eq_nil {condition : Bool} {path : Path}
    {reason expected actual : String} :
    differenceIf condition path reason expected actual = [] ↔ condition = false := by
  cases condition <;> simp [differenceIf, difference]

theorem boundDiffers_eq_false {a b : Option Number} (ha : RealBound a)
    (h : a.map Number.position = b.map Number.position) : boundDiffers a b = false := by
  cases a with
  | none =>
    cases b with
    | none => rfl
    | some y => cases h
  | some x =>
    cases b with
    | none => cases h
    | some y =>
      have hposition : x.position = y.position := Option.some.inj h
      have hsame : x.same y = true := by
        rw [← Number.same_refl (ha x rfl)]
        unfold Number.same
        rw [hposition]
      show (!x.same y) = false
      rw [hsame]
      rfl

theorem position_of_boundDiffers {a b : Option Number} (h : boundDiffers a b = false) :
    a.map Number.position = b.map Number.position := by
  cases a with
  | none =>
    cases b with
    | none => rfl
    | some n => cases h
  | some m =>
    cases b with
    | none => cases h
    | some n =>
      have hsame : m.same n = true := by simpa [boundDiffers] using h
      rw [Option.map_some, Option.map_some, Number.position_eq_of_same hsame]

theorem compareBound_eq_nil {path : Path} {name : String} {a b : Option Number} :
    compareBound path name a b = [] ↔ boundDiffers a b = false := differenceIf_eq_nil

theorem valuesDiffer_eq_false {v w : Value} : valuesDiffer v w = false ↔ v.equal w = .ok true := by
  unfold valuesDiffer
  split
  · next same hsame => rw [hsame, Bool.not_eq_false', Except.ok.injEq]
  · next e he => simp [he]

/-- Flags that the comparison takes for one. -/
def FlagsMatch (a b : Value) : Prop := a.sameBy Number.same b = true ∧ isTruth a = isTruth b

theorem compareFlag_eq_nil {path : Path} {name : String} {a b : Value} :
    compareFlag path name a b = [] ↔ FlagsMatch a b := by
  unfold compareFlag FlagsMatch
  rw [differenceIf_eq_nil]
  simp

/-! ## Children -/

/-- The comparison finds nothing, wherever it is made. -/
def Matches (expected actual : Field) : Prop := ∃ path, compareAt path expected actual = []

/-- Fields side by side, each two compared at the place of their index. -/
def compareSides (place : Nat → Path) (index : Nat) :
    (expected actual : List Field) → List Difference
  | f :: fs, g :: gs => compareAt (place index) f g ++ compareSides place (index + 1) fs gs
  | _, _ => []

theorem compareItems_eq (path : Path) (index : Nat) (as bs : List Field) :
    compareItems path index as bs = compareSides path.index index as bs := by
  induction as generalizing bs index with
  | nil => cases bs <;> rfl
  | cons a as ih =>
    cases bs with
    | nil => rfl
    | cons b bs => rw [compareItems, compareSides, ih]

theorem compareVariants_eq (path : Path) (index : Nat) (as bs : List Field) :
    compareVariants path index as bs =
      compareSides (fun i => path.key (variantSegment i)) index as bs := by
  induction as generalizing bs index with
  | nil => cases bs <;> rfl
  | cons a as ih =>
    cases bs with
    | nil => rfl
    | cons b bs => rw [compareVariants, compareSides, ih]

theorem matches_of_compareSides {place : Nat → Path} {index : Nat} {as bs : List Field}
    (hlength : as.length = bs.length) (h : compareSides place index as bs = []) :
    List.Forall₂ Matches as bs := by
  induction as generalizing bs index with
  | nil =>
    obtain rfl := List.eq_nil_of_length_eq_zero hlength.symm
    exact .nil
  | cons a as ih =>
    cases bs with
    | nil => cases hlength
    | cons b bs =>
      obtain ⟨hfirst, hmore⟩ := List.append_eq_nil_iff.mp h
      exact .cons ⟨_, hfirst⟩ (ih (Nat.succ.inj hlength) hmore)

theorem match_of_compareMembers {expected actual : List (Member Field)} {path : Path}
    (h : compareMembers path expected actual = []) : ∀ m ∈ expected, ∃ n,
      Member.find? m.name actual = some n ∧ m.required = n.required ∧ Matches m.field n.field := by
  induction expected with
  | nil => exact nofun
  | cons m rest ih =>
    obtain ⟨name, required, f⟩ := m
    obtain ⟨hfirst, hmore⟩ := List.append_eq_nil_iff.mp h
    refine List.forall_mem_cons.mpr ⟨?_, ih hmore⟩
    split at hfirst
    · cases hfirst
    · next n hn =>
      obtain ⟨hrequired, hfield⟩ := List.append_eq_nil_iff.mp hfirst
      have hsame : (required != n.required) = false := differenceIf_eq_nil.mp hrequired
      exact ⟨n, hn, by simpa using hsame, _, hfield⟩

theorem declares_of_unexpected {expected actual : List (Member Field)} {path : Path}
    (h : unexpected expected path actual = []) :
    ∀ m ∈ actual, Member.declares expected m.name = true := by
  intro m hm
  by_cases hdeclares : Member.declares expected m.name = true
  · exact hdeclares
  · have hmem : m ∈ actual.filter fun m => !Member.declares expected m.name :=
      List.mem_filter.mpr ⟨hm, by simpa using hdeclares⟩
    cases List.flatMap_eq_nil_iff.mp h m hmem

/-! ## One level -/

/-- Two fields of one kind with matching attributes, whose children are related where they face
each other. -/
inductive LevelMatches (R : Field → Field → Prop) : Field → Field → Prop
  | string {low high low' high' : Option Number} (pattern : Option PatternSource)
      (format : Option Format) (hlow : boundDiffers low low' = false)
      (hhigh : boundDiffers high high' = false) :
      LevelMatches R (.string low high pattern format) (.string low' high' pattern format)
  | number {low high low' high' : Option Number} {flag flag' : Value}
      (hlow : boundDiffers low low' = false) (hhigh : boundDiffers high high' = false)
      (hflag : FlagsMatch flag flag') :
      LevelMatches R (.number low high flag) (.number low' high' flag')
  | boolean : LevelMatches R .boolean .boolean
  | null : LevelMatches R .null .null
  | any : LevelMatches R .any .any
  | literal {a b : Scalar} (h : a.equal b = true) : LevelMatches R (.literal a) (.literal b)
  | array {a b : Field} {low high low' high' : Option Number}
      (hlow : boundDiffers low low' = false) (hhigh : boundDiffers high high' = false)
      (h : R a b) : LevelMatches R (.array a low high) (.array b low' high')
  | tuple {as bs : List Field} (h : List.Forall₂ R as bs) : LevelMatches R (.tuple as) (.tuple bs)
  | object {as bs : List (Member Field)}
      (hmembers : ∀ m ∈ as, ∃ n, Member.find? m.name bs = some n ∧ m.required = n.required ∧
        R m.field n.field)
      (hdeclared : ∀ n ∈ bs, Member.declares as n.name = true) :
      LevelMatches R (.object as) (.object bs)
  | optional {a b : Field} (h : R a b) : LevelMatches R (.optional a) (.optional b)
  | defaulted {a b : Field} {v w : Value} (hvalue : v.equal w = .ok true) (h : R a b) :
      LevelMatches R (.defaulted a v) (.defaulted b w)
  | union {as bs : List Field} (key : Option String) (h : List.Forall₂ R as bs) :
      LevelMatches R (.union as key) (.union bs key)
  | custom {check check' : AuthorFn} {name name' : Value} (hcheck : check.identity = check'.identity)
      (hname : name.sameBy Number.same name' = true) :
      LevelMatches R (.custom check name) (.custom check' name')

/-- Fields between which the comparison finds nothing match at this level. -/
theorem levelMatches_of_compareAt {path : Path} (h : compareAt path f g = []) :
    LevelMatches Matches f g := by
  cases f with
  | string low high pattern format =>
    cases g with
    | string low' high' pattern' format' =>
      obtain ⟨h, hformat⟩ := List.append_eq_nil_iff.mp h
      obtain ⟨h, hpattern⟩ := List.append_eq_nil_iff.mp h
      obtain ⟨hlow, hhigh⟩ := List.append_eq_nil_iff.mp h
      obtain rfl : pattern = pattern' := by simpa using differenceIf_eq_nil.mp hpattern
      obtain rfl : format = format' := by simpa using differenceIf_eq_nil.mp hformat
      exact .string pattern format (compareBound_eq_nil.mp hlow) (compareBound_eq_nil.mp hhigh)
    | _ => cases h
  | number low high flag =>
    cases g with
    | number low' high' flag' =>
      obtain ⟨h, hflag⟩ := List.append_eq_nil_iff.mp h
      obtain ⟨hlow, hhigh⟩ := List.append_eq_nil_iff.mp h
      exact .number (compareBound_eq_nil.mp hlow) (compareBound_eq_nil.mp hhigh)
        (compareFlag_eq_nil.mp hflag)
    | _ => cases h
  | boolean =>
    cases g with
    | boolean => exact .boolean
    | _ => cases h
  | null =>
    cases g with
    | null => exact .null
    | _ => cases h
  | any =>
    cases g with
    | any => exact .any
    | _ => cases h
  | literal a =>
    cases g with
    | literal b => exact .literal (by simpa using differenceIf_eq_nil.mp h)
    | _ => cases h
  | array a low high =>
    cases g with
    | array b low' high' =>
      obtain ⟨h, helement⟩ := List.append_eq_nil_iff.mp h
      obtain ⟨hlow, hhigh⟩ := List.append_eq_nil_iff.mp h
      exact .array (compareBound_eq_nil.mp hlow) (compareBound_eq_nil.mp hhigh) ⟨_, helement⟩
    | _ => cases h
  | tuple as =>
    cases g with
    | tuple bs =>
      rw [compareAt] at h
      split at h
      · next hlength =>
        rw [compareItems_eq] at h
        exact .tuple (matches_of_compareSides hlength h)
      · cases h
    | _ => cases h
  | object as =>
    cases g with
    | object bs =>
      obtain ⟨hmembers, hunexpected⟩ := List.append_eq_nil_iff.mp h
      exact .object (match_of_compareMembers hmembers) (declares_of_unexpected hunexpected)
    | _ => cases h
  | optional a =>
    cases g with
    | optional b => exact .optional ⟨path, h⟩
    | _ => cases h
  | defaulted a v =>
    cases g with
    | defaulted b w =>
      obtain ⟨hvalue, hinner⟩ := List.append_eq_nil_iff.mp h
      exact .defaulted (valuesDiffer_eq_false.mp (differenceIf_eq_nil.mp hvalue)) ⟨path, hinner⟩
    | _ => cases h
  | union as key =>
    cases g with
    | union bs key' =>
      obtain ⟨hkey, hvariants⟩ := List.append_eq_nil_iff.mp h
      obtain rfl : key = key' := by simpa using differenceIf_eq_nil.mp hkey
      split at hvariants
      · next hlength =>
        rw [compareVariants_eq] at hvariants
        exact .union key (matches_of_compareSides hlength hvariants)
      · cases hvariants
    | _ => cases h
  | custom check name =>
    cases g with
    | custom check' name' =>
      have hsame := differenceIf_eq_nil.mp h
      simp only [Bool.or_eq_false_iff, bne_eq_false_iff_eq, Bool.not_eq_false'] at hsame
      exact .custom hsame.1 hsame.2
    | _ => cases h

theorem compareSides_eq_nil {as bs : List Field}
    (h : List.Forall₂ (fun a b => ∀ path, compareAt path a b = []) as bs) (place : Nat → Path)
    (index : Nat) : compareSides place index as bs = [] := by
  induction h generalizing index with
  | nil => rfl
  | cons hab _ ih => rw [compareSides, hab, ih, List.nil_append]

theorem compareMembers_eq_nil {as bs : List (Member Field)}
    (h : ∀ m ∈ as, ∃ n, Member.find? m.name bs = some n ∧ m.required = n.required ∧
      ∀ path, compareAt path m.field n.field = []) (path : Path) :
    compareMembers path as bs = [] := by
  induction as with
  | nil => rfl
  | cons m rest ih =>
    obtain ⟨⟨n, hn, hrequired, hfield⟩, hrest⟩ := List.forall_mem_cons.mp h
    obtain ⟨name, required, f⟩ := m
    rw [compareMembers, hn, ih hrest]
    simp only [hfield, List.append_nil]
    exact differenceIf_eq_nil.mpr (by simpa using hrequired)

theorem unexpected_eq_nil {as bs : List (Member Field)}
    (h : ∀ n ∈ bs, Member.declares as n.name = true) (path : Path) :
    unexpected as path bs = [] := by
  have hnone : (bs.filter fun n => !Member.declares as n.name) = [] :=
    List.filter_eq_nil_iff.mpr fun n hn => by simp [h n hn]
  unfold unexpected
  rw [hnone]
  rfl

/-- The comparison finds nothing, at any path, between fields that match at this level and
between whose children it finds nothing at any. -/
theorem compareAt_of_levelMatches
    (h : LevelMatches (fun a b => ∀ path, compareAt path a b = []) f g) (path : Path) :
    compareAt path f g = [] := by
  cases h with
  | string pattern format hlow hhigh =>
    rw [compareAt, compareBound_eq_nil.mpr hlow, compareBound_eq_nil.mpr hhigh]
    simp
  | number hlow hhigh hflag =>
    rw [compareAt, compareBound_eq_nil.mpr hlow, compareBound_eq_nil.mpr hhigh,
      compareFlag_eq_nil.mpr hflag]
    rfl
  | boolean => rfl
  | null => rfl
  | any => rfl
  | literal h =>
    rw [compareAt, h]
    rfl
  | array hlow hhigh h =>
    rw [compareAt, compareBound_eq_nil.mpr hlow, compareBound_eq_nil.mpr hhigh, h]
    rfl
  | tuple h =>
    rw [compareAt, if_pos h.length_eq, compareItems_eq, compareSides_eq_nil h]
  | object hmembers hdeclared =>
    rw [compareAt, compareMembers_eq_nil hmembers, unexpected_eq_nil hdeclared]
    rfl
  | optional h => exact h path
  | defaulted hvalue h =>
    rw [compareAt, valuesDiffer_eq_false.mpr hvalue, h]
    rfl
  | union key h =>
    rw [compareAt, if_pos h.length_eq, compareVariants_eq, compareSides_eq_nil h]
    simp
  | custom hcheck hname =>
    rw [compareAt, hname, hcheck]
    simp

/-! ## Through the trees -/

theorem LevelMatches.imp (h : LevelMatches R f g)
    (himp : ∀ a ∈ f.children, ∀ b ∈ g.children, R a b → S a b) : LevelMatches S f g := by
  cases h with
  | string pattern format hlow hhigh => exact .string pattern format hlow hhigh
  | number hlow hhigh hflag => exact .number hlow hhigh hflag
  | boolean => exact .boolean
  | null => exact .null
  | any => exact .any
  | literal h => exact .literal h
  | array hlow hhigh h =>
    exact .array hlow hhigh (himp _ List.mem_cons_self _ List.mem_cons_self h)
  | tuple h => exact .tuple (Alongside.imp_mem h himp)
  | object hmembers hdeclared =>
    refine .object (fun m hm => ?_) hdeclared
    obtain ⟨n, hn, hrequired, hfield⟩ := hmembers m hm
    exact ⟨n, hn, hrequired, himp _ (List.mem_map_of_mem hm) _
      (List.mem_map_of_mem (Member.mem_of_find? hn)) hfield⟩
  | optional h => exact .optional (himp _ List.mem_cons_self _ List.mem_cons_self h)
  | defaulted hvalue h =>
    exact .defaulted hvalue (himp _ List.mem_cons_self _ List.mem_cons_self h)
  | union key h => exact .union key (Alongside.imp_mem h himp)
  | custom hcheck hname => exact .custom hcheck hname

/-- Where a comparison is made does not decide whether it finds something. -/
theorem Matches.compareAt_eq_nil (h : Matches f g) (path : Path) : compareAt path f g = [] := by
  induction f using childInduction generalizing g path with
  | h f ih =>
    obtain ⟨other, hnil⟩ := h
    exact compareAt_of_levelMatches
      ((levelMatches_of_compareAt hnil).imp fun a ha b _ hab => ih a ha hab) path

theorem matches_iff : Matches f g ↔ LevelMatches Matches f g := by
  constructor
  · rintro ⟨path, h⟩
    exact levelMatches_of_compareAt h
  · intro h
    exact ⟨.root, compareAt_of_levelMatches (h.imp fun _ _ _ _ hab => hab.compareAt_eq_nil) .root⟩

end Field
end Lineage
