import Lineage.Proofs.Field.Matching
import Lineage.Proofs.Field.Tree

/-
Differences move with the place of the fields.

The comparison reads the place only to write it down, so what it finds at a longer path is
what it finds at the shorter one with the path in front.
-/

namespace Lineage

namespace Path

/-- A path that goes on where another one ends. -/
def append (p q : Path) : Path := ⟨p.segments ++ q.segments⟩

variable (p q : Path)

@[simp] theorem append_root : p.append .root = p := by
  rw [append, root, List.append_nil]

@[simp] theorem append_child (s : Segment) : p.append (q.child s) = (p.append q).child s := by
  rw [append, child, append, child, List.append_assoc]

@[simp] theorem append_key (name : String) : p.append (q.key name) = (p.append q).key name :=
  append_child p q (.key name)

@[simp] theorem append_index (i : Nat) : p.append (q.index i) = (p.append q).index i :=
  append_child p q (.index i)

end Path

/-- A difference at a place further down. -/
def Difference.under (p : Path) (d : Difference) : Difference := { d with path := p.append d.path }

namespace Field

variable {p q : Path}

/-! ## Attributes -/

theorem difference_under (reason expected actual : String) :
    difference (p.append q) reason expected actual =
      (difference q reason expected actual).map (Difference.under p) := rfl

theorem differenceIf_under (condition : Bool) (reason expected actual : String) :
    differenceIf condition (p.append q) reason expected actual =
      (differenceIf condition q reason expected actual).map (Difference.under p) := by
  cases condition <;> rfl

theorem compareBound_under (name : String) (a b : Option Number) :
    compareBound (p.append q) name a b =
      (compareBound q name a b).map (Difference.under p) := differenceIf_under _ _ _ _

theorem compareFlag_under (name : String) (a b : Value) :
    compareFlag (p.append q) name a b =
      (compareFlag q name a b).map (Difference.under p) := differenceIf_under _ _ _ _

/-! ## Children -/

/-- Children that face each other move together when each place moves. -/
theorem compareSides_under (place : Path → Nat → Path) {as : List Field}
    (hplace : ∀ i, place (p.append q) i = p.append (place q i))
    (h : ∀ a ∈ as, ∀ q b, compareAt (p.append q) a b = (compareAt q a b).map (Difference.under p))
    (index : Nat) (bs : List Field) :
    compareSides (place (p.append q)) index as bs =
      (compareSides (place q) index as bs).map (Difference.under p) := by
  induction as generalizing index bs with
  | nil => cases bs <;> rfl
  | cons a rest ih =>
    cases bs with
    | nil => rfl
    | cons b more =>
      obtain ⟨ha, hrest⟩ := List.forall_mem_cons.mp h
      rw [compareSides, compareSides, hplace, ha, ih hrest, List.map_append]

theorem compareMembers_under {expected : List (Member Field)}
    (h : ∀ m ∈ expected, ∀ q b,
      compareAt (p.append q) m.field b = (compareAt q m.field b).map (Difference.under p))
    (actual : List (Member Field)) :
    compareMembers (p.append q) expected actual =
      (compareMembers q expected actual).map (Difference.under p) := by
  induction expected with
  | nil => rfl
  | cons m rest ih =>
    obtain ⟨name, required, f⟩ := m
    obtain ⟨hf, hrest⟩ := List.forall_mem_cons.mp h
    rw [compareMembers, compareMembers, ih hrest, List.map_append, ← Path.append_key]
    congr 1
    cases Member.find? name actual with
    | none => exact difference_under _ _ _
    | some m =>
      simp only
      rw [hf, differenceIf_under, List.map_append]

theorem unexpected_under (expected actual : List (Member Field)) :
    unexpected expected (p.append q) actual =
      (unexpected expected q actual).map (Difference.under p) := by
  unfold unexpected
  rw [List.map_flatMap]
  simp only [← Path.append_key, difference_under]

/-! ## Whole trees -/

/-- What the comparison finds at the end of a path is what it finds by itself, moved there. -/
theorem compareAt_under (f g : Field) :
    compareAt (p.append q) f g = (compareAt q f g).map (Difference.under p) := by
  induction f generalizing q g with
  | string =>
    cases g with
    | string =>
      simp only [compareAt, compareBound_under, differenceIf_under, List.map_append]
    | _ => rfl
  | number =>
    cases g with
    | number => simp only [compareAt, compareBound_under, compareFlag_under, List.map_append]
    | _ => rfl
  | boolean => cases g <;> rfl
  | null => cases g <;> rfl
  | any => cases g <;> rfl
  | literal =>
    cases g with
    | literal => exact differenceIf_under _ _ _ _
    | _ => rfl
  | array element low high ih =>
    cases g with
    | array =>
      simp only [compareAt, compareBound_under, List.map_append, ← Path.append_child, ih]
    | _ => rfl
  | tuple fields ih =>
    cases g with
    | tuple others =>
      rw [compareAt, compareAt]
      split
      · rw [compareItems_eq, compareItems_eq]
        exact compareSides_under Path.index (fun i => (Path.append_index p q i).symm)
          (fun f hf q g => ih f hf g) 0 others
      · exact difference_under _ _ _
    | _ => rfl
  | object members ih =>
    cases g with
    | object others =>
      rw [compareAt, compareAt, compareMembers_under (fun m hm q g => ih m hm g) others,
        unexpected_under, List.map_append]
    | _ => rfl
  | optional inner ih =>
    cases g with
    | optional other => exact ih other
    | _ => rfl
  | defaulted inner value ih =>
    cases g with
    | defaulted other w => rw [compareAt, compareAt, differenceIf_under, ih, List.map_append]
    | _ => rfl
  | union variants discriminant ih =>
    cases g with
    | union others =>
      rw [compareAt, compareAt, differenceIf_under, List.map_append]
      congr 1
      split
      · rw [compareVariants_eq, compareVariants_eq]
        exact compareSides_under (fun q i => q.key (variantSegment i))
          (fun i => (Path.append_key p q _).symm) (fun f hf q g => ih f hf g) 0 others
      · exact difference_under _ _ _
    | _ => rfl
  | custom =>
    cases g with
    | custom => exact differenceIf_under _ _ _ _
    | _ => rfl

end Field
end Lineage
