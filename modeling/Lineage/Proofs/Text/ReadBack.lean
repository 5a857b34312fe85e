import Mathlib.Data.List.Basic
import Lineage.Text.Digit
import Lineage.Text.Join
import Lineage.Text.Split

/-
Texts that are read back.

The digits of a number read as that number, and parts that do not hold the character they
are put together with come apart as they were.
-/

namespace Lineage
namespace Text

/-! ## Digits -/

theorem asciiNumber_eq (cs : List Char) : asciiNumber cs = Nat.ofDigitChars 10 cs 0 := by
  unfold asciiNumber Nat.ofDigitChars
  congr 1
  funext n c
  rw [Nat.mul_comm]

theorem toList_toString (n : Nat) : (toString n).toList = Nat.toDigits 10 n := by
  rw [Nat.toString_eq_ofList_toDigits, String.toList_ofList]

/-- A number is what its digits write. -/
@[simp] theorem asciiNumber_toString (n : Nat) : asciiNumber (toString n).toList = n := by
  rw [asciiNumber_eq, toList_toString, Nat.ofDigitChars_ten_toDigits]

theorem isAsciiDigit_of_mem_toString {n : Nat} {c : Char} (h : c ∈ (toString n).toList) :
    isAsciiDigit c = true := by
  rw [toList_toString] at h
  exact Nat.isDigit_of_mem_toDigits (by decide) (by decide) h

theorem toString_ne_nil (n : Nat) : (toString n).toList ≠ [] := by
  rw [toList_toString]
  exact Nat.toDigits_ne_nil

/-! ## Parts -/

/-- Texts put together stand in order, each but the first after the separator. -/
theorem toList_joined_cons (separator s : String) (rest : List String) :
    (joined separator (s :: rest)).toList =
      s.toList ++ rest.flatMap fun t => separator.toList ++ t.toList := by
  show (rest.foldl (fun text t => text ++ separator ++ t) s).toList = _
  induction rest generalizing s with
  | nil => exact (List.append_nil _).symm
  | cons t more ih =>
    rw [List.foldl_cons, ih, List.flatMap_cons, String.toList_append, String.toList_append,
      List.append_assoc, List.append_assoc, List.append_assoc]

/-- Texts with nothing between them. -/
theorem toList_joined_empty (texts : List String) :
    (joined "" texts).toList = texts.flatMap String.toList := by
  cases texts with
  | nil => rfl
  | cons s rest => exact toList_joined_cons "" s rest

theorem splitAt_ne_nil (x : Char) (cs : List Char) : splitAt x cs ≠ [] := by
  cases cs with
  | nil => exact List.cons_ne_nil _ _
  | cons c rest =>
    unfold splitAt
    split
    · exact List.cons_ne_nil _ _
    · split <;> exact List.cons_ne_nil _ _

/-- What a character cuts is put together again by standing before each part but the first. -/
theorem splitAt_eq_cons_iff {x : Char} {cs head : List Char} {parts : List (List Char)} :
    splitAt x cs = head :: parts ↔
      cs = head ++ parts.flatMap (x :: ·) ∧ ∀ part ∈ head :: parts, x ∉ part := by
  induction cs generalizing head parts with
  | nil =>
    constructor
    · intro h
      cases h
      exact ⟨rfl, List.forall_mem_singleton.mpr List.not_mem_nil⟩
    · rintro ⟨h, -⟩
      obtain ⟨rfl, hparts⟩ := List.append_eq_nil_iff.mp h.symm
      cases parts with
      | nil => rfl
      | cons part rest => cases hparts
  | cons c rest ih =>
    obtain ⟨first, more, hrest⟩ := List.exists_cons_of_ne_nil (splitAt_ne_nil x rest)
    obtain ⟨hjoined, hfree⟩ := ih.mp hrest
    by_cases hc : c = x
    · subst hc
      have hcut : splitAt c (c :: rest) = [] :: first :: more := by
        rw [splitAt, if_pos (beq_self_eq_true c), hrest]
      rw [hcut]
      constructor
      · intro h
        cases h
        exact ⟨congrArg (c :: ·) hjoined, List.forall_mem_cons.mpr ⟨List.not_mem_nil, hfree⟩⟩
      · -- The first part does not begin with the character, so it is empty.
        rintro ⟨h, hall⟩
        obtain ⟨hhead, hparts⟩ := List.forall_mem_cons.mp hall
        cases head with
        | cons d ds =>
          cases h
          exact absurd List.mem_cons_self hhead
        | nil =>
          cases parts with
          | nil => cases h
          | cons part others =>
            have hothers : rest = part ++ others.flatMap (c :: ·) := (List.cons.inj h).2
            rw [← hrest, ih.mpr ⟨hothers, hparts⟩]
    · have hcut : splitAt x (c :: rest) = (c :: first) :: more := by
        rw [splitAt, if_neg (by simpa using hc), hrest]
      rw [hcut]
      obtain ⟨hfirst, hmore⟩ := List.forall_mem_cons.mp hfree
      constructor
      · intro h
        cases h
        refine ⟨congrArg (c :: ·) hjoined, List.forall_mem_cons.mpr ⟨fun hx => ?_, hmore⟩⟩
        rcases List.mem_cons.mp hx with rfl | hx
        · exact hc rfl
        · exact hfirst hx
      · -- The first part begins with this character, as no later part does.
        rintro ⟨h, hall⟩
        obtain ⟨hhead, hparts⟩ := List.forall_mem_cons.mp hall
        cases head with
        | nil =>
          cases parts with
          | nil => cases h
          | cons part others => exact absurd (List.cons.inj h).1 hc
        | cons d ds =>
          obtain ⟨rfl, hothers⟩ := List.cons.inj h
          have hds : x ∉ ds := fun hx => hhead (List.mem_cons_of_mem _ hx)
          have hagain := ih.mpr ⟨hothers, List.forall_mem_cons.mpr ⟨hds, hparts⟩⟩
          rw [hrest] at hagain
          obtain ⟨rfl, rfl⟩ := List.cons.inj hagain
          rfl

end Text
end Lineage
