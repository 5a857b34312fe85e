import Mathlib.Data.List.Forall2

/-
Lists side by side, such as the variants of a union with their results.
-/

namespace Lineage
namespace Alongside

variable {α β : Type} {R : α → β → Prop} {as : List α} {bs : List β}

theorem exists_left (h : List.Forall₂ R as bs) {b : β} (hb : b ∈ bs) : ∃ a ∈ as, R a b := by
  induction h with
  | nil => cases hb
  | cons hab _ ih =>
    rcases List.mem_cons.mp hb with rfl | hb
    · exact ⟨_, List.mem_cons_self, hab⟩
    · obtain ⟨a, ha, hR⟩ := ih hb
      exact ⟨a, List.mem_cons_of_mem _ ha, hR⟩

theorem exists_right (h : List.Forall₂ R as bs) {a : α} (ha : a ∈ as) : ∃ b ∈ bs, R a b :=
  exists_left (List.Forall₂.flip h) ha

/-- What holds of each two on the left passes to the two beside them. -/
theorem pairwise_right {P : α → α → Prop} {Q : β → β → Prop} (h : List.Forall₂ R as bs)
    (hP : as.Pairwise P) (himp : ∀ a ∈ as, ∀ c ∈ as, ∀ b d, P a c → R a b → R c d → Q b d) :
    bs.Pairwise Q := by
  induction h with
  | nil => exact .nil
  | @cons a b _ _ hab hrest ih =>
    obtain ⟨ha, hP⟩ := List.pairwise_cons.mp hP
    refine List.pairwise_cons.mpr ⟨fun d hd => ?_, ih hP fun a ha c hc =>
      himp a (List.mem_cons_of_mem _ ha) c (List.mem_cons_of_mem _ hc)⟩
    obtain ⟨c, hc, hcd⟩ := exists_left hrest hd
    exact himp a List.mem_cons_self c (List.mem_cons_of_mem _ hc) b d (ha c hc) hab hcd

/-- A relation that follows from another for each pair. -/
theorem imp_mem {S : α → β → Prop} (h : List.Forall₂ R as bs)
    (himp : ∀ a ∈ as, ∀ b ∈ bs, R a b → S a b) : List.Forall₂ S as bs := by
  induction h with
  | nil => exact .nil
  | cons hab _ ih =>
    exact .cons (himp _ List.mem_cons_self _ List.mem_cons_self hab) (ih fun a ha b hb =>
      himp a (List.mem_cons_of_mem _ ha) b (List.mem_cons_of_mem _ hb))

/-- Two lists beside a third are beside each other. -/
theorem meet {γ : Type} {S : γ → β → Prop} {T : α → γ → Prop} {cs : List γ}
    (h : List.Forall₂ R as bs) (h' : List.Forall₂ S cs bs)
    (hT : ∀ a ∈ as, ∀ c ∈ cs, ∀ b ∈ bs, R a b → S c b → T a c) : List.Forall₂ T as cs := by
  induction h generalizing cs with
  | nil =>
    cases h'
    exact .nil
  | cons hab _ ih =>
    cases h' with
    | cons hcb hrest =>
      refine .cons (hT _ List.mem_cons_self _ List.mem_cons_self _ List.mem_cons_self hab hcb)
        (ih hrest fun a ha c hc b hb => ?_)
      exact hT a (List.mem_cons_of_mem _ ha) c (List.mem_cons_of_mem _ hc) b
        (List.mem_cons_of_mem _ hb)

/-- Lists beside each other by way of a third. -/
theorem comp {γ : Type} {S : β → γ → Prop} {T : α → γ → Prop} {cs : List γ}
    (h : List.Forall₂ R as bs) (h' : List.Forall₂ S bs cs)
    (hT : ∀ a ∈ as, ∀ b c, R a b → S b c → T a c) : List.Forall₂ T as cs :=
  meet h (List.Forall₂.flip h') fun a ha c _ b _ hab hbc => hT a ha b c hab hbc

theorem getElem?_right (h : List.Forall₂ R as bs) {i : Nat} {a : α} (ha : as[i]? = some a) :
    ∃ b, bs[i]? = some b ∧ R a b := by
  induction h generalizing i with
  | nil => cases ha
  | @cons c d _ _ hcd _ ih =>
    cases i with
    | zero =>
      cases ha
      exact ⟨d, rfl, hcd⟩
    | succ i => exact ih ha

theorem of_getElem? (hlength : bs.length = as.length)
    (h : ∀ (i : Nat) a b, as[i]? = some a → bs[i]? = some b → R a b) : List.Forall₂ R as bs :=
  List.forall₂_of_length_eq_of_get hlength.symm fun i ha hb =>
    h i _ _ (List.getElem?_eq_getElem ha) (List.getElem?_eq_getElem hb)

theorem set (h : List.Forall₂ R as bs) (i : Nat) {a : α} {b : β} (hab : R a b) :
    List.Forall₂ R (as.set i a) (bs.set i b) := by
  induction h generalizing i with
  | nil => exact .nil
  | cons hcd hrest ih =>
    cases i with
    | zero => exact .cons hab hrest
    | succ i => exact .cons hcd (ih i)

/-- Conditions that agree side by side first hold at the same index. -/
theorem findIdx?_congr {p : α → Bool} {q : β → Bool} (h : List.Forall₂ R as bs)
    (hpq : ∀ a ∈ as, ∀ b ∈ bs, R a b → p a = q b) : as.findIdx? p = bs.findIdx? q := by
  induction h with
  | nil => rfl
  | cons hab _ ih =>
    rw [List.findIdx?_cons, List.findIdx?_cons,
      hpq _ List.mem_cons_self _ List.mem_cons_self hab,
      ih fun a ha b hb => hpq a (List.mem_cons_of_mem _ ha) b (List.mem_cons_of_mem _ hb)]

end Alongside
end Lineage
