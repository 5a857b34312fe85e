import Lineage.Number

/-
The order of numbers, read off their positions.

Numbers other than NaN are ordered by position, an integer and a double of one
value share theirs, and everything that validation asks of a number depends on the
position alone.
-/

namespace Lineage
namespace Number

/-- Whether a number is anything but NaN. -/
def isReal (n : Number) : Bool := n.position.isSome

/-- Whether a number is at most another; never with NaN. -/
def atMost (a b : Number) : Bool := a.lt b || a.same b

theorem isReal_of_isFinite {n : Number} (h : n.isFinite = true) : n.isReal = true := by
  cases n with
  | int k => rfl
  | float d => cases d <;> simp_all [isFinite, Double.isFinite, isReal, position, Double.position]

theorem same_iff {a b : Number} :
    a.same b = true ↔ ∃ p, a.position = some p ∧ b.position = some p := by
  unfold same
  cases a.position with
  | none => simp
  | some p =>
    cases b.position with
    | none => simp
    | some q =>
      simp only [beq_iff_eq, Option.some.injEq]
      exact ⟨fun h => ⟨p, rfl, h.symm⟩, fun ⟨r, hp, hq⟩ => hp.trans hq.symm⟩

theorem position_eq_of_same {a b : Number} (h : a.same b = true) : a.position = b.position := by
  obtain ⟨p, ha, hb⟩ := same_iff.mp h
  rw [ha, hb]

theorem same_refl {n : Number} (h : n.isReal = true) : n.same n = true := by
  obtain ⟨p, hp⟩ := Option.isSome_iff_exists.mp h
  exact same_iff.mpr ⟨p, hp, hp⟩

theorem same_comm (a b : Number) : a.same b = b.same a := by
  unfold same
  cases a.position <;> cases b.position <;> simp [Bool.beq_comm]

theorem same_trans {a b c : Number} (hab : a.same b = true) (hbc : b.same c = true) :
    a.same c = true := by
  obtain ⟨p, ha, hb⟩ := same_iff.mp hab
  obtain ⟨q, hb', hc⟩ := same_iff.mp hbc
  obtain rfl : p = q := Option.some.inj (hb.symm.trans hb')
  exact same_iff.mpr ⟨p, ha, hc⟩

/-- Copies of one number are at one position, or both at none. -/
theorem copyOf_iff {a b : Number} : a.copyOf b = true ↔ a.position = b.position := by
  unfold copyOf same
  cases a.position <;> cases b.position <;> simp

theorem lt_iff {a b : Number} :
    a.lt b = true ↔ ∃ p q, a.position = some p ∧ b.position = some q ∧
      (p.1 < q.1 ∨ p.1 = q.1 ∧ p.2 < q.2) := by
  unfold lt
  cases a.position with
  | none => simp
  | some p =>
    cases b.position with
    | none => simp
    | some q => simp

theorem lt_congr_left {a b : Number} (h : a.position = b.position) (c : Number) :
    a.lt c = b.lt c := by
  unfold lt
  rw [h]

theorem lt_congr_right {a b : Number} (h : a.position = b.position) (c : Number) :
    c.lt a = c.lt b := by
  unfold lt
  rw [h]

/-- Among numbers that are not NaN, one that is not less is at least as large. -/
theorem lt_eq_false_iff {a b : Number} (ha : a.isReal = true) (hb : b.isReal = true) :
    a.lt b = false ↔ b.atMost a = true := by
  obtain ⟨⟨s, k⟩, hp⟩ := Option.isSome_iff_exists.mp ha
  obtain ⟨⟨t, l⟩, hq⟩ := Option.isSome_iff_exists.mp hb
  simp only [atMost, lt, same, hp, hq, Bool.or_eq_false_iff, Bool.or_eq_true,
    Bool.and_eq_true, Bool.and_eq_false_iff, decide_eq_true_eq, decide_eq_false_iff_not,
    beq_iff_eq, beq_eq_false_iff_ne, Prod.mk.injEq]
  omega

/-- Nothing lies both at most at one number and at least at a larger one. -/
theorem not_between {low high n : Number} (h : high.lt low = true)
    (hhigh : n.atMost high = true) (hlow : low.atMost n = true) : False := by
  obtain ⟨⟨s, k⟩, ⟨t, l⟩, hp, hq, hlt⟩ := lt_iff.mp h
  simp only [atMost, lt, same, hp, hq] at hhigh hlow
  cases hn : n.position with
  | none => simp [hn] at hhigh
  | some r =>
    obtain ⟨u, m⟩ := r
    simp only [hn, Bool.or_eq_true, Bool.and_eq_true, decide_eq_true_eq, beq_iff_eq,
      Prod.mk.injEq] at hhigh hlow hlt
    omega

theorem atMost_congr_right {a b : Number} (h : a.position = b.position) (c : Number) :
    c.atMost a = c.atMost b := by
  unfold atMost same
  rw [lt_congr_right h, h]

theorem atMost_congr_left {a b : Number} (h : a.position = b.position) (c : Number) :
    a.atMost c = b.atMost c := by
  unfold atMost same
  rw [lt_congr_left h, h]

/-- A number is whole when its position is a multiple of the units in one. -/
theorem isIntegral_iff {n : Number} :
    n.isIntegral = true ↔ ∃ k : Int, n.position = some (0, k) ∧ k % unitsPerOne = 0 := by
  have hbeside : ∀ {s : Int}, s ≠ 0 →
      ¬∃ k : Int, some (s, (0 : Int)) = some (0, k) ∧ k % unitsPerOne = 0 := by
    rintro s hs ⟨k, h, -⟩
    exact hs (congrArg Prod.fst (Option.some.inj h))
  cases n with
  | int k => exact ⟨fun _ => ⟨_, rfl, Int.mul_emod_left k _⟩, fun _ => rfl⟩
  | float d =>
    cases d with
    | nan => exact ⟨nofun, fun ⟨_, h, _⟩ => nomatch h⟩
    | infinite negative =>
      cases negative with
      | false => exact ⟨nofun, fun h => absurd h (hbeside (by decide))⟩
      | true => exact ⟨nofun, fun h => absurd h (hbeside (by decide))⟩
    | negZero => exact ⟨fun _ => ⟨0, rfl, Int.zero_emod _⟩, fun _ => rfl⟩
    | units k =>
      show decide (k % unitsPerOne = 0) = true ↔ _
      rw [decide_eq_true_eq]
      constructor
      · intro h
        exact ⟨k, rfl, h⟩
      · rintro ⟨l, hl, h⟩
        obtain rfl : k = l := congrArg Prod.snd (Option.some.inj hl)
        exact h

theorem isIntegral_congr {a b : Number} (h : a.position = b.position) :
    a.isIntegral = b.isIntegral := by
  rw [Bool.eq_iff_iff, isIntegral_iff, isIntegral_iff, h]

theorem isZero_congr {a b : Number} (h : a.position = b.position) : a.isZero = b.isZero := by
  unfold isZero same
  rw [h]

theorem unitsPerOne_pos : 0 < unitsPerOne := by
  unfold unitsPerOne
  generalize 1074 = exponent
  exact Nat.two_pow_pos exponent

/-- Whole numbers at one position are one. -/
theorem int_inj {m n : Int} (h : (int m).position = (int n).position) : m = n := by
  simp only [position, Option.some.injEq, Prod.mk.injEq, true_and] at h
  exact Int.eq_of_mul_eq_mul_right (Int.natCast_ne_zero.mpr (Nat.ne_of_gt unitsPerOne_pos)) h

theorem same_int (m n : Int) : (int m).same (int n) = (m == n) := by
  rw [Bool.eq_iff_iff, same_iff, beq_iff_eq]
  constructor
  · rintro ⟨p, hm, hn⟩
    exact int_inj (hm.trans hn.symm)
  · rintro rfl
    exact ⟨_, rfl, rfl⟩

/-- Truth values that count as numbers at one position are one. -/
theorem bool_inj {a b : Bool}
    (h : (int (if a then 1 else 0)).position = (int (if b then 1 else 0)).position) : a = b := by
  have hint := int_inj h
  revert hint
  cases a <;> cases b <;> decide

/-- No whole number from zero on is below zero. -/
theorem int_lt_zero {n : Int} (h : 0 ≤ n) : (int n).lt (int 0) = false := by
  have hunits : 0 ≤ n * (unitsPerOne : Int) := Int.mul_nonneg h (Int.natCast_nonneg _)
  simp only [lt, position, Int.zero_mul]
  generalize n * (unitsPerOne : Int) = units at hunits
  simp only [Int.lt_irrefl, decide_false, Bool.false_or, BEq.rfl, Bool.true_and,
    decide_eq_false_iff_not]
  omega

end Number
end Lineage
