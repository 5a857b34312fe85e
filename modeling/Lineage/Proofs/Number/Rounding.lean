import Lineage.Proofs.Number.Order
import Mathlib.Tactic.Ring

/-
Rounding to doubles.

A magnitude in units is rounded to a multiple of a power of two, and 53 bits of it are
left.  A magnitude that 53 bits can hold is never passed: what lies on one side of it
lies there after rounding as well.  From that come the facts about sums that samples of
numbers need: which are finite, and that adding something positive does not lead down.
-/

namespace Lineage
namespace Double

/-! ## Magnitudes -/

theorem bitLength_le_iff {n b : Nat} : bitLength n ≤ b ↔ n < 2 ^ b := by
  unfold bitLength
  split
  · next h =>
    rw [h]
    exact ⟨fun _ => Nat.two_pow_pos b, fun _ => Nat.zero_le b⟩
  · next h => rw [← Nat.log2_lt h, Nat.succ_le_iff]

theorem le_roundDiv {a n d : Nat} (hd : 0 < d) (h : a * d ≤ n) : a ≤ roundDiv n d := by
  have hq : a ≤ n / d := (Nat.le_div_iff_mul_le hd).mpr h
  unfold roundDiv
  simp only
  split
  · exact hq
  · split
    · omega
    · split
      · exact hq
      · omega

/-- What is nearer to `a` steps than to `a + 1` is not rounded above `a`. -/
theorem roundDiv_le_of_lt {a n d : Nat} (h : 2 * n < (2 * a + 1) * d) : roundDiv n d ≤ a := by
  have hd : 0 < d := Nat.pos_of_ne_zero fun hd => by simp [hd] at h
  have hn : d * (n / d) + n % d = n := Nat.div_add_mod n d
  have hq : n / d ≤ a := by
    rw [Nat.div_le_iff_le_mul_add_pred hd]
    have : (2 * a + 1) * d = 2 * (d * a) + d := by ring
    omega
  rcases Nat.lt_or_eq_of_le hq with hlt | heq
  · unfold roundDiv
    simp only
    split
    · omega
    · split
      · omega
      · split <;> omega
  · have hr : 2 * (n % d) < d := by
      have : (2 * a + 1) * d = 2 * (d * a) + d := by ring
      rw [heq] at hn
      omega
    unfold roundDiv
    simp only
    rw [if_pos hr]
    exact hq

theorem roundDiv_le {a n d : Nat} (hd : 0 < d) (h : n ≤ a * d) : roundDiv n d ≤ a := by
  refine roundDiv_le_of_lt ?_
  have : (2 * a + 1) * d = 2 * (a * d) + d := by ring
  omega

/-- The step of the grid that a magnitude is rounded to. -/
def stepOf (n : Nat) : Nat := Nat.pow 2 (bitLength n - 53)

/-- A magnitude in units, rounded. -/
def rounded (n : Nat) : Nat := roundDiv n (stepOf n) * stepOf n

theorem ofUnits_one (negative : Bool) (n : Nat) :
    ofUnits negative n 1 = ofMagnitude negative (rounded n) := by
  simp only [ofUnits, rounded, stepOf, Nat.div_one, Nat.one_mul]

theorem stepOf_pos (n : Nat) : 0 < stepOf n := Nat.two_pow_pos _

theorem lt_stepOf (n : Nat) : n < 2 ^ 53 * stepOf n := by
  have hlength : bitLength n ≤ 53 + (bitLength n - 53) := by omega
  have h := bitLength_le_iff.mp hlength
  rwa [Nat.pow_add] at h

theorem stepOf_eq_one_or_le (n : Nat) : stepOf n = 1 ∨ 2 ^ 52 * stepOf n ≤ n := by
  by_cases h : bitLength n ≤ 53
  · left
    show 2 ^ (bitLength n - 53) = 1
    rw [Nat.sub_eq_zero_of_le h, Nat.pow_zero]
  · right
    have hlength : ¬bitLength n ≤ 52 + (bitLength n - 53) := by omega
    rw [bitLength_le_iff, Nat.not_lt, Nat.pow_add] at hlength
    exact hlength

/-- A magnitude that 53 bits can hold. -/
def Representable (m : Nat) : Prop := ∃ a e, a < 2 ^ 53 ∧ m = a * 2 ^ e

theorem representable_of_lt {m : Nat} (h : m < 2 ^ 53) : Representable m :=
  ⟨m, 0, h, (Nat.mul_one m).symm⟩

theorem representable_mul_pow {a : Nat} (e : Nat) (h : a < 2 ^ 53) : Representable (a * 2 ^ e) :=
  ⟨a, e, h, rfl⟩

theorem representable_two_pow (e : Nat) : Representable (2 ^ e) :=
  ⟨1, e, by decide, (Nat.one_mul _).symm⟩

/-- What 53 bits can hold is a multiple of every step that is fine for its size. -/
theorem Representable.multiple {m s : Nat} (hm : Representable m) (h : 2 ^ 52 * 2 ^ s ≤ m) :
    ∃ c, m = c * 2 ^ s := by
  obtain ⟨a, e, ha, rfl⟩ := hm
  have hse : s ≤ e := by
    apply Nat.le_of_not_lt
    intro hes
    have hpow : 2 ^ (e + 1) ≤ 2 ^ s := Nat.pow_le_pow_right (by decide) hes
    have hlt : a * 2 ^ e < 2 ^ 53 * 2 ^ e := Nat.mul_lt_mul_of_pos_right ha (Nat.two_pow_pos e)
    rw [Nat.pow_succ] at hpow
    omega
  refine ⟨a * 2 ^ (e - s), ?_⟩
  rw [Nat.mul_assoc, ← Nat.pow_add, Nat.sub_add_cancel hse]

theorem rounded_of_stepOf_eq_one {n : Nat} (h : stepOf n = 1) : rounded n = n := by
  unfold rounded
  rw [h, Nat.mul_one]
  exact Nat.le_antisymm (roundDiv_le Nat.one_pos (by omega)) (le_roundDiv Nat.one_pos (by omega))

theorem representable_rounded (n : Nat) : Representable (rounded n) := by
  have hle : roundDiv n (stepOf n) ≤ 2 ^ 53 :=
    roundDiv_le (stepOf_pos n) (Nat.le_of_lt (lt_stepOf n))
  rcases Nat.lt_or_eq_of_le hle with hlt | heq
  · exact representable_mul_pow _ hlt
  · refine ⟨2 ^ 52, bitLength n - 53 + 1, by decide, ?_⟩
    unfold rounded
    rw [heq, Nat.pow_succ _ (bitLength n - 53)]
    show 2 ^ 53 * 2 ^ (bitLength n - 53) = _
    omega

theorem le_rounded {m n : Nat} (hm : Representable m) (h : m ≤ n) : m ≤ rounded n := by
  rcases stepOf_eq_one_or_le n with hone | hlarge
  · rw [rounded_of_stepOf_eq_one hone]
    exact h
  · by_cases hsmall : 2 ^ 52 * stepOf n ≤ m
    · obtain ⟨c, hc⟩ := hm.multiple hsmall
      have hcn : c * stepOf n ≤ n := hc ▸ h
      rw [hc]
      exact Nat.mul_le_mul_right _ (le_roundDiv (stepOf_pos n) hcn)
    · calc m ≤ 2 ^ 52 * stepOf n := by omega
        _ ≤ rounded n := Nat.mul_le_mul_right _ (le_roundDiv (stepOf_pos n) hlarge)

theorem rounded_le {m n : Nat} (hm : Representable m) (h : n ≤ m) : rounded n ≤ m := by
  rcases stepOf_eq_one_or_le n with hone | hlarge
  · rw [rounded_of_stepOf_eq_one hone]
    exact h
  · obtain ⟨c, hc⟩ := hm.multiple (Nat.le_trans hlarge h)
    have hnc : n ≤ c * stepOf n := hc ▸ h
    rw [hc]
    exact Nat.mul_le_mul_right _ (roundDiv_le (stepOf_pos n) hnc)

/-- Half a step above the largest magnitude of so many bits, rounding does not yet need
another bit. -/
theorem rounded_lt {n e : Nat} (h : 2 * n < (2 * (2 ^ 53 - 1) + 1) * 2 ^ e) :
    rounded n < 2 ^ (53 + e) := by
  by_cases hlength : bitLength n ≤ 52 + e
  · calc rounded n ≤ 2 ^ (52 + e) :=
          rounded_le (representable_two_pow _) (Nat.le_of_lt (bitLength_le_iff.mp hlength))
      _ < 2 ^ (53 + e) := Nat.pow_lt_pow_right (by decide) (by omega)
  · have hn : n < 2 ^ (53 + e) := by
      rw [Nat.pow_add]
      omega
    have hstep : bitLength n - 53 = e := by
      have := bitLength_le_iff.mpr hn
      omega
    unfold rounded stepOf
    rw [hstep, Nat.pow_add]
    exact Nat.mul_lt_mul_of_pos_right
      (Nat.lt_of_le_of_lt (roundDiv_le_of_lt h) (by decide)) (Nat.two_pow_pos e)

/-- The largest magnitude that 53 bits can hold below a power of two. -/
theorem Representable.le_of_lt {m e : Nat} (hm : Representable m) (h : m < 2 ^ (53 + e)) :
    m ≤ (2 ^ 53 - 1) * 2 ^ e := by
  rw [Nat.pow_add] at h
  by_cases hsmall : 2 ^ 52 * 2 ^ e ≤ m
  · obtain ⟨c, rfl⟩ := hm.multiple hsmall
    have hc : c < 2 ^ 53 := Nat.lt_of_mul_lt_mul_right h
    exact Nat.mul_le_mul_right _ (by omega)
  · omega

/-! ## Whole counts of units -/

/-- The largest doubles are multiples of two to this power. -/
def topShift : Nat := 2045

theorem bits_largest : 53 + topShift = 2098 := rfl

/-- The double nearest to a whole count of units. -/
def nearest (k : Int) : Double := ofUnits (k < 0) k.natAbs 1

/-- The units that a finite double counts. -/
def amount : Double → Int
  | units k => k
  | _ => 0

/-- The units of a double are such that a double can hold them: rounding does not change
them. -/
def IsRounded (d : Double) : Prop := ∀ k, d = units k → nearest k = units k

theorem ofMagnitude_ne_nan (negative : Bool) (n : Nat) : ofMagnitude negative n ≠ nan := by
  unfold ofMagnitude
  split
  · split <;> exact nofun
  · split <;> exact nofun

theorem ofUnits_ne_nan (negative : Bool) (n d : Nat) : ofUnits negative n d ≠ nan :=
  ofMagnitude_ne_nan _ _

theorem nearest_eq (k : Int) : nearest k = ofMagnitude (k < 0) (rounded k.natAbs) :=
  ofUnits_one _ _

/-- A magnitude below the largest power of two is that of a finite double. -/
theorem ofMagnitude_of_lt {negative : Bool} {n : Nat} (h : n < 2 ^ (53 + topShift)) :
    (ofMagnitude negative n).isFinite = true ∧
      (ofMagnitude negative n).amount = if negative then -(n : Int) else n := by
  have hlength : ¬bitLength n > 2098 := by
    rw [← bits_largest, Nat.not_lt]
    exact bitLength_le_iff.mpr h
  unfold ofMagnitude
  rw [if_neg hlength]
  split
  · next hzero =>
    rw [hzero]
    cases negative <;> exact ⟨rfl, rfl⟩
  · exact ⟨rfl, rfl⟩

theorem lt_of_isFinite_ofMagnitude {negative : Bool} {n : Nat}
    (h : (ofMagnitude negative n).isFinite = true) : n < 2 ^ (53 + topShift) := by
  unfold ofMagnitude at h
  split at h
  · next hzero =>
    rw [hzero]
    exact Nat.two_pow_pos _
  · split at h
    · cases h
    · next hlength => exact bitLength_le_iff.mp (Nat.not_lt.mp hlength)

theorem isFinite_nearest_iff {k : Int} :
    (nearest k).isFinite = true ↔ rounded k.natAbs < 2 ^ (53 + topShift) := by
  rw [nearest_eq]
  exact ⟨lt_of_isFinite_ofMagnitude, fun h => (ofMagnitude_of_lt h).1⟩

theorem amount_nearest {k : Int} (h : (nearest k).isFinite = true) :
    (nearest k).amount = if k < 0 then -(rounded k.natAbs : Int) else rounded k.natAbs := by
  rw [nearest_eq, (ofMagnitude_of_lt (isFinite_nearest_iff.mp h)).2]
  by_cases hneg : k < 0
  · rw [if_pos hneg, if_pos (decide_eq_true hneg)]
  · rw [if_neg hneg, if_neg (by simpa using hneg)]

/-- Rounding does not pass what a double can hold on its way down. -/
theorem le_nearest {m k : Int} (hm : Representable m.natAbs) (h : m ≤ k)
    (hfinite : (nearest k).isFinite = true) : m ≤ (nearest k).amount := by
  rw [amount_nearest hfinite]
  split
  · have := rounded_le hm (n := k.natAbs) (by omega)
    omega
  · by_cases hneg : m ≤ 0
    · omega
    · have := le_rounded hm (n := k.natAbs) (by omega)
      omega

/-- Nor on its way up. -/
theorem nearest_le {m k : Int} (hm : Representable m.natAbs) (h : k ≤ m)
    (hfinite : (nearest k).isFinite = true) : (nearest k).amount ≤ m := by
  rw [amount_nearest hfinite]
  split
  · by_cases hneg : 0 ≤ m
    · omega
    · have := le_rounded hm (n := k.natAbs) (by omega)
      omega
  · have := rounded_le hm (n := k.natAbs) (by omega)
    omega

/-- Half a step above the largest double, rounding still gives a finite one. -/
theorem isFinite_nearest {k : Int} {x : Nat} (h : k.natAbs ≤ (2 ^ 53 - 1) * 2 ^ topShift + x)
    (hx : 2 * x < 2 ^ topShift) : (nearest k).isFinite = true := by
  refine isFinite_nearest_iff.mpr (rounded_lt ?_)
  omega

/-- What doubles hold, they hold exactly. -/
theorem nearest_of_representable {k : Int} (hk : Representable k.natAbs)
    (hfinite : (nearest k).isFinite = true) : (nearest k).amount = k :=
  Int.le_antisymm (nearest_le hk (Int.le_refl k) hfinite) (le_nearest hk (Int.le_refl k) hfinite)

/-! ## Doubles -/

section Doubles

variable {x y : Double}

/-- A finite double in its place: a count of units that 53 bits can hold. -/
structure Held (x : Double) : Prop where
  finite : x.isFinite = true
  representable : Representable x.amount.natAbs
  small : x.amount.natAbs ≤ (2 ^ 53 - 1) * 2 ^ topShift

theorem held_nearest {k : Int} (h : (nearest k).isFinite = true) : Held (nearest k) := by
  have hamount : (nearest k).amount.natAbs = rounded k.natAbs := by
    rw [amount_nearest h]
    split <;> omega
  exact ⟨h, hamount ▸ representable_rounded _,
    hamount ▸ (representable_rounded _).le_of_lt (isFinite_nearest_iff.mp h)⟩

theorem held_of_nearest (h : nearest x.amount = x) (hfinite : x.isFinite = true) : Held x := by
  rw [← h] at hfinite ⊢
  exact held_nearest hfinite

theorem IsRounded.held (h : x.IsRounded) (hfinite : x.isFinite = true) : Held x := by
  cases x with
  | nan => cases hfinite
  | infinite => cases hfinite
  | negZero => exact ⟨rfl, representable_of_lt (by decide), Nat.zero_le _⟩
  | units k =>
    rw [← h k rfl]
    exact held_nearest (by rw [h k rfl]; rfl)

theorem Held.nearest_finite (hx : Held x) : (nearest x.amount).isFinite = true :=
  isFinite_nearest (Nat.le_trans hx.small (Nat.le_add_right _ 0)) (Nat.two_pow_pos _)

theorem Held.nearest_amount (hx : Held x) : (nearest x.amount).amount = x.amount :=
  nearest_of_representable hx.representable hx.nearest_finite

theorem amount_neg (x : Double) : x.neg.amount = -x.amount := by
  cases x with
  | units k =>
    unfold Double.neg
    simp only
    split
    · next hzero =>
      subst hzero
      rfl
    · rfl
  | _ => rfl

theorem isFinite_neg (x : Double) : x.neg.isFinite = x.isFinite := by
  cases x with
  | units k =>
    unfold Double.neg
    simp only
    split <;> rfl
  | _ => rfl

theorem Held.neg (hx : Held x) : Held x.neg := by
  have habs : x.neg.amount.natAbs = x.amount.natAbs := by
    rw [amount_neg, Int.natAbs_neg]
  exact ⟨(isFinite_neg x).trans hx.finite, habs ▸ hx.representable, habs ▸ hx.small⟩

/-- A sum is the double nearest to the sum of the units, where that is finite. -/
theorem Held.add (hx : Held x) (hy : Held y)
    (hfinite : (nearest (x.amount + y.amount)).isFinite = true) :
    Held (x.add y) ∧ (x.add y).amount = (nearest (x.amount + y.amount)).amount := by
  cases x with
  | nan => cases hx.finite
  | infinite => cases hx.finite
  | negZero =>
    have hsum : negZero.add y = y := by
      cases y with
      | infinite => cases hy.finite
      | _ => rfl
    rw [hsum, show negZero.amount + y.amount = y.amount from Int.zero_add _]
    exact ⟨hy, hy.nearest_amount.symm⟩
  | units a =>
    cases y with
    | nan => cases hy.finite
    | infinite => cases hy.finite
    | negZero =>
      rw [show (units a).amount + negZero.amount = a from Int.add_zero _]
      exact ⟨hx, hx.nearest_amount.symm⟩
    | units b => exact ⟨held_nearest hfinite, rfl⟩

/-! ### No NaN -/

theorem scaled_ne_nan (hx : x.isFinite = true) (fraction : Nat) : x.scaled fraction ≠ nan := by
  cases x with
  | nan => cases hx
  | infinite => cases hx
  | negZero => exact nofun
  | units k => exact ofUnits_ne_nan _ _ _

theorem add_ne_nan (hx : x.isFinite = true) (hy : y ≠ nan) : x.add y ≠ nan := by
  cases x with
  | nan => cases hx
  | infinite => cases hx
  | negZero =>
    cases y with
    | nan => exact hy
    | _ => exact nofun
  | units a =>
    cases y with
    | nan => exact hy
    | infinite => exact nofun
    | negZero => exact nofun
    | units b => exact ofUnits_ne_nan _ _ _

theorem roundPlaces_ne_nan (hx : x ≠ nan) (places : Nat) : x.roundPlaces places ≠ nan := by
  cases x with
  | units k => exact ofUnits_ne_nan _ _ _
  | _ => exact hx

end Doubles

end Double
end Lineage
