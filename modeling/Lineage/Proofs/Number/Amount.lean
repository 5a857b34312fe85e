import Lineage.Proofs.Number.Rounding

/-
Finite numbers by the units they count.

An integer and a finite double have an amount in units, and comparing them is comparing
amounts.  Conversion to doubles, sums and differences are bounded in these terms, up to
the rounding, which never leads past what a double can hold.
-/

namespace Lineage
namespace Number

open Double (Representable nearest)

variable {a b n : Number}

/-- The units that a finite number counts. -/
def amount : Number → Int
  | int k => k * unitsPerOne
  | float d => d.amount

/-- A number whose units, if it is a double, are such that a double can hold them. -/
def IsRounded : Number → Prop
  | int _ => True
  | float d => d.IsRounded

/-- A finite number in its place. -/
def Held : Number → Prop
  | int _ => True
  | float d => d.Held

theorem IsRounded.held (h : n.IsRounded) (hfinite : n.isFinite = true) : n.Held := by
  cases n with
  | int k => exact trivial
  | float d => exact Double.IsRounded.held h hfinite

theorem Held.isFinite (h : n.Held) : n.isFinite = true := by
  cases n with
  | int k => rfl
  | float d => exact h.finite

/-! ## Order -/

theorem position_of_isFinite (h : n.isFinite = true) : n.position = some (0, n.amount) := by
  cases n with
  | int k => rfl
  | float d =>
    cases d with
    | nan => cases h
    | infinite => cases h
    | negZero => rfl
    | units k => rfl

theorem lt_iff_amount (ha : a.isFinite = true) (hb : b.isFinite = true) :
    a.lt b = true ↔ a.amount < b.amount := by
  unfold lt
  rw [position_of_isFinite ha, position_of_isFinite hb]
  simp

theorem lt_eq_false_iff_amount (ha : a.isFinite = true) (hb : b.isFinite = true) :
    a.lt b = false ↔ b.amount ≤ a.amount := by
  rw [← Bool.not_eq_true, lt_iff_amount ha hb, Int.not_lt]

theorem maxOf_eq (a b : Number) : a.maxOf b = a ∨ a.maxOf b = b := by
  unfold maxOf
  split
  · exact .inr rfl
  · exact .inl rfl

theorem minOf_eq (a b : Number) : a.minOf b = a ∨ a.minOf b = b := by
  unfold minOf
  split
  · exact .inr rfl
  · exact .inl rfl

theorem amount_maxOf (ha : a.isFinite = true) (hb : b.isFinite = true) :
    (a.maxOf b).amount = max a.amount b.amount := by
  unfold maxOf
  split
  · next h =>
    have := (lt_iff_amount ha hb).mp h
    omega
  · next h =>
    have := (lt_eq_false_iff_amount ha hb).mp (Bool.not_eq_true _ |>.mp h)
    omega

theorem amount_minOf (ha : a.isFinite = true) (hb : b.isFinite = true) :
    (a.minOf b).amount = min a.amount b.amount := by
  unfold minOf
  split
  · next h =>
    have := (lt_iff_amount hb ha).mp h
    omega
  · next h =>
    have := (lt_eq_false_iff_amount hb ha).mp (Bool.not_eq_true _ |>.mp h)
    omega

theorem Held.maxOf (ha : a.Held) (hb : b.Held) : (a.maxOf b).Held := by
  rcases maxOf_eq a b with h | h <;> rw [h] <;> assumption

theorem Held.minOf (ha : a.Held) (hb : b.Held) : (a.minOf b).Held := by
  rcases minOf_eq a b with h | h <;> rw [h] <;> assumption

/-! ## Whole numbers -/

theorem amount_int (k : Int) : (int k).amount = k * unitsPerOne := rfl

theorem amount_int_mono {i j : Int} (h : i ≤ j) : (int i).amount ≤ (int j).amount :=
  Int.mul_le_mul_of_nonneg_right h (Int.natCast_nonneg _)

theorem le_of_amount_int {i j : Int} (h : (int i).amount ≤ (int j).amount) : i ≤ j :=
  Int.le_of_mul_le_mul_right h (Int.natCast_pos.mpr unitsPerOne_pos)

theorem floor?_le {k : Int} (h : n.floor? = some k) : (int k).amount ≤ n.amount := by
  cases n with
  | int m =>
    cases h
    exact Int.le_refl _
  | float d =>
    cases d with
    | nan => cases h
    | infinite => cases h
    | negZero =>
      cases h
      exact Int.le_of_eq (Int.zero_mul _)
    | units m =>
      cases h
      show m.fdiv unitsPerOne * unitsPerOne ≤ m
      rw [Int.fdiv_eq_ediv_of_nonneg _ (Int.natCast_nonneg _)]
      exact Int.ediv_mul_le _ (Int.natCast_ne_zero.mpr (Nat.ne_of_gt unitsPerOne_pos))

theorem le_ceil? {k : Int} (h : n.ceil? = some k) : n.amount ≤ (int k).amount := by
  cases n with
  | int m =>
    cases h
    exact Int.le_refl _
  | float d =>
    obtain ⟨f, hf, rfl⟩ := Option.map_eq_some_iff.mp
      (show d.neg.floor?.map (fun n => -n) = some k from h)
    have hle : f * unitsPerOne ≤ d.neg.amount := floor?_le (n := float d.neg) hf
    rw [Double.amount_neg] at hle
    show d.amount ≤ -f * unitsPerOne
    rw [Int.neg_mul]
    omega

/-! ## Sums and differences -/

theorem eq_of_add? {c : Number} (h : a.add? b = some c) :
    (∃ i j, a = int i ∧ b = int j ∧ c = int (i + j)) ∨
      ∃ x y, a.toDouble? = some x ∧ b.toDouble? = some y ∧ c = float (x.add y) := by
  unfold add? at h
  split at h
  · exact .inl ⟨_, _, rfl, rfl, (Option.some.inj h).symm⟩
  · obtain ⟨x, hx, h⟩ := Option.bind_eq_some_iff.mp h
    obtain ⟨y, hy, h⟩ := Option.bind_eq_some_iff.mp h
    exact .inr ⟨x, y, hx, hy, (Option.some.inj h).symm⟩

theorem eq_of_sub? {c : Number} (h : a.sub? b = some c) :
    (∃ i j, a = int i ∧ b = int j ∧ c = int (i - j)) ∨
      ∃ x y, a.toDouble? = some x ∧ b.toDouble? = some y ∧ c = float (x.add y.neg) := by
  unfold sub? at h
  split at h
  · exact .inl ⟨_, _, rfl, rfl, (Option.some.inj h).symm⟩
  · obtain ⟨x, hx, h⟩ := Option.bind_eq_some_iff.mp h
    obtain ⟨y, hy, h⟩ := Option.bind_eq_some_iff.mp h
    exact .inr ⟨x, y, hx, hy, (Option.some.inj h).symm⟩

theorem natAbs_units (k : Int) : (k * (unitsPerOne : Int)).natAbs = k.natAbs * unitsPerOne := by
  rw [Int.natAbs_mul, Int.natAbs_natCast]

/-- The number one is two to this power. -/
def oneShift : Nat := 1074

theorem unitsPerOne_eq : unitsPerOne = 2 ^ oneShift := by
  unfold unitsPerOne oneShift
  generalize 1074 = exponent
  rfl

theorem representable_int {k : Int} (h : k.natAbs < 2 ^ 53) :
    Representable (int k).amount.natAbs := by
  show Representable (k * (unitsPerOne : Int)).natAbs
  rw [natAbs_units, unitsPerOne_eq]
  exact Double.representable_mul_pow oneShift h

/-- Integers of 53 bits are far below the step of the largest doubles. -/
theorem two_mul_units_lt {k : Nat} (h : k < 2 ^ 53) :
    2 * (k * unitsPerOne) < 2 ^ Double.topShift := by
  have hpow : 2 ^ (54 + oneShift) ≤ 2 ^ Double.topShift :=
    Nat.pow_le_pow_right (by decide) (by decide)
  have hlt : k * 2 ^ oneShift < 2 ^ 53 * 2 ^ oneShift :=
    Nat.mul_lt_mul_of_pos_right h (Nat.two_pow_pos oneShift)
  rw [Nat.pow_add] at hpow
  rw [unitsPerOne_eq]
  omega

theorem ofUnits_int (k : Int) :
    Double.ofUnits (k < 0) (k.natAbs * unitsPerOne) 1 = nearest (int k).amount := by
  have hunits : (0 : Int) < unitsPerOne := Int.natCast_pos.mpr unitsPerOne_pos
  have hsign : decide (k * (unitsPerOne : Int) < 0) = decide (k < 0) := by
    refine decide_eq_decide.mpr ?_
    rw [Int.mul_neg_iff]
    omega
  rw [← natAbs_units, ← hsign, amount_int, nearest]

/-- A double that stands for an integer is the one nearest to it. -/
theorem nearest_of_ofInt? {k : Int} {x : Double} (h : Double.ofInt? k = some x) :
    nearest (int k).amount = x ∧ x.isFinite = true := by
  have hnan : nearest (int k).amount ≠ .nan := Double.ofUnits_ne_nan _ _ _
  rw [Double.ofInt?, ofUnits_int] at h
  generalize nearest (int k).amount = d at h hnan ⊢
  cases d with
  | nan => exact absurd rfl hnan
  | infinite => cases h
  | negZero => exact ⟨Option.some.inj h, Option.some.inj h ▸ rfl⟩
  | units m => exact ⟨Option.some.inj h, Option.some.inj h ▸ rfl⟩

/-- What a number is as a double: it is held, and no representable count of units lies
between the two. -/
structure AsDouble (n : Number) (x : Double) : Prop where
  held : x.Held
  ge {m : Int} (hm : Representable m.natAbs) (h : m ≤ n.amount) : m ≤ x.amount
  le {m : Int} (hm : Representable m.natAbs) (h : n.amount ≤ m) : x.amount ≤ m

theorem Held.asDouble {x : Double} (hn : n.Held) (h : n.toDouble? = some x) : AsDouble n x := by
  cases n with
  | int k =>
    obtain ⟨rfl, hfinite⟩ := nearest_of_ofInt? h
    exact ⟨Double.held_nearest hfinite, fun hm hle => Double.le_nearest hm hle hfinite,
      fun hm hle => Double.nearest_le hm hle hfinite⟩
  | float d =>
    obtain rfl := Option.some.inj h
    exact ⟨hn, fun _ h => h, fun _ h => h⟩

/-- A small integer added to a number: the sum is finite, and rounding does not lead to the
other side of the number. -/
theorem Held.addInt {k : Int} {m : Number} (hn : n.Held) (hk : k.natAbs < 2 ^ 53)
    (h : n.add? (int k) = some m) :
    m.Held ∧ (0 ≤ k → n.amount ≤ m.amount) ∧ (k ≤ 0 → m.amount ≤ n.amount) := by
  have hsign : (0 ≤ k → 0 ≤ (int k).amount) ∧ (k ≤ 0 → (int k).amount ≤ 0) :=
    ⟨fun h => Int.mul_nonneg h (Int.natCast_nonneg _),
      fun h => Int.mul_nonpos_of_nonpos_of_nonneg h (Int.natCast_nonneg _)⟩
  cases n with
  | int i =>
    obtain rfl := Option.some.inj h
    have hsum : (int (i + k)).amount = (int i).amount + (int k).amount := Int.add_mul _ _ _
    refine ⟨trivial, fun hpos => ?_, fun hneg => ?_⟩
    · have := hsign.1 hpos
      omega
    · have := hsign.2 hneg
      omega
  | float d =>
    rcases eq_of_add? h with ⟨i, j, hd, -, -⟩ | ⟨x, y, hx, hy, rfl⟩
    · cases hd
    · obtain rfl := Option.some.inj hx
      have hky := Held.asDouble (n := int k) trivial hy
      have hexact : y.amount = (int k).amount :=
        Int.le_antisymm (hky.le (representable_int hk) (Int.le_refl _))
          (hky.ge (representable_int hk) (Int.le_refl _))
      have hfinite : (nearest (d.amount + y.amount)).isFinite = true := by
        refine Double.isFinite_nearest (x := k.natAbs * unitsPerOne) ?_ (two_mul_units_lt hk)
        have hsmall := Double.Held.small hn
        have hunits : y.amount.natAbs = k.natAbs * unitsPerOne := by
          rw [hexact]
          exact natAbs_units k
        omega
      obtain ⟨hheld, hamount⟩ := Double.Held.add hn hky.held hfinite
      have hrepresentable := Double.Held.representable hn
      refine ⟨hheld, fun hpos => ?_, fun hneg => ?_⟩
      · have := hsign.1 hpos
        have hle : d.amount ≤ (nearest (d.amount + y.amount)).amount :=
          Double.le_nearest hrepresentable (by omega) hfinite
        exact Int.le_trans hle (Int.le_of_eq hamount.symm)
      · have := hsign.2 hneg
        have hle : (nearest (d.amount + y.amount)).amount ≤ d.amount :=
          Double.nearest_le hrepresentable (by omega) hfinite
        exact Int.le_trans (Int.le_of_eq hamount) hle

/-- Two numbers on one side of a small integer: both from zero on, or both up to it. -/
def OneSided (limit : Int) (a b : Number) : Prop :=
  (0 ≤ a.amount ∧ 0 ≤ b.amount) ∨
    (a.amount ≤ (int limit).amount ∧ b.amount ≤ (int limit).amount)

/-- The difference of two numbers on one side of a small integer is finite as a double. -/
theorem finite_sub? {limit : Int} {w : Number} {x : Double} (ha : a.Held) (hb : b.Held)
    (hlimit : limit.natAbs < 2 ^ 53) (hside : OneSided limit a b) (hw : a.sub? b = some w)
    (hx : w.toDouble? = some x) : x.isFinite = true := by
  rcases eq_of_sub? hw with ⟨i, j, -, -, rfl⟩ | ⟨y, z, hy, hz, rfl⟩
  · exact (nearest_of_ofInt? hx).2
  · obtain rfl := Option.some.inj hx
    have hay := ha.asDouble hy
    have hbz := hb.asDouble hz
    have hzero : Representable (0 : Int).natAbs := Double.representable_of_lt (by decide)
    have hlarge := representable_int hlimit
    have hunits : (int limit).amount.natAbs = limit.natAbs * unitsPerOne := natAbs_units limit
    have hysmall := hay.held.small
    have hzsmall := hbz.held.small
    have hfinite : (nearest (y.amount + z.neg.amount)).isFinite = true := by
      refine Double.isFinite_nearest (x := limit.natAbs * unitsPerOne) ?_
        (two_mul_units_lt hlimit)
      rw [Double.amount_neg]
      rcases hside with ⟨ha, hb⟩ | ⟨ha, hb⟩
      · have := hay.ge hzero ha
        have := hbz.ge hzero hb
        omega
      · have := hay.le hlarge ha
        have := hbz.le hlarge hb
        omega
    exact (hay.held.add hbz.held.neg hfinite).1.finite

end Number
end Lineage
