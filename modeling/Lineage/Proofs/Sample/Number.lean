import Lineage.Proofs.Field.Constructed
import Lineage.Proofs.Sample.Draw

/-
Generated numbers lie within their bounds.

The range that a name suggests is cut to the bounds, and where nothing is left the
bounds count alone.  Either way the range that is drawn from lies within the bounds, its
ends are in order, and both are on one side of 2030, so that a fraction of the way
between them is a number.
-/

namespace Lineage
namespace Sample

open Number (OneSided)
open Validation (below above)

variable {σ : Type}

/-! ## Ranges by name -/

/-- The last year that a name suggests, the largest of all ends. -/
def furthest : Int := 2030

structure Telling (r : NumberRange) : Prop where
  low : r.low.Held
  high : r.high.Held
  positive : 0 ≤ r.low.amount
  ordered : r.low.amount ≤ r.high.amount
  limited : r.high.amount ≤ (Number.int furthest).amount

theorem telling_ints {i j : Int} {whole : Bool} (hi : 0 ≤ i) (hij : i ≤ j) (hj : j ≤ furthest) :
    Telling ⟨.int i, .int j, whole⟩ where
  low := trivial
  high := trivial
  positive := Int.mul_nonneg hi (Int.natCast_nonneg _)
  ordered := Number.amount_int_mono hij
  limited := Number.amount_int_mono hj

theorem telling_prices :
    Telling ⟨.float (Double.ofDecimal false 1 0), .float (Double.ofDecimal false 99999 (-2)),
      false⟩ where
  low := Double.held_of_nearest (by decide +kernel) (by decide +kernel)
  high := Double.held_of_nearest (by decide +kernel) (by decide +kernel)
  positive := by decide +kernel
  ordered := by decide +kernel
  limited := by decide +kernel

theorem telling_rangeFor (name : Option String) : Telling (rangeFor name) := by
  have htable : ∀ row ∈ rangesByName, Telling row.2 := by
    unfold rangesByName
    simp only [List.forall_mem_cons]
    exact ⟨telling_ints (by decide) (by decide) (by decide), telling_prices,
      telling_ints (by decide) (by decide) (by decide),
      telling_ints (by decide) (by decide) (by decide),
      telling_ints (by decide) (by decide) (by decide), List.forall_mem_nil _⟩
  unfold rangeFor
  simp only
  cases hrow : rangesByName.find? _ with
  | none => exact telling_ints (by decide) (by decide) (by decide)
  | some row => exact htable row (List.mem_of_find?_eq_some hrow)

/-! ## Ranges cut to bounds -/

/-- Bounds that are finite numbers in their places. -/
def HeldBound (bound : Option Number) : Prop := ∀ n, bound = some n → n.Held

/-- A range to draw from that lies within bounds. -/
structure Bounded (min max : Option Number) (low high : Number) : Prop where
  lowHeld : low.Held
  highHeld : high.Held
  ordered : low.amount ≤ high.amount
  min_le : ∀ n, min = some n → n.amount ≤ low.amount
  le_max : ∀ n, max = some n → high.amount ≤ n.amount
  side : OneSided furthest high low

section Ranges

variable {min max : Option Number} {r : NumberRange} {low high : Number}

theorem addInt_eq_ok {n m : Number} {k : Int} (h : addInt n k = .ok m) :
    n.add? (.int k) = some m := by
  unfold addInt at h
  split at h
  · next hsum =>
    cases h
    exact hsum
  · cases h

theorem raised_amount (hlow : low.Held) (hmin : HeldBound min) :
    (raised low min).Held ∧ low.amount ≤ (raised low min).amount ∧
      (∀ n, min = some n → n.amount ≤ (raised low min).amount) ∧
      ((raised low min).amount ≤ low.amount ∨
        ∃ n, min = some n ∧ (raised low min).amount = n.amount) := by
  cases min with
  | none => exact ⟨hlow, Int.le_refl _, nofun, .inl (Int.le_refl _)⟩
  | some a =>
    have ha := hmin a rfl
    have hmax : (raised low (some a)).amount = max low.amount a.amount :=
      Number.amount_maxOf hlow.isFinite ha.isFinite
    refine ⟨hlow.maxOf ha, by omega, ?_, ?_⟩
    · rintro _ ⟨⟩
      omega
    · rcases Int.le_total a.amount low.amount with hle | hle
      · exact .inl (by omega)
      · exact .inr ⟨a, rfl, by omega⟩

theorem capped_amount (hhigh : high.Held) (hmax : HeldBound max) :
    (capped high max).Held ∧ (capped high max).amount ≤ high.amount ∧
      (∀ n, max = some n → (capped high max).amount ≤ n.amount) ∧
      (high.amount ≤ (capped high max).amount ∨
        ∃ n, max = some n ∧ (capped high max).amount = n.amount) := by
  cases max with
  | none => exact ⟨hhigh, Int.le_refl _, nofun, .inl (Int.le_refl _)⟩
  | some b =>
    have hb := hmax b rfl
    have hmin : (capped high (some b)).amount = Min.min high.amount b.amount :=
      Number.amount_minOf hhigh.isFinite hb.isFinite
    refine ⟨hhigh.minOf hb, by omega, ?_, ?_⟩
    · rintro _ ⟨⟩
      omega
    · rcases Int.le_total b.amount high.amount with hle | hle
      · exact .inr ⟨b, rfl, by omega⟩
      · exact .inl (by omega)

theorem ordered_amount (hordered : Field.BoundsOrdered min max) (hmin : HeldBound min)
    (hmax : HeldBound max) {a b : Number} (ha : min = some a) (hb : max = some b) :
    a.amount ≤ b.amount :=
  (Number.lt_eq_false_iff_amount (hmax b hb).isFinite (hmin a ha).isFinite).mp
    (hordered a b ha hb)

/-- A lower bound alone, from zero on. -/
theorem bounded_of_lower {a : Number} (hordered : Field.BoundsOrdered (some a) max)
    (hmin : HeldBound (some a)) (hmax : HeldBound max) (hpositive : 0 ≤ a.amount)
    (h : upperOr max a = .ok high) : Bounded (some a) max a high := by
  have ha := hmin a rfl
  have hself : ∀ n, some a = some n → n.amount ≤ a.amount := by
    rintro _ ⟨⟩
    exact Int.le_refl _
  cases max with
  | none =>
    obtain ⟨hheld, hle, -⟩ := ha.addInt (by decide) (addInt_eq_ok h)
    have hle := hle (by decide)
    exact ⟨ha, hheld, hle, hself, nofun, .inl ⟨by omega, hpositive⟩⟩
  | some b =>
    cases h
    have hle := ordered_amount hordered hmin hmax rfl rfl
    refine ⟨ha, hmax _ rfl, hle, hself, ?_, .inl ⟨by omega, hpositive⟩⟩
    rintro _ ⟨⟩
    exact Int.le_refl _

/-- An upper bound alone, up to the furthest end; `top` has its place. -/
theorem bounded_of_upper {b top : Number} (hordered : Field.BoundsOrdered min (some b))
    (hmin : HeldBound min) (hmax : HeldBound (some b)) (htop : top.Held)
    (hle : top.amount ≤ b.amount) (hlimit : b.amount ≤ (Number.int furthest).amount)
    (h : lowerOr min top = .ok low) : Bounded min (some b) low b := by
  have hb := hmax b rfl
  have hself : ∀ n, some b = some n → b.amount ≤ n.amount := by
    rintro _ ⟨⟩
    exact Int.le_refl _
  cases min with
  | none =>
    obtain ⟨hheld, -, hbelow⟩ := htop.addInt (by decide) (addInt_eq_ok h)
    have hbelow := hbelow (by decide)
    exact ⟨hheld, hb, by omega, nofun, hself, .inr ⟨hlimit, by omega⟩⟩
  | some a =>
    cases h
    have hle := ordered_amount hordered hmin hmax rfl rfl
    refine ⟨hmin _ rfl, hb, hle, ?_, hself, .inr ⟨hlimit, by omega⟩⟩
    rintro _ ⟨⟩
    exact Int.le_refl _

theorem bounded_narrowed (hr : Telling r) (hordered : Field.BoundsOrdered min max)
    (hmin : HeldBound min) (hmax : HeldBound max) (h : narrowed r min max = .ok (low, high)) :
    Bounded min max low high := by
  obtain ⟨hrlow, hrhigh, hpositive, hrange, hlimit⟩ := hr
  obtain ⟨hlowHeld, hlow, habove, hraised⟩ := raised_amount hrlow hmin
  obtain ⟨hhighHeld, hhigh, hbelow, hcapped⟩ := capped_amount hrhigh hmax
  unfold narrowed at h
  simp only [Number.lt_iff_amount hhighHeld.isFinite hlowHeld.isFinite] at h
  split at h
  · next hcrossed =>
    obtain ⟨low', hlow', h⟩ := Outcome.bind_eq_ok.mp h
    obtain ⟨high', hhigh', h⟩ := Outcome.bind_eq_ok.mp h
    cases h
    -- The ends of the range have crossed: one of the bounds lies outside of it.
    rcases hraised with hraised | ⟨a, rfl, ha⟩
    · obtain ⟨b, rfl, hb⟩ : ∃ n, max = some n ∧ (capped r.high max).amount = n.amount :=
        hcapped.resolve_left fun hle => by omega
      cases hhigh'
      exact bounded_of_upper hordered hmin hmax hhighHeld (by omega) (by omega) hlow'
    · cases hlow'
      exact bounded_of_lower hordered hmin hmax (by omega) hhigh'
  · next hcrossed =>
    cases h
    exact ⟨hlowHeld, hhighHeld, by omega, habove, hbelow, .inl ⟨by omega, by omega⟩⟩

/-! ## Numbers from a range -/

/-- Validation finds such a number within bounds, and whole if it has to be. -/
structure Fits (min max : Option Number) (integral : Bool) (n : Number) : Prop where
  finite : n.isFinite = true
  whole : integral = true → n.isIntegral = true
  notBelow : below n min = false
  notAbove : above n max = false

theorem Bounded.fits {integral : Bool} {n : Number} (h : Bounded min max low high)
    (hmin : HeldBound min) (hmax : HeldBound max) (hfinite : n.isFinite = true)
    (hwhole : integral = true → n.isIntegral = true) (hlow : low.amount ≤ n.amount)
    (hhigh : n.amount ≤ high.amount) : Fits min max integral n where
  finite := hfinite
  whole := hwhole
  notBelow := by
    cases min with
    | none => rfl
    | some a =>
      have := h.min_le a rfl
      exact (Number.lt_eq_false_iff_amount hfinite (hmin a rfl).isFinite).mpr (by omega)
  notAbove := by
    cases max with
    | none => rfl
    | some b =>
      have := h.le_max b rfl
      exact (Number.lt_eq_false_iff_amount (hmax b rfl).isFinite hfinite).mpr (by omega)

theorem moved_finite {n : Number} (hn : n.isFinite = true) (hlow : low.isFinite = true)
    (hhigh : high.isFinite = true) (hle : low.amount ≤ high.amount) :
    ((n.maxOf low).minOf high).isFinite = true ∧
      low.amount ≤ ((n.maxOf low).minOf high).amount ∧
        ((n.maxOf low).minOf high).amount ≤ high.amount := by
  have hmax := Number.amount_maxOf hn hlow
  have hmaxFinite : (n.maxOf low).isFinite = true := by
    rcases Number.maxOf_eq n low with h | h <;> rw [h] <;> assumption
  have hmin := Number.amount_minOf hmaxFinite hhigh
  refine ⟨?_, by omega, by omega⟩
  rcases Number.minOf_eq (n.maxOf low) high with h | h <;> rw [h] <;> assumption

/-- Anything but NaN can be moved into a range; an infinity is moved to an end of it. -/
theorem moved_between {d : Double} (hd : d ≠ .nan) (hlow : low.isFinite = true)
    (hhigh : high.isFinite = true) (hle : low.amount ≤ high.amount) :
    let n := ((Number.float d).maxOf low).minOf high
    n.isFinite = true ∧ low.amount ≤ n.amount ∧ n.amount ≤ high.amount := by
  have hself : low.minOf high = low := by
    unfold Number.minOf
    rw [(Number.lt_eq_false_iff_amount hhigh hlow).mpr hle]
    rfl
  cases d with
  | nan => exact absurd rfl hd
  | infinite negative =>
    cases negative with
    | true =>
      have hmax : (Number.float (.infinite true)).maxOf low = low := by
        unfold Number.maxOf Number.lt
        rw [Number.position_of_isFinite hlow]
        rfl
      simp only [hmax, hself]
      exact ⟨hlow, Int.le_refl _, hle⟩
    | false =>
      have hmax : (Number.float (.infinite false)).maxOf low = .float (.infinite false) := by
        unfold Number.maxOf Number.lt
        rw [Number.position_of_isFinite hlow]
        rfl
      have hmin : (Number.float (.infinite false)).minOf high = high := by
        unfold Number.minOf Number.lt
        rw [Number.position_of_isFinite hhigh]
        rfl
      simp only [hmax, hmin]
      exact ⟨hhigh, hle, Int.le_refl _⟩
  | negZero => exact moved_finite rfl hlow hhigh hle
  | units k => exact moved_finite rfl hlow hhigh hle

/-! ## The generator -/

section Generator

variable (src : Source σ)

theorem yields_fractional (hmin : HeldBound min) (hmax : HeldBound max)
    (h : Bounded min max low high) :
    Yields (fractional src low high) fun v => ∃ n, v = .number n ∧ Fits min max false n := by
  refine Yields.bind (yields_drawUniform src h.lowHeld h.highHeld (by decide) h.side)
    fun d hd => yields_pure ⟨_, rfl, ?_⟩
  obtain ⟨hfinite, hge, hle⟩ := moved_between (Double.roundPlaces_ne_nan hd 2)
    h.lowHeld.isFinite h.highHeld.isFinite h.ordered
  exact h.fits hmin hmax hfinite nofun hge hle

theorem wholeBound_eq_ok {n : Number} {rounded : Option Int} {k : Int}
    (h : wholeBound n rounded = .ok k) : rounded = some k := by
  unfold wholeBound at h
  split at h
  · cases h
    rfl
  · split at h <;> cases h

/-- A generated number lies within its bounds, and is whole if it has to be. -/
theorem yields_drawNumber (hordered : Field.BoundsOrdered min max) (hmin : HeldBound min)
    (hmax : HeldBound max) (integral : Bool) (name : Option String) :
    Yields (drawNumber src min max integral name) fun v =>
      ∃ n, v = .number n ∧ Fits min max integral n := by
  unfold drawNumber
  refine Yields.bind (yields_lift fun _ h => h) ?_
  rintro ⟨low, high⟩ hrange
  have hbounded := bounded_narrowed (telling_rangeFor name) hordered hmin hmax hrange
  have hfraction : integral ≠ true → Yields (fractional src low high) fun v =>
      ∃ n, v = .number n ∧ Fits min max integral n := by
    intro hintegral
    rw [Bool.not_eq_true _ |>.mp hintegral]
    exact yields_fractional src hmin hmax hbounded
  simp only
  refine yields_ite (fun hwhole => ?_) fun hwhole => hfraction ?_
  · refine Yields.bind (yields_lift fun _ h => h) fun first hfirst => ?_
    refine Yields.bind (yields_lift fun _ h => h) fun last hlast => ?_
    refine yields_ite (fun _ => ?_) fun _ => yields_ite (fun _ => yields_throw) hfraction
    refine (yields_drawBetween src first last).bind fun k hk => yields_pure ⟨.int k, rfl, ?_⟩
    have hceil := Number.le_ceil? (wholeBound_eq_ok hfirst)
    have hfloor := Number.floor?_le (wholeBound_eq_ok hlast)
    have hlow := Number.amount_int_mono hk.1
    have hhigh := Number.amount_int_mono hk.2
    exact hbounded.fits hmin hmax rfl (fun _ => rfl) (by omega) (by omega)
  · intro hintegral
    rw [hintegral, Bool.or_true] at hwhole
    exact hwhole rfl

/-! ## Counts of items -/

/-- What is taken for a whole count is one. -/
theorem wholeCount_eq_ok {n : Number} {k : Int} (h : wholeCount n = .ok k) :
    n.isFinite = true ∧ n.amount = (Number.int k).amount := by
  obtain ⟨m, hm, h⟩ := Outcome.bind_eq_ok.mp h
  have hfloor := wholeBound_eq_ok hm
  split at h
  · next hintegral =>
    cases h
    cases n with
    | int i =>
      cases hfloor
      exact ⟨rfl, rfl⟩
    | float d =>
      cases d with
      | nan => cases hfloor
      | infinite => cases hfloor
      | negZero =>
        cases hfloor
        exact ⟨rfl, (Int.zero_mul _).symm⟩
      | units i =>
        cases hfloor
        refine ⟨rfl, ?_⟩
        show i = i.fdiv unitsPerOne * unitsPerOne
        rw [Int.fdiv_eq_ediv_of_nonneg _ (Int.natCast_nonneg _)]
        exact (Int.ediv_mul_cancel (Int.dvd_of_emod_eq_zero (of_decide_eq_true hintegral))).symm
  · cases h

/-- A generated count of items lies within its bounds. -/
theorem yields_itemCount (hcount : Field.CountBounds min max) (hmax : Field.FiniteBound max) :
    Yields (itemCount src min max) fun n =>
      min.isSome = true ∧ below (Validation.count n) min = false ∧
        above (Validation.count n) max = false := by
  cases min with
  | none => exact yields_throw
  | some least =>
    refine Yields.bind (yields_lift fun _ h => h) fun most hmost => ?_
    refine Yields.bind (yields_lift fun _ h => h) fun first hfirst => ?_
    refine Yields.bind (yields_lift fun _ h => h) fun last hlast => ?_
    refine (yields_drawBetween src first last).bind fun k hk => yields_pure ⟨rfl, ?_⟩
    obtain ⟨hleast, hfirst⟩ := wholeCount_eq_ok hfirst
    obtain ⟨-, hlast⟩ := wholeCount_eq_ok hlast
    have hzero : (0 : Int) ≤ first := by
      have h := (Number.lt_eq_false_iff_amount hleast rfl).mp (hcount.low least rfl)
      exact Number.le_of_amount_int (hfirst ▸ h)
    have hk' : Validation.count k.toNat = .int k := by
      rw [Validation.count, Int.toNat_of_nonneg (by omega)]
    rw [hk']
    have hlow := Number.amount_int_mono hk.1
    have hhigh := Number.amount_int_mono hk.2
    refine ⟨(Number.lt_eq_false_iff_amount rfl hleast).mpr (by omega), ?_⟩
    cases max with
    | none => rfl
    | some _ =>
      cases hmost
      have hmost := hmax most rfl
      have hordered := (Number.lt_eq_false_iff_amount hmost hleast).mp (hcount.ordered _ _ rfl rfl)
      have hlarger := Number.amount_maxOf hleast hmost
      exact (Number.lt_eq_false_iff_amount hmost rfl).mpr (by omega)

end Generator

end Ranges

end Sample
end Lineage
