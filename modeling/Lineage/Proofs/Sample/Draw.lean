import Lineage.Sample
import Lineage.Proofs.Outcome
import Lineage.Proofs.Number.Amount

/-
What draws give, whatever the source.

`Yields` says of a computation with draws that all it can give has a property, from
every state of the source.  It is closed under the steps of a computation, so each
function of the generator has one lemma about what it yields.
-/

namespace Lineage
namespace Sample

variable {σ α β : Type}

/-- Whatever the state of the source, a value that is given has a property. -/
def Yields (draw : Draw σ α) (P : α → Prop) : Prop := ∀ s a s', draw s = .ok (a, s') → P a

section Yields

variable {P Q : α → Prop} {R : β → Prop} {draw : Draw σ α}

theorem yields_pure {a : α} (h : P a) : Yields (pure a : Draw σ α) P := by
  rintro s b s' ⟨⟩
  exact h

theorem yields_throw {e : Error} : Yields (throw e : Draw σ α) P := by
  intro s a s' h
  cases h

theorem yields_lift {x : Outcome α} (h : ∀ a, x = .ok a → P a) :
    Yields (liftM x : Draw σ α) P := by
  intro s b s' hb
  obtain ⟨a, ha, hb⟩ := Outcome.bind_eq_ok.mp hb
  cases hb
  exact h b ha

theorem Yields.imp (h : Yields draw P) (himp : ∀ a, P a → Q a) : Yields draw Q :=
  fun s a s' ha => himp a (h s a s' ha)

theorem Yields.bind {next : α → Draw σ β} (h : Yields draw P)
    (hnext : ∀ a, P a → Yields (next a) R) : Yields (draw >>= next) R := by
  intro s b s'' hb
  obtain ⟨⟨a, s'⟩, ha, hb⟩ := Outcome.bind_eq_ok.mp hb
  exact hnext a (h s a s' ha) s' b s'' hb

/-- A step of which nothing need be known. -/
theorem yields_bind {next : α → Draw σ β} (hnext : ∀ a, Yields (next a) R) :
    Yields (draw >>= next) R :=
  Yields.bind (P := fun _ => True) (fun _ _ _ _ => trivial) fun a _ => hnext a

theorem yields_ite {c : Prop} [Decidable c] {other : Draw σ α} (hpos : c → Yields draw P)
    (hneg : ¬c → Yields other P) : Yields (if c then draw else other) P := by
  split
  · next h => exact hpos h
  · next h => exact hneg h

theorem yields_repeated (h : Yields draw P) (n : Nat) :
    Yields (repeated draw n) fun vs => vs.length = n ∧ ∀ v ∈ vs, P v := by
  induction n with
  | zero => exact yields_pure ⟨rfl, List.forall_mem_nil _⟩
  | succ n ih =>
    refine h.bind fun v hv => ih.bind fun vs hvs => yields_pure ⟨?_, ?_⟩
    · rw [List.length_cons, hvs.1]
    · exact List.forall_mem_cons.mpr ⟨hv, hvs.2⟩

end Yields

/-! ## Sources -/

section Sources

variable (src : Source σ)

theorem yields_drawUpTo (bound : Nat) : Yields (src.drawUpTo bound) fun k => k ≤ bound := by
  rintro s k s' ⟨⟩
  exact Nat.le_of_lt_succ (src.upTo bound s).1.isLt

theorem yields_drawBetween (low high : Int) :
    Yields (src.drawBetween low high) fun k => low ≤ k ∧ k ≤ high := by
  unfold Source.drawBetween
  refine yields_ite (fun _ => yields_throw) fun hle => ?_
  refine (yields_drawUpTo src _).bind fun k hk => yields_pure ⟨?_, ?_⟩ <;> omega

theorem doubleOf_eq_ok {n : Option Number} {d : Double}
    (h : Source.drawUniform.doubleOf n = .ok d) : ∃ m, n = some m ∧ m.toDouble? = some d := by
  unfold Source.drawUniform.doubleOf at h
  split at h
  · next hd =>
    cases h
    exact Option.bind_eq_some_iff.mp hd
  · cases h

/-- Where the way from one number to the other is finite, a double on it is no NaN. -/
theorem yields_drawUniform {low high : Number} {limit : Int} (hlow : low.Held)
    (hhigh : high.Held) (hlimit : limit.natAbs < 2 ^ 53)
    (hside : Number.OneSided limit high low) :
    Yields (src.drawUniform low high) fun d => d ≠ .nan := by
  unfold Source.drawUniform
  refine Yields.bind (yields_lift fun _ h => h) fun width hwidth => ?_
  refine yields_bind fun k => ?_
  refine Yields.bind (yields_lift fun _ h => h) fun start hstart => yields_pure ?_
  obtain ⟨w, hw, hwidth⟩ := doubleOf_eq_ok hwidth
  obtain ⟨_, ⟨⟩, hstart⟩ := doubleOf_eq_ok hstart
  have hfinite : width.isFinite = true :=
    Number.finite_sub? hhigh hlow hlimit hside hw hwidth
  exact Double.add_ne_nan (hlow.asDouble hstart).held.finite (Double.scaled_ne_nan hfinite k)

end Sources

end Sample
end Lineage
