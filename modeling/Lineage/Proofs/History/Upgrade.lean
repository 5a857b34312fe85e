import Lineage.Format.Email
import Lineage.Proofs.Field.Equality
import Lineage.Proofs.History.Chain
import Lineage.Proofs.Migration.Refusal

/-
Upgrades meet what migrations start from.

A history takes a migration whose source is loosely equal to the head, and a literal `true`
is loosely equal to a literal `1`.  Where the source and the schema at its place are alike,
too, in what loose equality confuses, both accept the same documents.  So a document that
conforms to its version is accepted by the first migration, and what one migration returns
by the next.
-/

namespace Lineage

theorem Provenance.position_eq (p : Provenance) {m n : Number} (h : p.numbers m n = true) :
    m.position = n.position := by
  cases p with
  | taken =>
    rcases Bool.or_eq_true_iff.mp h with hsame | hnan
    · exact Number.position_eq_of_same hsame
    · obtain ⟨hm, hn⟩ := Bool.and_eq_true_iff.mp hnan
      rw [Option.isNone_iff_eq_none.mp hm, Option.isNone_iff_eq_none.mp hn]
  | written => exact Number.position_eq_of_same h

namespace Schema

open Validation

variable [Externals]

/-- Schemas between which validation cannot tell: they are equal, and their roots are alike
wherever equality is not enough. -/
theorem validate_agree {p : Provenance} {a b : Schema} (hsame : a.sameBy p.numbers b = true)
    (halike : Field.ToldAlike a.root b.root) (ha : a.root.Constructed) (hb : b.root.Constructed)
    (v : Value) : Agree (a.validate v) (b.validate v) := by
  have hnumbers : ∀ m n, p.numbers m n = true → m.position = n.position := fun _ _ => p.position_eq
  simp only [sameBy, Bool.and_eq_true] at hsame
  obtain ⟨⟨⟨⟨⟨-, hroot⟩, -⟩, hstrict⟩, hunambiguous⟩, -⟩ := hsame
  have hoptions : a.options = b.options := by
    unfold options
    rw [Value.truthy_of_sameBy hnumbers hstrict, Value.truthy_of_sameBy hnumbers hunambiguous]
  unfold validate Field.check
  rw [hoptions]
  exact Field.Counterparts.agree hnumbers ⟨hroot, halike, ha.sound, hb.sound⟩ _ _ v

/-- A schema of one literal accepts the literal. -/
theorem validate_literal {s : Schema} {a : Scalar} (hroot : s.root = .literal a)
    (ha : (Value.scalar a).Checked) : s.validate (.scalar a) = .ok [] := by
  unfold validate Field.check
  rw [hroot]
  exact Field.validate_literal_eq_nil.mpr ⟨a, rfl, Scalar.equal_self ha⟩

end Schema

namespace History

open Outcome

variable {h : History} {m : Migration} {s : Schema} {i : Nat} {v k : Value}

section

variable [Externals]

/-- Fields that construction lets through, and migrations whose sources are alike with the
schemas at their places also where loose equality is not enough. -/
structure Faithful (h : History) : Prop where
  schemas : ∀ s ∈ h.schemas, s.root.Constructed
  sources : ∀ m ∈ h.migrations, m.source.root.Constructed
  alike : ∀ (i : Nat) (m : Migration) (s : Schema), h.migrations[i]? = some m →
    h.schemas[i]? = some s → Field.ToldAlike m.source.root s.root

/-- One migration accepts what the schema at its place accepts. -/
theorem Chain.source_accepts (hchain : h.Chain) (hfaithful : h.Faithful)
    (hm : h.migrations[i]? = some m) (hs : h.schemas[i]? = some s) (hv : s.validate v = .ok []) :
    m.source.validate v = .ok [] := by
  obtain ⟨before, after, hbefore, -, hlink⟩ := hchain.links i m hm
  obtain rfl : before = s := Option.some.inj (hbefore.symm.trans hs)
  obtain ⟨p, hsource⟩ := hlink.source
  have hagree := Schema.validate_agree hsource (hfaithful.alike i m before hm hs)
    (hfaithful.sources m (List.mem_of_getElem? hm))
    (hfaithful.schemas before (List.mem_of_getElem? hs)) v
  exact (Validation.agree_iff.mp hagree).2.mpr hv

/-- The migrations from a place on, one after the other: each returns what the next accepts. -/
theorem Chain.runAll_acceptsSource (hchain : h.Chain) (hfaithful : h.Faithful)
    {ms : List Migration} (hms : h.migrations.drop i = ms) (hs : h.schemas[i]? = some s)
    (hv : s.validate v = .ok []) : (runAll ms v).AcceptsSource := by
  induction ms generalizing i s v with
  | nil => exact failsOnly_ok v
  | cons m rest ih =>
    have hm : h.migrations[i]? = some m := by
      rw [← List.head?_drop, hms]
      rfl
    have hrest : h.migrations.drop (i + 1) = rest := by
      rw [← List.drop_drop, hms]
      rfl
    obtain ⟨before, after, -, hafter, hlink⟩ := hchain.links i m hm
    have hsource := hchain.source_accepts hfaithful hm hs hv
    refine (Migration.run_acceptsSource hsource).bind fun w hw => ?_
    have hdestination := (Migration.run_eq_ok hw).2.2.2
    rw [hlink.destination] at hdestination
    exact ih hrest hafter hdestination

/-- An upgrade of a document that conforms to its version never ends in a source mismatch, at
whatever migration, in a history whose sources are alike with the schemas at their places. -/
theorem upgrade_not_isSourceMismatch (hreach : Reachable h) (hfaithful : h.Faithful)
    (hget : h.get k = .ok s) (hv : s.validate v = .ok []) : ¬(h.upgrade v k).IsSourceMismatch := by
  obtain ⟨i, hs, hfrom⟩ := migrationsFrom_of_get hget
  have haccepts : (h.upgrade v k).AcceptsSource := by
    unfold upgrade
    rw [hfrom, ok_bind]
    exact hreach.chain.runAll_acceptsSource hfaithful rfl hs hv
  exact haccepts.not_isSourceMismatch

end

/-- A source that writes the literal `1` of the head as `1.0`. -/
theorem upgrade_not_isSourceMismatch_spelled :
    let one : Number := .float (.units (1 * unitsPerOne))
    let before : Schema := { version := 1, root := .literal (.number (.int 1)) }
    let source : Schema := { version := 1, root := .literal (.number one) }
    let after : Schema := { version := 2, root := .boolean, predecessor := .int 1 }
    let m : Migration := ⟨source, after,
      [.retype .root .boolean ⟨"yes", fun _ => .ok (.bool true)⟩], .null⟩
    let h : History := ⟨before, [after], [m]⟩
    Reachable h ∧ h.Faithful ∧ h.get (.int 1) = .ok before ∧ before.validate (.int 1) = .ok [] ∧
      ¬(h.upgrade (.int 1) (.int 1)).IsSourceMismatch := by
  intro one before source after m h
  have hbefore : before.Made := ⟨.int 1, before.root, .null, .bool true, .bool true, .null, rfl⟩
  have hm : m.Made := ⟨_, _, Migration.make_of rfl rfl m.steps .null⟩
  have hone : one.same (.int 1) = true := Number.same_iff.mpr ⟨_, rfl, rfl⟩
  have hsame : source.sameBy Number.same before = true := by
    have hroot : source.root.sameBy Number.same before.root = true := hone
    unfold Schema.sameBy
    rw [hroot, Field.sameBy_bool]
    rfl
  have haccepted : append .written m ⟨before, [], []⟩ = .ok after h :=
    append_eq_ok.mpr ⟨hsame, rfl, rfl, rfl⟩
  have hreach : Reachable h := .accepted (.start hbefore rfl) hm haccepted
  have hfaithful : h.Faithful := by
    refine ⟨?_, ?_, ?_⟩
    · exact List.forall_mem_cons.mpr
        ⟨.literal (v := .int 1) rfl, List.forall_mem_singleton.mpr .boolean⟩
    · exact List.forall_mem_singleton.mpr (.literal (v := .number one) rfl)
    · intro i n s hn hs
      cases i with
      | zero =>
        cases hn
        cases hs
        exact Field.toldAlike_literal rfl
      | succ i => cases hn
  have hvalid : before.validate (.int 1) = .ok [] := Schema.validate_literal rfl rfl
  exact ⟨hreach, hfaithful, rfl, hvalid, upgrade_not_isSourceMismatch hreach hfaithful rfl hvalid⟩

/-- A source with the literal `true` is appended to a head with the literal `1`, and refuses
the documents that the head accepts. -/
theorem upgrade_confuses_true_and_one :
    let before : Schema := { version := 1, root := .literal (.number (.int 1)) }
    let source : Schema := { version := 1, root := .literal (.bool true) }
    let after : Schema :=
      { version := 2, root := .string none none none none, predecessor := .int 1 }
    let m : Migration := ⟨source, after,
      [.retype .root (.string none none none none) ⟨"x", fun _ => .ok (.text "x")⟩], .null⟩
    let h : History := ⟨before, [after], [m]⟩
    Reachable h ∧ h.get (.int 1) = .ok before ∧ before.validate (.int 1) = .ok [] ∧
      (h.upgrade (.int 1) (.int 1)).IsSourceMismatch := by
  intro before source after m h
  have hbefore : before.Made := ⟨.int 1, before.root, .null, .bool true, .bool true, .null, rfl⟩
  have hm : m.Made := ⟨_, _, Migration.make_of rfl rfl m.steps .null⟩
  have hsame : source.sameBy Number.same before = true := by
    have hroot : source.root.sameBy Number.same before.root = true := by
      show Number.same (.int 1) (.int 1) = true
      exact Number.same_refl rfl
    unfold Schema.sameBy
    rw [hroot, Field.sameBy_bool]
    rfl
  have haccepted : append .written m ⟨before, [], []⟩ = .ok after h :=
    append_eq_ok.mpr ⟨hsame, rfl, rfl, rfl⟩
  have hreach : Reachable h := .accepted (.start hbefore rfl) hm haccepted
  have hvalid : before.validate (.int 1) = .ok [] := Schema.validate_literal rfl rfl
  exact ⟨hreach, rfl, hvalid, _, _, rfl⟩

end History
end Lineage
