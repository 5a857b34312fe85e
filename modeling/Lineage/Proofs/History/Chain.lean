import Lineage.Format.Email
import Lineage.History
import Lineage.Proofs.Migration.Construction
import Lineage.Proofs.Migration.Progress
import Lineage.Proofs.Path.Selector
import Lineage.Proofs.Schema.Document

/-
Histories are chains of migrations.

A history changes only by an append that is accepted, which adds one migration and its
destination at the head.  So in every history that appends lead to, the versions count up
from 1, each migration starts from the schema at its own place and leads to the next, and an
upgrade ends at the head.
-/

namespace Lineage

namespace Schema

/-- A schema that construction lets through. -/
def Made (s : Schema) : Prop :=
  ∃ (version : Value) (root : Field) (name strict unambiguous predecessor : Value),
    make version (.field root) name strict unambiguous predecessor = .ok s

theorem Made.first {s : Schema} (h : s.Made) (hversion : s.version = 1) :
    s.predecessor = .null := by
  obtain ⟨version, root, name, strict, unambiguous, predecessor, hmake⟩ := h
  obtain ⟨-, ⟨-, hnull⟩ | ⟨hlater, -⟩⟩ := make_eq_ok hmake
  · exact hnull
  · exact absurd hversion hlater

theorem version_of_sameBy {numbers : Number → Number → Bool} {a b : Schema}
    (h : a.sameBy numbers b = true) : a.version = b.version := by
  simp only [sameBy, Bool.and_eq_true, beq_iff_eq] at h
  exact h.1.1.1.1.1

end Schema

namespace History

variable {h h' : History} {m : Migration} {p : Provenance} {s : Schema} {i : Nat}

/-! ## Appends -/

section

variable [Externals]

/-- What an append does: it is accepted, or else nothing changes. -/
theorem append_cases (p : Provenance) (m : Migration) (h : History) :
    (m.source.sameBy p.numbers h.head = true ∧ m.drift = .ok [] ∧
      append p m h =
        .ok m.destination ⟨h.first, h.later ++ [m.destination], h.migrations ++ [m]⟩) ∨
    (¬(m.source.sameBy p.numbers h.head = true ∧ m.drift = .ok []) ∧
      ∃ e, append p m h = .error e h) := by
  cases hsource : m.source.sameBy p.numbers h.head with
  | false =>
    have happend : append p m h =
        .error (.definition (.notFromHead m.source.version h.head.version)) h := by
      show (if m.source.sameBy p.numbers h.head then _ else _ : Operation Schema) h = _
      rw [hsource]
      rfl
    exact .inr ⟨fun haccepted => absurd haccepted.1 Bool.false_ne_true, _, happend⟩
  | true =>
    cases hdrift : m.drift with
    | error e =>
      have happend : append p m h = .error e h := by
        show (if m.source.sameBy p.numbers h.head then _ else _ : Operation Schema) h = _
        rw [hsource, hdrift]
        rfl
      refine .inr ⟨fun haccepted => ?_, e, happend⟩
      cases haccepted.2
    | ok differences =>
      have happend : append p m h =
          (if m.source.sameBy p.numbers h.head then _ else _ : Operation Schema) h := rfl
      rw [hsource, hdrift] at happend
      cases differences with
      | nil => exact .inl ⟨rfl, rfl, happend⟩
      | cons difference rest =>
        refine .inr ⟨fun haccepted => ?_, _, happend⟩
        cases haccepted.2

/-- An append is accepted exactly if the migration starts from the head and has no drift. -/
theorem append_eq_ok :
    append p m h = .ok s h' ↔
      m.source.sameBy p.numbers h.head = true ∧ m.drift = .ok [] ∧ s = m.destination ∧
        h' = ⟨h.first, h.later ++ [m.destination], h.migrations ++ [m]⟩ := by
  rcases append_cases p m h with ⟨hsource, hdrift, happend⟩ | ⟨hnot, e, happend⟩
  · rw [happend]
    constructor
    · intro hok
      cases hok
      exact ⟨hsource, hdrift, rfl, rfl⟩
    · rintro ⟨-, -, rfl, rfl⟩
      rfl
  · rw [happend]
    constructor
    · intro hok
      cases hok
    · rintro ⟨hsource, hdrift, -⟩
      exact absurd ⟨hsource, hdrift⟩ hnot

/-- An append that is not accepted changes nothing. -/
theorem append_error {e : Error} (herror : append p m h = .error e h') : h' = h := by
  rcases append_cases p m h with ⟨-, -, happend⟩ | ⟨-, e', happend⟩
  · rw [happend] at herror
    cases herror
  · rw [happend] at herror
    cases herror
    rfl

/-! ## Chains -/

/-- A migration takes a schema of a history to the next one. -/
structure Link (m : Migration) (before after : Schema) : Prop where
  made : m.Made
  source : ∃ p : Provenance, m.source.sameBy p.numbers before = true
  destination : m.destination = after
  drift : m.drift = .ok []

/-- From version 1 on each migration takes the schema at its place to the next one. -/
structure Chain (h : History) : Prop where
  version : h.first.version = 1
  predecessor : h.first.predecessor = .null
  lengths : h.later.length = h.migrations.length
  links : ∀ i m, h.migrations[i]? = some m →
    ∃ before after, h.schemas[i]? = some before ∧ h.schemas[i + 1]? = some after ∧
      Link m before after

/-- Histories that appends lead to, accepted or rejected. -/
inductive Reachable : History → Prop
  | start {s : Schema} {h : History} (hs : s.Made) (hstart : start (some s) = .ok h) : Reachable h
  | accepted {h h' : History} {p : Provenance} {m : Migration} {s : Schema} (hreach : Reachable h)
      (hm : m.Made) (happend : append p m h = .ok s h') : Reachable h'
  | rejected {h h' : History} {p : Provenance} {m : Migration} {e : Error} (hreach : Reachable h)
      (hm : m.Made) (happend : append p m h = .error e h') : Reachable h'

omit [Externals] in
theorem schemas_head (h : History) : h.schemas[h.later.length]? = some h.head := by
  unfold schemas head
  rcases List.eq_nil_or_concat h.later with hnil | ⟨init, s, hconcat⟩
  · rw [hnil]
    rfl
  · simp [hconcat]

theorem Chain.head (h : History) (hchain : h.Chain) :
    h.schemas[h.migrations.length]? = some h.head := by
  rw [← hchain.lengths]
  exact schemas_head h

/-- One append: what is accepted goes to the end of the chain. -/
theorem Chain.append (hchain : h.Chain) (hm : m.Made) (happend : append p m h = .ok s h') :
    h'.Chain := by
  obtain ⟨hsource, hdrift, -, rfl⟩ := append_eq_ok.mp happend
  have hschemas : (⟨h.first, h.later ++ [m.destination], h.migrations ++ [m]⟩ : History).schemas =
      h.schemas ++ [m.destination] := rfl
  have hlength : h.schemas.length = h.migrations.length + 1 := congrArg Nat.succ hchain.lengths
  refine ⟨hchain.version, hchain.predecessor, ?_, fun i n hn => ?_⟩
  · simp [hchain.lengths]
  · rw [hschemas]
    rcases Nat.lt_or_ge i h.migrations.length with hlt | hge
    · rw [List.getElem?_append_left hlt] at hn
      obtain ⟨before, after, hbefore, hafter, hlink⟩ := hchain.links i n hn
      refine ⟨before, after, ?_, ?_, hlink⟩
      · rw [List.getElem?_append_left (by omega)]
        exact hbefore
      · rw [List.getElem?_append_left (by omega)]
        exact hafter
    · obtain ⟨rfl, rfl⟩ : i = h.migrations.length ∧ n = m := by
        have hi : i < (h.migrations ++ [m]).length := (List.getElem?_eq_some_iff.mp hn).1
        have hi' : i = h.migrations.length := by
          rw [List.length_append, List.length_singleton] at hi
          omega
        subst hi'
        rw [List.getElem?_concat_length] at hn
        exact ⟨rfl, (Option.some.inj hn).symm⟩
      refine ⟨h.head, n.destination, ?_, ?_, ⟨hm, ⟨p, hsource⟩, rfl, hdrift⟩⟩
      · rw [List.getElem?_append_left (by omega)]
        exact hchain.head
      · rw [← hlength, List.getElem?_concat_length]

/-- Any number of appends. -/
theorem Reachable.chain (hreach : Reachable h) : h.Chain := by
  induction hreach with
  | start hs hstart =>
    unfold History.start at hstart
    simp only at hstart
    split at hstart
    · next hversion =>
      cases hstart
      exact ⟨hversion, hs.first hversion, rfl, nofun⟩
    · cases hstart
  | accepted _ hm happend ih => exact ih.append hm happend
  | rejected _ _ happend ih => rwa [append_error happend]

/-! ## Versions -/

theorem Chain.length (hchain : h.Chain) : h.schemas.length = h.migrations.length + 1 :=
  congrArg Nat.succ hchain.lengths

/-- A schema after the first is what a migration leads to. -/
theorem Chain.link_to (hchain : h.Chain) (hs : h.schemas[i + 1]? = some s) :
    ∃ m before, h.migrations[i]? = some m ∧ h.schemas[i]? = some before ∧ Link m before s := by
  have hlength := hchain.length
  have hi : i + 1 < h.schemas.length := (List.getElem?_eq_some_iff.mp hs).1
  obtain ⟨m, hm⟩ : ∃ m, h.migrations[i]? = some m := ⟨_, List.getElem?_eq_getElem (by omega)⟩
  obtain ⟨before, after, hbefore, hafter, hlink⟩ := hchain.links i m hm
  obtain rfl : after = s := Option.some.inj (hafter.symm.trans hs)
  exact ⟨_, before, hm, hbefore, hlink⟩

theorem Link.version {before after : Schema} (hlink : Link m before after) :
    after.version = before.version + 1 := by
  obtain ⟨p, hsource⟩ := hlink.source
  rw [← hlink.destination, hlink.made.version, Schema.version_of_sameBy hsource]

theorem Link.predecessor {before after : Schema} (hlink : Link m before after) :
    after.predecessor.sameBy Number.same (.int before.version) = true := by
  obtain ⟨p, hsource⟩ := hlink.source
  rw [← hlink.destination, ← Schema.version_of_sameBy hsource]
  exact hlink.made.predecessor

/-- The versions count up from 1. -/
theorem Chain.version_at (hchain : h.Chain) (hs : h.schemas[i]? = some s) :
    s.version = i + 1 := by
  induction i generalizing s with
  | zero =>
    cases hs
    exact hchain.version
  | succ i ih =>
    obtain ⟨m, before, -, hbefore, hlink⟩ := hchain.link_to hs
    rw [hlink.version, ih hbefore]
    rfl

theorem Chain.predecessor_at (hchain : h.Chain) (hs : h.schemas[i]? = some s) :
    if i = 0 then s.predecessor = .null
    else s.predecessor.sameBy Number.same (.int i) = true := by
  cases i with
  | zero =>
    cases hs
    exact hchain.predecessor
  | succ i =>
    obtain ⟨m, before, -, hbefore, hlink⟩ := hchain.link_to hs
    have hversion : before.version = ((i + 1 : Nat) : Int) := hchain.version_at hbefore
    rw [if_neg (Nat.succ_ne_zero i), ← hversion]
    exact hlink.predecessor

/-! ## Looking up -/

omit [Externals] in
theorem placeOf?_eq_some {v : Value} :
    h.placeOf? v = some i ↔ v = .int (i + 1) ∧ i < h.schemas.length := by
  unfold placeOf?
  cases hwhole : Schema.wholeNumber? v with
  | none =>
    constructor
    · exact nofun
    · rintro ⟨rfl, -⟩
      cases hwhole
  | some n =>
    obtain rfl : v = .int n := by
      unfold Schema.wholeNumber? at hwhole
      split at hwhole
      · cases hwhole
        rfl
      · cases hwhole
    show inRange? (n - 1) h.schemas.length = some i ↔ _
    rw [inRange?_eq_some]
    constructor
    · rintro ⟨hn, hi⟩
      exact ⟨congrArg Value.int (by omega), hi⟩
    · rintro ⟨hn, hi⟩
      cases hn
      exact ⟨by omega, hi⟩

omit [Externals] in
theorem get_eq_ok {v : Value} :
    h.get v = .ok s ↔ ∃ i : Nat, v = .int (i + 1) ∧ h.schemas[i]? = some s := by
  unfold History.get
  constructor
  · intro hget
    split at hget
    · next t ht =>
      cases hget
      obtain ⟨i, hi, hs⟩ := Option.bind_eq_some_iff.mp ht
      exact ⟨i, (placeOf?_eq_some.mp hi).1, hs⟩
    · cases hget
  · rintro ⟨i, hv, hs⟩
    have hi : i < h.schemas.length := (List.getElem?_eq_some_iff.mp hs).1
    rw [placeOf?_eq_some.mpr ⟨hv, hi⟩, Option.bind_some, hs]

omit [Externals] in
/-- The complaint about what is no version of the history. -/
theorem get_otherwise {v : Value} (hv : ∀ i : Nat, i < h.schemas.length → v ≠ .int (i + 1)) :
    ∃ message, h.get v = .error (.fault (.noKey (some message))) := by
  have hplace : h.placeOf? v = none := by
    cases hplace : h.placeOf? v with
    | none => rfl
    | some i =>
      obtain ⟨hint, hi⟩ := placeOf?_eq_some.mp hplace
      exact absurd hint (hv i hi)
  unfold History.get
  rw [hplace]
  exact ⟨_, rfl⟩

/-! ## Upgrades -/

/-- What several migrations return conforms to the destination of the last. -/
theorem runAll_conforms {ms : List Migration} {v w : Value}
    (hrun : runAll (ms ++ [m]) v = .ok w) : m.destination.validate w = .ok [] := by
  induction ms generalizing v with
  | nil =>
    obtain ⟨u, hu, hrest⟩ := Outcome.bind_eq_ok.mp hrun
    cases hrest
    exact (Migration.run_eq_ok hu).2.2.2
  | cons n rest ih =>
    obtain ⟨u, -, hrest⟩ := Outcome.bind_eq_ok.mp hrun
    exact ih hrest

omit [Externals] in
theorem migrationsFrom_of_get {v : Value} (hget : h.get v = .ok s) :
    ∃ i, h.schemas[i]? = some s ∧ h.migrationsFrom v = .ok (h.migrations.drop i) := by
  obtain ⟨i, hv, hs⟩ := get_eq_ok.mp hget
  have hi : i < h.schemas.length := (List.getElem?_eq_some_iff.mp hs).1
  refine ⟨i, hs, ?_⟩
  unfold migrationsFrom
  rw [placeOf?_eq_some.mpr ⟨hv, hi⟩]

/-- What an upgrade of a conforming document returns conforms to the head. -/
theorem Chain.upgrade_conforms (hchain : h.Chain) {k v w : Value} (hget : h.get k = .ok s)
    (hv : s.validate v = .ok []) (hupgrade : h.upgrade v k = .ok w) :
    h.head.validate w = .ok [] := by
  obtain ⟨i, hs, hfrom⟩ := migrationsFrom_of_get hget
  unfold upgrade at hupgrade
  rw [hfrom, Outcome.ok_bind] at hupgrade
  have hlength := hchain.length
  have hi : i < h.schemas.length := (List.getElem?_eq_some_iff.mp hs).1
  rcases List.eq_nil_or_concat (h.migrations.drop i) with hnil | ⟨init, m, hconcat⟩
  · -- The version is the head itself.
    have hlast : h.migrations.length ≤ i := List.drop_eq_nil_iff.mp hnil
    have hhead : i = h.migrations.length := by omega
    rw [hhead, hchain.head] at hs
    cases hs
    rw [hnil] at hupgrade
    cases hupgrade
    exact hv
  · have hm : h.migrations.getLast? = some m := by
      have hdropped : (h.migrations.drop i).getLast? = some m := by rw [hconcat]; simp
      rw [List.getLast?_drop] at hdropped
      split at hdropped
      · cases hdropped
      · exact hdropped
    rw [List.getLast?_eq_getElem?] at hm
    obtain ⟨before, after, -, hafter, hlink⟩ := hchain.links _ m hm
    have hpositive : 0 < h.migrations.length := by
      have := (List.getElem?_eq_some_iff.mp hm).1
      omega
    rw [Nat.sub_add_cancel hpositive, hchain.head] at hafter
    cases hafter
    rw [← hlink.destination]
    rw [hconcat] at hupgrade
    exact runAll_conforms (by simpa using hupgrade)

/-- The invariant of histories.  Wherever appends lead, there is one schema more than there are
migrations, and versions and predecessors count up; each migration starts from the schema at its
place and leads to the next without drift; exactly the versions from 1 to the length are found;
a rejected append changes nothing; and what an upgrade of a conforming document returns conforms
to the head. -/
theorem reachable_invariant (hreach : Reachable h) :
    h.schemas.length = h.migrations.length + 1 ∧
    (∀ (i : Nat) (s : Schema), h.schemas[i]? = some s → s.version = i + 1 ∧
      if i = 0 then s.predecessor = .null
      else s.predecessor.sameBy Number.same (.int i) = true) ∧
    (∀ (i : Nat) (m : Migration), h.migrations[i]? = some m →
      (∃ s, h.schemas[i]? = some s ∧ ∃ p : Provenance, m.source.sameBy p.numbers s = true) ∧
      h.schemas[i + 1]? = some m.destination ∧
      ∃ derived, m.derive = .ok derived ∧
        Field.compareAt .root m.destination.root derived = []) ∧
    (∀ n : Int, 1 ≤ n → n ≤ (h.length : Int) →
      ∃ s ∈ h.schemas, s.version = n ∧ h.get (.int n) = .ok s) ∧
    (∀ v, (∀ n : Int, 1 ≤ n → n ≤ (h.length : Int) → v ≠ .int n) →
      ∃ message, h.get v = .error (.fault (.noKey (some message)))) ∧
    (∀ p m e h', append p m h = .error e h' → h' = h) ∧
    (∀ k s v w, h.get k = .ok s → s.validate v = .ok [] → h.upgrade v k = .ok w →
      h.head.validate w = .ok []) := by
  have hchain := hreach.chain
  refine ⟨hchain.length, fun i s hs => ⟨hchain.version_at hs, hchain.predecessor_at hs⟩,
    fun i m hm => ?links, fun n hone hlength => ?found, fun v hv => ?otherwise,
    fun p m e h' => append_error, fun k s v w => hchain.upgrade_conforms⟩
  case links =>
    obtain ⟨before, after, hbefore, hafter, hlink⟩ := hchain.links i m hm
    obtain ⟨derived, hderived, hcompare⟩ := Outcome.bind_eq_ok.mp hlink.drift
    refine ⟨⟨before, hbefore, hlink.source⟩, ?_, derived, hderived, Except.ok.inj hcompare⟩
    rw [hlink.destination]
    exact hafter
  case found =>
    have hi : (n - 1).toNat < h.schemas.length := by
      unfold History.length at hlength
      omega
    have hs := List.getElem?_eq_getElem hi
    have hn : n = ((n - 1).toNat : Int) + 1 := by omega
    refine ⟨_, List.getElem_mem hi, ?_, get_eq_ok.mpr ⟨_, congrArg Value.int hn, hs⟩⟩
    rw [hchain.version_at hs, ← hn]
  case otherwise =>
    refine get_otherwise fun i hi => hv (i + 1) ?_ ?_
    · omega
    · unfold History.length
      omega

end

/-- One migration is appended, and it is rejected a second time. -/
theorem reachable_invariant_appended :
    let before : Schema := { version := 1, root := .object (Member.derived [("a", .boolean)]) }
    let after : Schema := { version := 2, root := .object [], predecessor := .int 1 }
    let m : Migration := ⟨before, after, [.remove .root (.text "a")], .null⟩
    let h : History := ⟨before, [after], [m]⟩
    let v : Value := .object [(.text "a", .bool true)]
    Reachable h ∧ h.upgrade v (.int 1) = .ok (.object []) ∧
      h.head.validate (.object []) = .ok [] := by
  intro before after m h v
  have hbefore : before.Made := ⟨.int 1, before.root, .null, .bool true, .bool true, .null, rfl⟩
  have hm : m.Made := ⟨_, _, Migration.make_of rfl rfl m.steps .null⟩
  have hsame : before.sameBy Number.same before = true := by
    unfold Schema.sameBy
    rw [Field.sameBy_bool]
    rfl
  have haccepted : append .written m ⟨before, [], []⟩ = .ok after h :=
    append_eq_ok.mpr ⟨hsame, rfl, rfl, rfl⟩
  have hrejected : append .written m h =
      .error (.definition (.notFromHead before.version after.version)) h := rfl
  have hreach : Reachable h :=
    .rejected (.accepted (.start hbefore rfl) hm haccepted) hm hrejected
  have hupgrade : h.upgrade v (.int 1) = .ok (.object []) := rfl
  obtain ⟨-, -, -, -, -, -, hconforms⟩ := reachable_invariant hreach
  exact ⟨hreach, hupgrade, hconforms (.int 1) before v (.object []) rfl rfl hupgrade⟩

end History
end Lineage
