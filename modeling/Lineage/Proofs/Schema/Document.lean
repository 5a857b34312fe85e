import Lineage.Format.Email
import Lineage.Proofs.Field.Difference
import Lineage.Schema.Document

/-
Documents round-trip.

A field and the field that its document describes show no difference and name their
members in the same order.  A schema says its own flags in its document, so what the
settings say where a document says nothing is of no account.
-/

namespace Lineage
namespace Schema

open Lineage.Field

section

variable [Externals]

/-- A schema that construction lets through, with a constructed root. -/
structure Constructed (s : Schema) : Prop where
  root : s.root.Constructed
  made : ∃ version predecessor : Value,
    make version (.field s.root) s.name s.strict s.unambiguousUnions predecessor = .ok s

omit [Externals] in
theorem make_eq_ok {version name strict unambiguous predecessor : Value} {root : Field}
    {s : Schema} (h : make version (.field root) name strict unambiguous predecessor = .ok s) :
    1 ≤ s.version ∧ ((s.version = 1 ∧ s.predecessor = .null) ∨
      (s.version ≠ 1 ∧ s.predecessor.sameBy Number.same (.int (s.version - 1)) = true)) := by
  unfold make at h
  split at h
  · cases h
  · next n hn =>
    obtain ⟨-, hpositive⟩ := Option.filter_eq_some_iff.mp hn
    have hone : 1 ≤ n := of_decide_eq_true hpositive
    simp only at h
    split at h
    · next hfirst =>
      split at h
      · cases h
        exact ⟨hone, .inl ⟨hfirst, rfl⟩⟩
      · cases h
    · next hlater =>
      split at h
      · next hsame =>
        cases h
        exact ⟨hone, .inr ⟨hlater, hsame⟩⟩
      · cases h

omit [Externals] in
theorem predecessorOf_of_made {version predecessor : Value} {s : Schema}
    (h : make version (.field s.root) s.name s.strict s.unambiguousUnions predecessor = .ok s) :
    s.predecessor.sameBy Number.same (predecessorOf s.version) = true := by
  obtain ⟨hone, ⟨hfirst, hnull⟩ | ⟨hlater, hsame⟩⟩ := make_eq_ok h
  · rw [hnull, predecessorOf, if_neg (by omega)]
    rfl
  · rw [predecessorOf, if_pos (by omega)]
    exact hsame

omit [Externals] in
/-- A version with the predecessor that it has to have is let through. -/
theorem make_of {n : Int} (hone : 1 ≤ n) (root : Field) (name strict unambiguous : Value) :
    make (.int n) (.field root) name strict unambiguous (predecessorOf n) =
      .ok ⟨n, root, name, strict, unambiguous, predecessorOf n⟩ := by
  have hversion : (wholeNumber? (.int n)).filter (fun n => 1 ≤ n) = some n := by
    show (some n).filter (fun n => 1 ≤ n) = some n
    rw [Option.filter_some, if_pos (decide_eq_true hone)]
  unfold make
  rw [hversion]
  simp only
  split
  · next hfirst =>
    have hnull : predecessorOf n = .null := if_neg (by omega)
    rw [hnull]
  · next hlater =>
    have hbefore : predecessorOf n = .int (n - 1) := if_pos (by omega)
    rw [hbefore, Value.sameBy_int, if_pos rfl]

/-- A document that says everything is read as it says. -/
theorem ofDocument_of_entries {entries : List (Key × Value)} {n : Int} {d : Value} {root : Field}
    {name strict unambiguous : Value} (hone : 1 ≤ n)
    (hversion : Entries.find? (.text "version") entries = some (.int n))
    (hroot : Entries.find? (.text "root") entries = some d)
    (hname : optionOr entries "name" .null = name)
    (hstrict : Entries.find? (.text "strict") entries = some strict)
    (hunambiguous : Entries.find? (.text "unambiguous_unions") entries = some unambiguous)
    (hread : Field.ofDocument "$" d = .ok root) (settings : Settings) :
    ofDocument settings (.object entries) =
      .ok ⟨n, root, name, strict, unambiguous, predecessorOf n⟩ := by
  have hparts : parts? (.object entries) = some (entries, .int n, d) := by
    simp [parts?, hversion, hroot]
  have hnumber : wholeNumber? (.int n) = some n := rfl
  unfold ofDocument
  rw [hparts]
  simp only [hnumber, hread, Outcome.ok_bind, optionOr, hstrict, hunambiguous, Option.getD_some]
  rw [← hname]
  exact make_of hone root _ strict unambiguous

/-- What is read back from the document of a schema, whatever the settings say. -/
theorem ofDocument_toDocument {s : Schema} (hone : 1 ≤ s.version) {d : Value}
    (hd : Reads s.root d) :
    ∃ document, s.toDocument = .ok document ∧ ∀ settings, ofDocument settings document =
      .ok ⟨s.version, s.root.readBack, s.name, s.strict, s.unambiguousUnions,
        predecessorOf s.version⟩ := by
  unfold toDocument
  rw [hd.written]
  refine ⟨_, rfl, ?_⟩
  split
  · next hnull =>
    rw [hnull]
    refine ofDocument_of_entries hone ?_ ?_ ?_ ?_ ?_ (hd.read "$") <;>
      simp [entry, optionOr, Entries.find?]
  · refine ofDocument_of_entries hone ?_ ?_ ?_ ?_ ?_ (hd.read "$") <;>
      simp [entry, optionOr, Entries.find?]

/-- Documents round-trip.  Of a constructed field the document can be written, and what is
read back shows no difference and has the same names in the same order at every depth.  Of a
schema with such a root everything is read back as it was, whatever the settings say. -/
theorem documents_round_trip :
    (∀ f : Field, f.Constructed → f.Everywhere NotCustom → f.Everywhere HasFiniteNumbers →
      f.Everywhere HasTruthFlag → ∀ at_ : String,
      ∃ d g, f.toDocument = .ok d ∧ Field.ofDocument at_ d = .ok g ∧
        compareAt .root f g = [] ∧ SameKeyOrder f g) ∧
    (∀ s : Schema, s.Constructed → s.root.Everywhere NotCustom →
      s.root.Everywhere HasFiniteNumbers → s.root.Everywhere HasTruthFlag →
      ∀ settings : Settings,
      ∃ d t, s.toDocument = .ok d ∧ ofDocument settings d = .ok t ∧
        t.version = s.version ∧ s.predecessor.sameBy Number.same t.predecessor = true ∧
        t.name = s.name ∧ t.strict = s.strict ∧ t.unambiguousUnions = s.unambiguousUnions ∧
        compareAt .root s.root t.root = [] ∧ SameKeyOrder s.root t.root) := by
  have hdocumentable : ∀ {f : Field}, f.Constructed → f.Everywhere NotCustom →
      f.Everywhere HasFiniteNumbers → f.Everywhere HasTruthFlag → f.Everywhere Documentable :=
    fun hf hcustom hfinite hflag g hg => ⟨hcustom g hg, hf.sound g hg, hfinite g hg, hflag g hg⟩
  constructor
  · intro f hf hcustom hfinite hflag at_
    have hall := hdocumentable hf hcustom hfinite hflag
    obtain ⟨d, hwritten, hread⟩ := reads hall
    exact ⟨d, f.readBack, hwritten, hread at_, compareAt_readBack hall .root,
      sameKeyOrder_readBack f⟩
  · rintro s ⟨hroot, version, predecessor, hmade⟩ hcustom hfinite hflag settings
    have hall := hdocumentable hroot hcustom hfinite hflag
    obtain ⟨d, hd⟩ := reads hall
    obtain ⟨document, hwritten, hread⟩ := ofDocument_toDocument (make_eq_ok hmade).1 hd
    exact ⟨document, _, hwritten, hread settings, rfl, predecessorOf_of_made hmade, rfl, rfl, rfl,
      compareAt_readBack hall .root, sameKeyOrder_readBack s.root⟩

end

/-- An object that declares a `$` which may be left out, and a schema with this root. -/
theorem documents_round_trip_dollar :
    let f : Field := .object [⟨"$", false, .literal (.text "array")⟩]
    let s : Schema := { version := 1, root := f }
    (∃ d g, f.toDocument = .ok d ∧ Field.ofDocument "$" d = .ok g ∧
      compareAt .root f g = [] ∧ SameKeyOrder f g) ∧
    ∃ d t, s.toDocument = .ok d ∧ ofDocument {} d = .ok t ∧
      t.version = s.version ∧ s.predecessor.sameBy Number.same t.predecessor = true ∧
      t.name = s.name ∧ t.strict = s.strict ∧ t.unambiguousUnions = s.unambiguousUnions ∧
      compareAt .root s.root t.root = [] ∧ SameKeyOrder s.root t.root := by
  intro f s
  have hf : f.Constructed :=
    @Field.Constructed.object _ [(.text "$", .literal (.text "array"))] (.array []) _
      (List.forall_mem_singleton.mpr (@Field.Constructed.literal _ (.text "array") _ rfl)) rfl
  have hs : s.Constructed := ⟨hf, .int 1, .null, rfl⟩
  have hall : ∀ {P : Field → Prop}, P f → P (.literal (.text "array")) → f.Everywhere P :=
    fun hP hliteral => everywhere_object hP
      (List.forall_mem_singleton.mpr (everywhere_leaf hliteral rfl))
  have hcustom : f.Everywhere NotCustom := hall trivial trivial
  have hfinite : f.Everywhere HasFiniteNumbers := hall trivial nofun
  have hflag : f.Everywhere HasTruthFlag := hall trivial trivial
  exact ⟨documents_round_trip.1 f hf hcustom hfinite hflag "$",
    documents_round_trip.2 s hs hcustom hfinite hflag {}⟩

end Schema
end Lineage
