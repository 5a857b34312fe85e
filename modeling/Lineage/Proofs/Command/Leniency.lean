import Lineage.Command.Run
import Lineage.Format.Email
import Lineage.Proofs.Field.Reading
import Lineage.Proofs.Field.Rebuilding
import Lineage.Proofs.Format.Exclusive
import Lineage.Proofs.Schema.Document
import Lineage.Proofs.Validation.Leniency

/-
The command that validates is not made stricter by the option to be lenient.

A lenient run takes the field of the schema and judges unions as the settings say, where the
schema has a flag of its own.  The field that is read does not depend on the settings, and on
constructed fields the flag makes no difference to what is accepted.
-/

namespace Lineage

open Lineage.Field Validation

namespace Schema

/-- Which root a schema has, and whether it is let through, does not depend on its name and
its flags. -/
theorem make_root {version name strict unambiguous predecessor : Value} {root : Field}
    {s : Schema} (h : make version (.field root) name strict unambiguous predecessor = .ok s)
    (name' strict' unambiguous' : Value) :
    s.root = root ∧ ∃ t : Schema,
      make version (.field root) name' strict' unambiguous' predecessor = .ok t ∧ t.root = root := by
  unfold make at h ⊢
  split at h
  · cases h
  · next n hn =>
    simp only at h ⊢
    split at h
    · next hfirst =>
      split at h
      · cases h
        exact ⟨rfl, _, if_pos hfirst, rfl⟩
      · cases h
    · next hlater =>
      split at h
      · next hsame =>
        cases h
        exact ⟨rfl, _, (if_neg hlater).trans (if_pos hsame), rfl⟩
      · cases h

theorem isJson_of_parts? {d version root : Value} {entries : List (Key × Value)} (hd : d.IsJson)
    (h : parts? d = some (entries, version, root)) : root.IsJson := by
  unfold parts? at h
  split at h
  · obtain ⟨_, -, h⟩ := Option.bind_eq_some_iff.mp h
    obtain ⟨_, hroot, h⟩ := Option.bind_eq_some_iff.mp h
    cases h
    exact isJson_find? hd hroot
  · cases h

variable [Externals]

/-- The root that a document describes does not depend on the settings. -/
theorem ofDocument_root {settings : Settings} {d : Value} {s : Schema} (hd : d.IsJson)
    (h : ofDocument settings d = .ok s) :
    Read s.root ∧ ∀ other : Settings, ∃ t : Schema, ofDocument other d = .ok t ∧ t.root = s.root := by
  unfold ofDocument at h
  split at h
  · next hparts =>
    obtain ⟨root, hroot, h⟩ := Outcome.bind_eq_ok.mp h
    obtain ⟨heq, -⟩ := make_root h .null .null .null
    refine ⟨heq ▸ read_document hd hroot, fun other => ?_⟩
    obtain ⟨t, ht, hroott⟩ := (make_root h .null (.bool other.strictObjects)
      (.bool other.unambiguousUnions)).2
    refine ⟨t, ?_, hroott.trans heq.symm⟩
    unfold ofDocument
    rw [hparts]
    simp only [hroot, Outcome.ok_bind]
    exact ht
  · next entries version d' hparts =>
    split at h
    · cases h
    · next n hn =>
      obtain ⟨root, hroot, h⟩ := Outcome.bind_eq_ok.mp h
      obtain ⟨heq, hother⟩ := make_root h (optionOr entries "name" .null) .null .null
      refine ⟨heq ▸ read_document (isJson_of_parts? hd hparts) hroot, fun other => ?_⟩
      obtain ⟨t, ht, hroott⟩ := (make_root h (optionOr entries "name" .null)
        (optionOr entries "strict" (.bool other.strictObjects))
        (optionOr entries "unambiguous_unions" (.bool other.unambiguousUnions))).2
      refine ⟨t, ?_, hroott.trans heq.symm⟩
      unfold ofDocument
      rw [hparts]
      simp only [hn, hroot, Outcome.ok_bind]
      exact ht

end Schema

namespace Command

variable {s : Surroundings} {settings : Settings} {schema data : String} {lenient : Bool}

theorem bind_eq_ok {α β : Type} {x : Part α} {next : α → Part β} {b : β} :
    (x >>= next) = .ok b ↔ ∃ a, x = .ok a ∧ next a = .ok b := by
  cases x with
  | error answer => exact ⟨nofun, fun ⟨_, h, _⟩ => nomatch h⟩
  | ok a =>
    constructor
    · intro h
      exact ⟨a, rfl, h⟩
    · rintro ⟨_, ⟨⟩, h⟩
      exact h

theorem orCrash_eq_ok {α : Type} {x : Outcome α} {a : α} : orCrash x = .ok a ↔ x = .ok a := by
  cases x with
  | error e => exact ⟨nofun, nofun⟩
  | ok b => rw [orCrash, Except.mapError, Except.ok.injEq, Except.ok.injEq]

section

variable [Externals]

theorem readSchema_eq_ok {contract : Schema} :
    readSchema s settings schema = .ok contract ↔
      ∃ d, read s schema = .ok d ∧ Schema.ofDocument settings d = .ok contract := by
  unfold readSchema
  rw [bind_eq_ok]
  refine exists_congr fun d => and_congr_right fun _ => ?_
  cases Schema.ofDocument settings d with
  | ok t =>
    show (Except.ok t : Part Schema) = .ok contract ↔ _
    rw [Except.ok.injEq, Except.ok.injEq]
  | error e =>
    refine ⟨fun h => ?_, nofun⟩
    simp only at h
    split at h <;> cases h

/-- What the command judges a value by. -/
def judgement (settings : Settings) (lenient : Bool) (contract : Schema) (v : Value) : Result :=
  if lenient then contract.root.check (Conformance.options settings (some false)) v
  else contract.validate v

/-- The command accepts: it answers with exit code zero. -/
def Accepts (s : Surroundings) (settings : Settings) (command : Command) : Prop :=
  ∃ answer, perform s settings command = .ok answer ∧ answer.exitCode = 0

theorem accepts_validate : Accepts s settings (.validate schema data lenient) ↔
    ∃ d contract v, read s schema = .ok d ∧ Schema.ofDocument settings d = .ok contract ∧
      read s data = .ok v ∧ judgement settings lenient contract v = .ok [] := by
  unfold Accepts perform validateFiles
  constructor
  · rintro ⟨answer, h, hzero⟩
    obtain ⟨contract, hcontract, h⟩ := bind_eq_ok.mp h
    obtain ⟨v, hv, h⟩ := bind_eq_ok.mp h
    obtain ⟨violations, hviolations, h⟩ := bind_eq_ok.mp h
    obtain ⟨d, hd, hschema⟩ := readSchema_eq_ok.mp hcontract
    refine ⟨d, contract, v, hd, hschema, hv, ?_⟩
    have hempty : violations = [] := by
      simp only at h
      split at h
      · next hnil => exact List.isEmpty_iff.mp hnil
      · cases h
        cases hzero
    exact hempty ▸ orCrash_eq_ok.mp hviolations
  · rintro ⟨d, contract, v, hd, hcontract, hv, hjudged⟩
    refine ⟨Answer.ofLines 0 [s!"✅ {data} conforms to {contract.label}"], ?_, rfl⟩
    refine bind_eq_ok.mpr ⟨contract, readSchema_eq_ok.mpr ⟨d, hd, hcontract⟩, ?_⟩
    refine bind_eq_ok.mpr ⟨v, hv, ?_⟩
    exact bind_eq_ok.mpr ⟨[], orCrash_eq_ok.mpr hjudged, rfl⟩

/-- On JSON files a lenient run accepts what some other run accepts, whatever the settings of
the two say. -/
theorem accepts_lenient (hexclusive : Format.Exclusive) {d v : Value} (hd : read s schema = .ok d)
    (hdjson : d.IsJson) (hv : read s data = .ok v) (hvjson : v.IsJson)
    (h : Accepts s settings (.validate schema data false)) (other : Settings) :
    Accepts s other (.validate schema data true) := by
  obtain ⟨d', contract, v', hd', hcontract, hv', hjudged⟩ := accepts_validate.mp h
  obtain rfl : d = d' := Except.ok.inj (hd.symm.trans hd')
  obtain rfl : v = v' := Except.ok.inj (hv.symm.trans hv')
  obtain ⟨hread, hother⟩ := Schema.ofDocument_root hdjson hcontract
  obtain ⟨lenient, hlenient, hroot⟩ := hother other
  have hanalysable : contract.root.Everywhere Analysable := hread.constructed.analysable
    (hread.documented.imp fun _ => Documented.notCustom)
    (hread.documented.imp fun _ => Documented.realBounds)
  refine accepts_validate.mpr ⟨d, lenient, v, hd, hlenient, hv, ?_⟩
  have hstrict : contract.root.validate contract.options .root v = .ok [] := hjudged
  show lenient.root.validate _ .root v = .ok []
  rw [hroot]
  exact accepts_of_laxer hexclusive hanalysable (.inr hvjson.checked) nofun hstrict

/-- Lenient validation forgives undeclared keys and nothing else.  On a tree without unions it
finds what strict validation finds, less the mismatches about such keys.  On a tree with
unions, without checks of an author and with bounds that are numbers, what strict validation
accepts it accepts, however each of the two judges ambiguous unions.  So does the command that
validates files, under whatever settings. -/
theorem lenient_forgives :
    (∀ f : Field, f.Constructed → f.Everywhere NotUnion → ∀ v : Value, v.Checked →
      ∀ (unambiguous : Bool) (path : Path),
        f.validate ⟨false, unambiguous⟩ path v =
          (f.validate ⟨true, unambiguous⟩ path v).map forgiven) ∧
    (Format.Exclusive → ∀ f : Field,
      f.Constructed → f.Everywhere NotCustom → f.Everywhere HasRealBounds →
      ∀ v : Value, v.Checked → ∀ (a b : Bool) (path : Path),
        f.validate ⟨true, a⟩ path v = .ok [] → f.validate ⟨false, b⟩ path v = .ok []) ∧
    (Format.Exclusive →
      ∀ (s : Surroundings) (settings : Settings) (schema data : String) (d v : Value),
      read s schema = .ok d → d.IsJson → read s data = .ok v → v.IsJson →
      Accepts s settings (.validate schema data false) →
      ∀ other : Settings, Accepts s other (.validate schema data true)) := by
  refine ⟨?_, ?_, ?_⟩
  · intro f hf hunion v hv unambiguous path
    have hforgivable : f.Everywhere Forgivable := fun g hg =>
      ⟨hunion g hg, (hf.sound g hg).checkedDefault⟩
    exact validate_forgiven hforgivable (.inr hv) rfl rfl
  · intro hexclusive f hf hcustom hreal v hv a b path h
    exact accepts_of_laxer hexclusive (hf.analysable hcustom hreal) (.inr hv) nofun h
  · intro hexclusive s settings schema data d v hd hdjson hv hvjson h other
    exact accepts_lenient hexclusive hd hdjson hv hvjson h other

end

/-- An undeclared key, a union, and files of an object field and of one of its values. -/
theorem lenient_forgives_undeclared :
    let flagged : Field := .object [⟨"a", true, .boolean⟩]
    let either : Field := .union [.boolean, .null] none
    let v : Value := .object [entry "a" (.int 1), entry "b" (.int 2)]
    let files : Surroundings :=
      { files := [("schema.json", "\x7b\"a\":\"boolean\"\x7d"), ("data.json", "\x7b\"a\":true\x7d")] }
    flagged.validate ⟨false, true⟩ .root v =
        (flagged.validate ⟨true, true⟩ .root v).map forgiven ∧
      either.validate ⟨false, false⟩ .root (.bool true) = .ok [] ∧
      ∀ other : Settings, Accepts files other (.validate "schema.json" "data.json" true) := by
  intro flagged either v files
  have hflagged : flagged.Constructed := @Constructed.object _ [(.text "a", .boolean)] .null _
    (List.forall_mem_singleton.mpr .boolean) rfl
  have heither : either.Constructed := @Constructed.union _ [.boolean, .null] .null _
    (List.forall_mem_cons.mpr ⟨.boolean, List.forall_mem_singleton.mpr .null⟩)
    (@makeUnion_of _ [.boolean, .null] none (Nat.le_refl 2)
      (List.pairwise_pair.mpr (by rw [mayOverlap] <;> simp)))
  have hpair : ∀ {P : Field → Prop}, P either → P .boolean → P .null → either.Everywhere P :=
    fun h hb hn => everywhere_of h (List.forall_mem_cons.mpr
      ⟨everywhere_leaf hb rfl, List.forall_mem_singleton.mpr (everywhere_leaf hn rfl)⟩)
  have hcontract : Schema.ofDocument {} (.object [entry "a" (.text "boolean")]) =
      .ok { version := 1, root := flagged } := by
    have hroot : Field.ofDocument "$" (.object [entry "a" (.text "boolean")]) = .ok flagged := by
      rw [ofDocument]
      show (ofEntries "$" [entry "a" (.text "boolean")] >>= fun fields =>
        makeObject fields .null) = .ok flagged
      rw [entry, ofEntries, ofEntries, ofDocument]
      rfl
    unfold Schema.ofDocument
    rw [hroot]
    rfl
  have hjson : ∀ {s : Scalar}, (Value.scalar s).Checked →
      (Value.object [entry "a" (.scalar s)]).IsJson := fun h =>
    Value.isJson_object.mpr ⟨List.pairwise_singleton _ _,
      List.forall_mem_singleton.mpr ⟨⟨"a", rfl⟩, Value.isJson_scalar h⟩⟩
  have haccepts : Accepts files {} (.validate "schema.json" "data.json" false) :=
    accepts_validate.mpr ⟨_, _, .object [entry "a" (.bool true)], rfl, hcontract, rfl, rfl⟩
  refine ⟨?_, ?_, ?_⟩
  · exact lenient_forgives.1 flagged hflagged (everywhere_object trivial
      (List.forall_mem_singleton.mpr (everywhere_leaf trivial rfl))) v rfl true .root
  · exact lenient_forgives.2.1 Email.exclusive either heither (hpair trivial trivial trivial)
      (hpair trivial trivial trivial) (.bool true) rfl true false .root rfl
  · exact lenient_forgives.2.2 Email.exclusive files {} "schema.json" "data.json"
      (.object [entry "a" (.text "boolean")]) (.object [entry "a" (.bool true)])
      rfl (hjson rfl) rfl (hjson rfl) haccepts

end Command
end Lineage
