import Lineage.Format.Email
import Lineage.Proofs.Command.Leniency
import Lineage.Proofs.Field.Refusal

/-
Commands answer schema files that they cannot use.

A schema document is refused for its version or as the document of its root.  A command that
comes to such a file stops there and says so, as long as the document can be used at all; a
document whose options cannot be used ends the command without an answer.
-/

namespace Lineage

open Lineage.Field Outcome

namespace Schema

/-- The document of the root that a schema document has, or is. -/
def rootPart (d : Value) : Value :=
  match parts? d with
  | some (_, _, root) => root
  | none => d

theorem make_complains (version name strict unambiguous predecessor : Value) (root : FieldArg) :
    (make version root name strict unambiguous predecessor).Complains := by
  unfold make
  split
  · exact define_complains _
  · split
    · exact define_complains _
    · split
      · split
        · exact failsOnly_ok _
        · exact define_complains _
      · split
        · exact failsOnly_ok _
        · exact define_complains _

theorem isJson_rootPart {d : Value} (hd : d.IsJson) : (rootPart d).IsJson := by
  unfold rootPart
  split
  · next hparts => exact isJson_of_parts? hd hparts
  · exact hd

variable [Externals]

/-- A schema document whose root can be used describes a schema, or is refused by a complaint. -/
theorem ofDocument_complains {settings : Settings} {d : Value} (hd : d.IsJson)
    (husable : Usable (rootPart d)) : (ofDocument settings d).Complains := by
  have hroot : (Field.ofDocument "$" (rootPart d)).Complains :=
    Field.ofDocument_complains (isJson_rootPart hd) husable
  unfold rootPart at hroot
  unfold ofDocument
  split
  · next hparts =>
    rw [hparts] at hroot
    exact hroot.bind fun _ _ => make_complains _ _ _ _ _ _
  · next hparts =>
    rw [hparts] at hroot
    split
    · exact define_complains _
    · exact hroot.bind fun _ _ => make_complains _ _ _ _ _ _

end Schema

namespace Command

/-- The schema files that a command reads, in their order. -/
def schemas : Command → List String
  | validate schema _ _ => [schema]
  | describe schema => [schema]
  | compare source destination => [source, destination]
  | sample schema _ _ => [schema]
  | version => []

variable {s : Surroundings} {settings : Settings} {file : String} {d : Value}

theorem read_of_lookup {contents : String} (hfile : s.files.lookup file = some contents)
    (hcontents : Json.read (Json.withoutMark contents) = .ok d) : read s file = .ok d := by
  rw [read, hfile]
  simp only [hcontents]

section

variable [Externals]

/-- A complaint about a document is reported with the name of its file; a fault ends the
command. -/
theorem readSchema_of_error {e : Error} (hd : read s file = .ok d)
    (h : Schema.ofDocument settings d = .error e) :
    readSchema s settings file = .error
      (if e.isOwn then Answer.complaint 1 s!"Invalid schema document {file}: {e.text}"
        else Answer.crash e) := by
  simp only [readSchema, hd, bind, Except.bind, h]
  cases e.isOwn <;> rfl

/-- A command ends at the first of its schema files that gives no schema. -/
theorem perform_stops {c : Command} {before after : List String} {answer : Answer}
    (hfiles : c.schemas = before ++ file :: after)
    (hbefore : ∀ other ∈ before, ∃ t, readSchema s settings other = .ok t)
    (h : readSchema s settings file = .error answer) : perform s settings c = .error answer := by
  have hsingle : ∀ {schema : String} {before : List String},
      [schema] = before ++ file :: after → schema = file := by
    intro schema before heq
    cases before with
    | nil => exact (List.cons.inj heq).1
    | cons other rest => cases rest <;> cases heq
  cases c with
  | validate schema data lenient =>
    obtain rfl := hsingle hfiles
    rw [perform, validateFiles, h]
    rfl
  | describe schema =>
    obtain rfl := hsingle hfiles
    rw [perform, h]
    rfl
  | sample schema count target =>
    obtain rfl := hsingle hfiles
    rw [perform, h]
    rfl
  | compare source destination =>
    rw [perform]
    cases before with
    | nil =>
      obtain ⟨rfl, -⟩ := List.cons.inj hfiles
      rw [h]
      rfl
    | cons other rest =>
      obtain ⟨hsource, hrest⟩ := List.cons.inj hfiles
      obtain ⟨t, ht⟩ := hbefore other List.mem_cons_self
      have hdestination : destination = file := hsingle hrest
      rw [hsource, ht, hdestination, h]
      rfl
  | version => cases before <;> cases hfiles

/-- A JSON document that can be used describes a field or a schema, or is refused by a complaint
about the definition and by no other error.  A command answers the first of its schema files
that is refused by saying so, with the complaint. -/
theorem unusable_refused {d : Value} (hd : d.IsJson) :
    (∀ at_ : String, Usable d → (Field.ofDocument at_ d).Complains) ∧
    ∀ settings : Settings, Usable (Schema.rootPart d) →
      (Schema.ofDocument settings d).Complains ∧
      ∀ (s : Surroundings) (c : Command) (before after : List String) (file : String),
        c.schemas = before ++ file :: after →
        (∀ other ∈ before, ∃ t, readSchema s settings other = .ok t) →
        read s file = .ok d → ¬(Schema.ofDocument settings d).Returns →
        ∃ e : DefinitionError, Schema.ofDocument settings d = .error (.definition e) ∧
          perform s settings c = .error
            (Answer.complaint 1 s!"Invalid schema document {file}: {(Error.definition e).text}") := by
  refine ⟨fun _ husable => Field.ofDocument_complains hd husable, fun settings husable => ?_⟩
  have hcomplains : (Schema.ofDocument settings d).Complains :=
    Schema.ofDocument_complains hd husable
  refine ⟨hcomplains, fun s c before after file hfiles hbefore hread hfails => ?_⟩
  cases hschema : Schema.ofDocument settings d with
  | ok t => exact (hfails ⟨t, hschema⟩).elim
  | error e =>
    obtain ⟨e, rfl⟩ := hcomplains e hschema
    exact ⟨e, rfl, perform_stops hfiles hbefore (readSchema_of_error hread hschema)⟩

/-- The document of an object without names, with what it gives as the required ones. -/
def emptyRequiring (required : Value) : Value :=
  tagged .object [entry "fields" (.object []), entry "required" required]

omit [Externals] in
theorem isJson_emptyRequiring {required : Value} (h : required.IsJson) :
    (emptyRequiring required).IsJson := by
  refine Value.isJson_object.mpr ⟨?_, ?_⟩
  · simp [Entries.Distinct, Tag.key, entry]
  · have hfields : (Value.object []).IsJson :=
      Value.isJson_object.mpr ⟨List.Pairwise.nil, List.forall_mem_nil _⟩
    exact List.forall_mem_cons.mpr ⟨⟨⟨_, rfl⟩, Value.isJson_scalar rfl⟩,
      List.forall_mem_cons.mpr ⟨⟨⟨_, rfl⟩, hfields⟩,
        List.forall_mem_singleton.mpr ⟨⟨_, rfl⟩, h⟩⟩⟩

theorem usable_emptyRequiring {required : Value} (h : UsableNames required) :
    Usable (emptyRequiring required) := by
  have htag : Tag.of? ((Tag.key, .text Tag.object.name) ::
      [entry "fields" (.object []), entry "required" required]) = some .object :=
    of?_tagged (List.forall_mem_cons.mpr ⟨⟨"fields", by decide, rfl⟩,
      List.forall_mem_singleton.mpr ⟨"required", by decide, rfl⟩⟩)
  refine everyDocument_of (fun t ht => ?_) ?_
  · obtain rfl := Option.some.inj (htag.symm.trans ht)
    have hoption : optionOr ((Tag.key, .text Tag.object.name) ::
        [entry "fields" (.object []), entry "required" required]) "required" .null = required := by
      simp [optionOr, Tag.key, entry, Entries.find?]
    show UsableNames (optionOr _ "required" .null)
    rw [hoption]
    exact h
  · have hparts : documentParts (emptyRequiring required) = [] := by
      rw [emptyRequiring, tagged, documentParts, htag]
      simp [taggedParts, Tag.key, entry, Entries.find?]
    rw [hparts]
    exact List.forall_mem_nil _

end

/-- An object that requires a number. -/
theorem unusable_refused_undeclared :
    let d := emptyRequiring (.array [.int 1])
    let s : Surroundings := { files :=
      [("s.json", "\x7b\"$\":\"object\",\"fields\":\x7b\x7d,\"required\":[1]\x7d")] }
    (Field.ofDocument "$" d).Complains ∧ (Schema.ofDocument {} d).Complains ∧
      ∃ e : DefinitionError, Schema.ofDocument {} d = .error (.definition e) ∧
        perform s {} (.describe "s.json") = .error
          (Answer.complaint 1 s!"Invalid schema document s.json: {(Error.definition e).text}") := by
  intro d s
  have hnames : UsableNames (.array [.int 1]) := by
    refine .inr ⟨[.scalar (.number (.int 1))], rfl, fun a ha b hb => ?_⟩
    obtain rfl := List.mem_singleton.mp ha
    obtain rfl := List.mem_singleton.mp hb
    rfl
  have husable : Usable d := usable_emptyRequiring hnames
  have hd : d.IsJson := isJson_emptyRequiring
    (Value.isJson_array.mpr (List.forall_mem_singleton.mpr (Value.isJson_scalar rfl)))
  have hread : read s "s.json" = .ok d := read_of_lookup rfl (by cbv)
  have hroot : Schema.rootPart d = d := rfl
  have hrefused : Schema.ofDocument {} d = .error (.definition (.undeclaredRequired "[1]")) := by
    cbv
  have hfails : ¬(Schema.ofDocument {} d).Returns := by
    rw [hrefused]
    exact Outcome.not_returns_error _
  obtain ⟨hfield, hschema⟩ := unusable_refused hd
  obtain ⟨hcomplains, hanswer⟩ := hschema {} (hroot ▸ husable)
  exact ⟨hfield "$" husable, hcomplains,
    hanswer s (.describe "s.json") [] [] "s.json" rfl (List.forall_mem_nil _) hread hfails⟩

/-- A document that gives a number for the required names is refused by no complaint, and a
command that reads it ends without an answer.  Nor is there a complaint about a number as a
pattern, about an array as a discriminant, or about a default whose length is compared with no
least count. -/
theorem unusable_escapes :
    let d := emptyRequiring (.int 5)
    let s : Surroundings := { files :=
      [("s.json", "\x7b\"$\":\"object\",\"fields\":\x7b\x7d,\"required\":5\x7d")] }
    d.IsJson ∧ Field.ofDocument "$" d = .error Error.badType ∧
      Schema.ofDocument {} d = .error Error.badType ∧
      perform s {} (.describe "s.json") = .error (Answer.crash Error.badType) ∧
      Field.ofDocument "$" (tagged .string [entry "pattern" (.int 5)]) = .error Error.badType ∧
      Field.ofDocument "$" (tagged .union [entry "variants" (.array [.object [], .object []]),
        entry "discriminant" (.array [])]) = .error Error.badType ∧
      Field.ofDocument "$" (tagged .defaulted [entry "type" (arrayOfAny .null),
        entry "default" (.array [])]) = .error Error.badType := by
  intro d s
  have hread : read s "s.json" = .ok d := read_of_lookup rfl (by cbv)
  have hschema : Schema.ofDocument {} d = .error Error.badType := by cbv
  have hcrash : perform s {} (.describe "s.json") = .error (Answer.crash Error.badType) :=
    perform_stops (List.nil_append _).symm (List.forall_mem_nil _)
      (readSchema_of_error hread hschema)
  refine ⟨isJson_emptyRequiring (Value.isJson_scalar rfl), ?_, hschema, hcrash, ?_, ?_, ?_⟩
  all_goals cbv

end Command
end Lineage
