import Lineage.Format.Email
import Lineage.Proofs.Change.Defaults
import Lineage.Proofs.Step.Lockstep

/-
Steps change defaults as they change documents that spell them out.

A step on keys takes no null, and a conversion does not look through the default at the end of
its path.  So what a step leaves of a default in a field tree is what it leaves of the same
value in a document, and the new default conforms to the field that it stands for.
-/

namespace Lineage
namespace Step

open Lineage.Field

variable {s : Step} {keys rest : List Segment} {f f' inner : Field} {value v w : Value}

theorem change_refusesNull (hthrough : s.through = true) : s.change.RefusesNull :=
  onValue_null_ne_ok hthrough

section

variable [Externals]

/-- Let a field tree have a default under some keys, and let a step that can be made to the tree
go through these keys, to end behind them unless it converts values.  A document that has the
default itself under these keys has the new default there after the step, and that default
conforms to the new field inside. -/
theorem default_follows_documents (hpath : s.path.segments = keys ++ rest)
    (hlook : rest ≠ [] ∨ s.through = true)
    (hfield : f.under? keys = some (.defaulted inner value))
    (htransform : s.transformField f = .ok f') (hvalue : v.under? keys = some value)
    (happly : s.apply v (some f) = .ok w) :
    ∃ inner' value', f'.under? keys = some (.defaulted inner' value') ∧
      w.under? keys = some value' ∧ inner'.check {} value' = .ok [] := by
  have hlook : s.change.LooksThrough rest := hlook
  unfold transformField at htransform
  unfold apply at happly
  rw [hpath] at htransform happly
  obtain ⟨g', hg', hafter⟩ := Change.onFieldAt_under hfield htransform
  obtain ⟨inner', value', hinner, hcheck, rfl⟩ := Change.onFieldAt_defaulted hlook hg'
  obtain ⟨u', hu', hleft⟩ := Change.onValueAt_under hfield hvalue happly
  obtain rfl := Change.onValueAt_defaulted hlook change_refusesNull hinner hu'
  exact ⟨inner', u', hafter, hleft, hcheck⟩

end

/-- Null is passed over in one item of a default, and a key is renamed in the other. -/
theorem default_follows_documents_items :
    let item : String → Field := fun name => .optional (.object (Member.derived [(name, .any)]))
    let items : String → Field := fun name => .tuple [item name, item name]
    let value : String → Value := fun name =>
      .array [.null, .object [(.text name, .bool true)]]
    let f : String → Field := fun name =>
      .object (Member.derived [("s", .optional (.object (Member.derived
        [("k", .defaulted (items name) (value name))])))])
    let v : String → Value := fun name =>
      .object [(.text "s", .object [(.text "k", value name)])]
    let s : Step := .rename ⟨[.key "s", .key "k", .wildcard]⟩ (.text "a") (.text "b")
    s.transformField (f "a") = .ok (f "b") ∧ s.apply (v "a") (some (f "a")) = .ok (v "b") ∧
      ∃ inner' value', (f "b").under? [.key "s", .key "k"] = some (.defaulted inner' value') ∧
        (v "b").under? [.key "s", .key "k"] = some value' ∧ inner'.check {} value' = .ok [] := by
  intro item items value f v s
  have htransform : s.transformField (f "a") = .ok (f "b") := rfl
  have happly : s.apply (v "a") (some (f "a")) = .ok (v "b") := rfl
  have hfield : (f "a").under? [.key "s", .key "k"] = some (.defaulted (items "a") (value "a")) :=
    rfl
  have hpath : s.path.segments = [.key "s", .key "k"] ++ [.wildcard] := rfl
  exact ⟨htransform, happly, default_follows_documents hpath (.inl (List.cons_ne_nil _ _)) hfield
    htransform rfl happly⟩

end Step
end Lineage
