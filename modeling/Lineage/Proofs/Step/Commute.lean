import Lineage.Format.Email
import Lineage.Proofs.Change.Commute
import Lineage.Proofs.Step.Lasting

/-
Steps whose paths part at an object commute.

In either order they make the same value of a value and the same tree of a field tree, down to
the order of keys and to the defaults.  A comparison of the two trees therefore finds no more
than it finds between that tree and itself, which is nothing unless there is a NaN in it.
-/

namespace Lineage
namespace Step

open Lineage.Field

section

variable [Externals]

/-- Let the paths of two steps be the same up to some container, and go on from there with
different keys.  Where the steps can be made one after the other, to a value or to a field tree,
they can be made the other way round with the same result.  A comparison of the trees that both
orders make finds nothing if there is no NaN in them. -/
theorem apart_commute {s t : Step} {pre rest rest' : List Segment} {a b : String}
    (hs : s.path.segments = pre ++ .key a :: rest) (ht : t.path.segments = pre ++ .key b :: rest')
    (ha : PlainKey a) (hb : PlainKey b) (hne : a ≠ b) :
    (∀ v x w, s.apply v none = .ok x → t.apply x none = .ok w →
      ∃ y, t.apply v none = .ok y ∧ s.apply y none = .ok w) ∧
    ∀ f left both, f.Constructed → s.transformField f = .ok left →
      t.transformField left = .ok both →
      ∃ right, t.transformField f = .ok right ∧ s.transformField right = .ok both ∧
        (f.Everywhere HasProperAttributes → s.Orderly → t.Orderly → both.Everywhere WithoutNaN →
          ∀ path, compareAt path both both = []) := by
  refine ⟨fun v x w hx hw => ?_, fun f left both hf hleft hboth => ?_⟩
  · unfold apply at hx hw ⊢
    rw [hs] at hx ⊢
    rw [ht] at hw ⊢
    exact Change.onValueAt_commutes ha hne hx hw
  · have hswaps : Change.Swaps s.change t.change s.path.segments t.path.segments f := by
      rw [hs, ht]
      exact Change.onFieldAt_swaps hf.sound ha hb hne
    obtain ⟨right, hright, hback, -⟩ := hswaps .root left both hleft hboth
    refine ⟨right, hright, hback, fun hproper hsteps hsteps' hreal path => ?_⟩
    have horderly : both.Everywhere Field.Orderly :=
      hsteps'.transformField (hsteps.transformField (Built.orderly ⟨hf, hproper⟩) hleft) hboth
    exact (matches_self horderly hreal).compareAt_eq_nil path

end

/-- Names are changed under two keys of each item of a list that is a default. -/
theorem apart_commute_renames :
    let part : String → Field := fun name => .object (Member.derived [(name, .boolean)])
    let item : String → String → Field := fun p q =>
      .object (Member.derived [("a", part p), ("b", part q)])
    let value : String → String → Value := fun p q => .object
      [(.text "b", .object [(.text q, .bool true)]), (.text "a", .object [(.text p, .bool false)])]
    let f : String → String → Field := fun p q => .object (Member.derived
      [("on", .defaulted (.tuple [item p q]) (.array [value p q]))])
    let v : String → String → Value := fun p q =>
      .object [(.text "on", .array [value p q, value p q])]
    let s : Step := .rename ⟨[.key "on", .wildcard, .key "a"]⟩ (.text "p") (.text "p2")
    let t : Step := .rename ⟨[.key "on", .wildcard, .key "b"]⟩ (.text "q") (.text "q2")
    PlainKey "a" ∧ PlainKey "b" ∧ (f "p" "q").Constructed ∧
      s.apply (v "p" "q") none = .ok (v "p2" "q") ∧ t.apply (v "p2" "q") none = .ok (v "p2" "q2") ∧
      s.transformField (f "p" "q") = .ok (f "p2" "q") ∧
      t.transformField (f "p2" "q") = .ok (f "p2" "q2") ∧
      (∃ y, t.apply (v "p" "q") none = .ok y ∧ s.apply y none = .ok (v "p2" "q2")) ∧
      (∃ right, t.transformField (f "p" "q") = .ok right ∧
        s.transformField right = .ok (f "p2" "q2")) ∧
      compareAt .root (f "p2" "q2") (f "p2" "q2") = [] := by
  intro part item value f v s t
  have hpart : ∀ name, (part name).Constructed := fun name =>
    @Constructed.object _ [(.text name, .boolean)] .null _
      (List.forall_mem_singleton.mpr .boolean) rfl
  have hitem : (item "p" "q").Constructed :=
    @Constructed.object _ [(.text "a", part "p"), (.text "b", part "q")] .null _
      (List.forall_mem_cons.mpr ⟨hpart _, List.forall_mem_singleton.mpr (hpart _)⟩) rfl
  have hdistinct : (value "p" "q").KeysDistinct := by
    have hone : ∀ name b, (Value.object [(.text name, .bool b)]).KeysDistinct := fun name b =>
      .object (List.pairwise_singleton _ _) (List.forall_mem_singleton.mpr (.scalar _))
    exact .object (List.pairwise_cons.mpr ⟨List.forall_mem_singleton.mpr rfl,
        List.pairwise_singleton _ _⟩)
      (List.forall_mem_cons.mpr ⟨hone _ _, List.forall_mem_singleton.mpr (hone _ _)⟩)
  have hf : (f "p" "q").Constructed :=
    @Constructed.object _ [(.text "on", .defaulted _ (.array [value "p" "q"]))] .null _
      (List.forall_mem_singleton.mpr (.defaulted
        (.tuple (List.forall_mem_singleton.mpr hitem) rfl)
        (.array (List.forall_mem_singleton.mpr hdistinct)) rfl)) rfl
  have hall : ∀ {P : Field → Prop} p q, (∀ members, P (.object members)) → (∀ fs, P (.tuple fs)) →
      (∀ g w, P (.defaulted g w)) → P .boolean → (f p q).Everywhere P := by
    intro P p q hobject htuple hdefaulted hboolean
    have hpart : ∀ name, (part name).Everywhere P := fun name => everywhere_object (hobject _)
      (List.forall_mem_singleton.mpr (everywhere_leaf hboolean rfl))
    have hitem : (item p q).Everywhere P := everywhere_object (hobject _)
      (List.forall_mem_cons.mpr ⟨hpart p, List.forall_mem_singleton.mpr (hpart q)⟩)
    exact everywhere_object (hobject _) (List.forall_mem_singleton.mpr
      (everywhere_defaulted (hdefaulted _ _)
        (everywhere_of (htuple _) (List.forall_mem_singleton.mpr hitem))))
  have ha : PlainKey "a" := ⟨by decide, rfl⟩
  have hb : PlainKey "b" := ⟨by decide, rfl⟩
  have horderly : ∀ path old new, (Step.rename path old new).Orderly := fun _ _ _ =>
    ⟨⟨trivial, nofun⟩, nofun⟩
  have hx : s.apply (v "p" "q") none = .ok (v "p2" "q") := rfl
  have hw : t.apply (v "p2" "q") none = .ok (v "p2" "q2") := rfl
  have hleft : s.transformField (f "p" "q") = .ok (f "p2" "q") := rfl
  have hboth : t.transformField (f "p2" "q") = .ok (f "p2" "q2") := rfl
  have hs : s.path.segments = [.key "on", .wildcard] ++ .key "a" :: [] := rfl
  have ht : t.path.segments = [.key "on", .wildcard] ++ .key "b" :: [] := rfl
  obtain ⟨hvalues, htrees⟩ := apart_commute hs ht ha hb (by decide)
  obtain ⟨right, hright, hback, hsame⟩ := htrees _ _ _ hf hleft hboth
  refine ⟨ha, hb, hf, hx, hw, hleft, hboth, hvalues _ _ _ hx hw, ⟨right, hright, hback⟩, ?_⟩
  exact hsame (hall "p" "q" (fun _ => trivial) (fun _ => trivial) (fun _ _ => trivial) trivial)
    (horderly _ _ _) (horderly _ _ _)
    (hall "p2" "q2" (fun _ => trivial) (fun _ => trivial) (fun _ _ => trivial) trivial) .root

/-- Both orders give the same tree with NaN for a bound, and a comparison finds a difference
between it and itself. -/
theorem apart_commute_nan :
    let bound : Field := .number (some (.float .nan)) none (.bool false)
    let s : Step := .add ⟨[.key "a"]⟩ (.text "x") .any .null
    let t : Step := .add ⟨[.key "b"]⟩ (.text "y") .any .null
    let f : List (String × Field) → List (String × Field) → Field := fun inA inB =>
      .object (Member.derived [("a", .object (Member.derived inA)),
        ("b", .object (Member.derived inB)), ("z", bound)])
    let both : Field := f [("x", .any)] [("y", .any)]
    PlainKey "a" ∧ PlainKey "b" ∧ (f [] []).Constructed ∧
      s.transformField (f [] []) = .ok (f [("x", .any)] []) ∧
      t.transformField (f [("x", .any)] []) = .ok both ∧
      t.transformField (f [] []) = .ok (f [] [("y", .any)]) ∧
      s.transformField (f [] [("y", .any)]) = .ok both ∧ compareAt .root both both ≠ [] := by
  intro bound s t f both
  have hbound : bound.Constructed :=
    @Constructed.number _ (.number (.float .nan)) .null (.bool false) _ rfl
  have hempty : (Field.object []).Constructed := @Constructed.object _ [] .null _ nofun rfl
  have hf : (f [] []).Constructed :=
    @Constructed.object _ [(.text "a", .object []), (.text "b", .object []), (.text "z", bound)]
      .null _ (List.forall_mem_cons.mpr ⟨hempty, List.forall_mem_cons.mpr
        ⟨hempty, List.forall_mem_singleton.mpr hbound⟩⟩) rfl
  exact ⟨⟨by decide, rfl⟩, ⟨by decide, rfl⟩, hf, rfl, rfl, rfl, rfl, List.cons_ne_nil _ _⟩

end Step
end Lineage
