import Lineage.Field.Overlap
import Lineage.Proofs.Field.Attributes
import Lineage.Proofs.Field.Members
import Lineage.Proofs.Validation.Parts

/-
What the analysis of overlaps answers.

The analysis goes down two trees at once, and `overlapInduction` has a case for every
way in which it does.  Held against a literal, a field may fail to say whether it accepts
it, and then the analysis fails, if it comes to that question at all.  `overlaps` is the
answer apart from such failures: the analysis gives no other, and where patterns are texts
it gives this one.
-/

namespace Lineage
namespace Field

open Validation

variable {f g : Field}

/-! ## Layers -/

/-- Neither a custom check nor a field with a default. -/
def IsBare : Field → Prop
  | custom _ _ | defaulted _ _ => False
  | _ => True

/-- Bare, and not optional. -/
def IsPresent : Field → Prop
  | custom _ _ | defaulted _ _ | optional _ => False
  | _ => True

/-- Neither a wrapper nor a union nor a custom check. -/
def IsPlain : Field → Prop
  | custom _ _ | defaulted _ _ | optional _ | union _ _ => False
  | _ => True

/-- Plain, and not open to anything. -/
def IsBasic : Field → Prop
  | custom _ _ | defaulted _ _ | optional _ | union _ _ | any => False
  | _ => True

theorem IsPlain.present (h : f.IsPlain) : f.IsPresent := by
  cases f with
  | custom | defaulted | optional | union => cases h
  | _ => trivial

/-- The one kind of value that a field of its own kind accepts. -/
def ownKind? : Field → Option Kind
  | string _ _ _ _ => some .string
  | number _ _ _ => some .number
  | boolean => some .boolean
  | null => some .null
  | array _ _ _ | tuple _ => some .array
  | object _ => some .object
  | any | literal _ | optional _ | defaulted _ _ | union _ _ | custom _ _ => none

theorem IsBasic.literal_or_ownKind (h : f.IsBasic) :
    (∃ a, f = .literal a) ∨ ∃ kind, f.ownKind? = some kind := by
  cases f with
  | custom | defaulted | optional | union | any => cases h
  | literal a => exact .inl ⟨a, rfl⟩
  | _ => exact .inr ⟨_, rfl⟩

theorem IsBasic.plain (h : f.IsBasic) : f.IsPlain := by
  cases f with
  | custom | defaulted | optional | union => cases h
  | _ => trivial

theorem basic_of_ownKind {kind : Kind} (h : f.ownKind? = some kind) : f.IsBasic := by
  cases f with
  | custom | defaulted | optional | union | any => cases h
  | _ => trivial

theorem IsPlain.any_or_basic (h : f.IsPlain) : f = .any ∨ f.IsBasic := by
  cases f with
  | custom | defaulted | optional | union => cases h
  | any => exact .inl rfl
  | _ => exact .inr trivial

theorem sizeOf_child_lt {k : Field} (hk : k ∈ f.children) : sizeOf k < sizeOf f := by
  cases f with
  | array | optional | defaulted =>
    obtain rfl := List.mem_singleton.mp hk
    simp only [array.sizeOf_spec, optional.sizeOf_spec, defaulted.sizeOf_spec]
    omega
  | tuple items =>
    have hlt : sizeOf k < sizeOf items := List.sizeOf_lt_of_mem hk
    simp only [tuple.sizeOf_spec]
    omega
  | union variants key =>
    have hlt : sizeOf k < sizeOf variants := List.sizeOf_lt_of_mem hk
    simp only [union.sizeOf_spec]
    omega
  | object members =>
    obtain ⟨m, hm, rfl⟩ := List.mem_map.mp hk
    have hlt := sizeOf_member_lt hm
    simp only [object.sizeOf_spec]
    omega
  | string | number | boolean | null | any | literal | custom => cases hk

/-! ## Induction -/

/-- Induction along the analysis of two fields. -/
@[elab_as_elim]
theorem overlapInduction {motive : Field → Field → Prop}
    (custom_left : ∀ check name g, motive (.custom check name) g)
    (custom_right : ∀ f check name, motive f (.custom check name))
    (defaulted_left : ∀ inner value g, motive inner g → motive (.defaulted inner value) g)
    (defaulted_right : ∀ f inner value, motive f inner → motive f (.defaulted inner value))
    (optional_left : ∀ inner g, g.IsBare → motive inner g → motive (.optional inner) g)
    (optional_right : ∀ f inner, f.IsPresent → motive inner f → motive f (.optional inner))
    (union_left : ∀ variants key g, g.IsPresent → (∀ v ∈ variants, motive v g) →
      motive (.union variants key) g)
    (union_right : ∀ f variants key, f.IsPlain → (∀ v ∈ variants, motive v f) →
      motive f (.union variants key))
    (any_left : ∀ g, g.IsPlain → motive .any g)
    (any_right : ∀ f, f.IsBasic → motive f .any)
    (literal_left : ∀ a g, g.IsBasic → motive (.literal a) g)
    (literal_right : ∀ f b kind, f.ownKind? = some kind → motive f (.literal b))
    (string : ∀ minA maxA patternA formatA minB maxB patternB formatB,
      motive (.string minA maxA patternA formatA) (.string minB maxB patternB formatB))
    (number : ∀ minA maxA wholeA minB maxB wholeB,
      motive (.number minA maxA wholeA) (.number minB maxB wholeB))
    (boolean : motive .boolean .boolean) (null : motive .null .null)
    (object : ∀ a b, (∀ m ∈ a, ∀ n ∈ b, motive m.field n.field) →
      motive (.object a) (.object b))
    (array : ∀ elementA minA maxA elementB minB maxB, motive elementA elementB →
      motive (.array elementA minA maxA) (.array elementB minB maxB))
    (tuple : ∀ a b, (∀ f ∈ a, ∀ g ∈ b, motive f g) → motive (.tuple a) (.tuple b))
    (tuple_array : ∀ items element minItems maxItems, (∀ f ∈ items, motive f element) →
      motive (.tuple items) (.array element minItems maxItems))
    (array_tuple : ∀ element minItems maxItems items, (∀ f ∈ items, motive f element) →
      motive (.array element minItems maxItems) (.tuple items))
    (apart : ∀ f g kind kind', f.ownKind? = some kind → g.ownKind? = some kind' →
      kind ≠ kind' → motive f g) (f g : Field) : motive f g := by
  induction hn : sizeOf f + sizeOf g using Nat.strongRecOn generalizing f g with
  | ind n ih =>
    subst hn
    replace ih : ∀ k l, sizeOf k + sizeOf l < sizeOf f + sizeOf g → motive k l :=
      fun k l hlt => ih _ hlt k l rfl
    have hleft : ∀ k ∈ f.children, motive k g := fun k hk => by
      have := sizeOf_child_lt hk
      exact ih k g (by omega)
    have hright : ∀ k ∈ g.children, motive f k ∧ motive k f := fun k hk => by
      have := sizeOf_child_lt hk
      exact ⟨ih f k (by omega), ih k f (by omega)⟩
    have hboth : ∀ k ∈ f.children, ∀ l ∈ g.children, motive k l ∧ motive l k := by
      intro k hk l hl
      have := sizeOf_child_lt hk
      have := sizeOf_child_lt hl
      exact ⟨ih k l (by omega), ih l k (by omega)⟩
    -- Two fields of one kind each are compared only if the kinds are equal.
    have hkinds : ∀ kind kind', f.ownKind? = some kind → g.ownKind? = some kind' →
        motive f g := by
      intro kind kind' hf hg
      by_cases hne : kind = kind'
      swap
      · exact apart f g kind kind' hf hg hne
      subst hne
      cases f with
      | string => cases hf; cases g with
        | string => exact string _ _ _ _ _ _ _ _
        | _ => cases hg
      | number => cases hf; cases g with
        | number => exact number _ _ _ _ _ _
        | _ => cases hg
      | boolean => cases hf; cases g with
        | boolean => exact boolean
        | _ => cases hg
      | null => cases hf; cases g with
        | null => exact null
        | _ => cases hg
      | array element => cases hf; cases g with
        | array element' =>
          exact array _ _ _ _ _ _ (hboth _ List.mem_cons_self _ List.mem_cons_self).1
        | tuple items =>
          exact array_tuple _ _ _ _ fun k hk => (hboth _ List.mem_cons_self k hk).2
        | _ => cases hg
      | tuple items => cases hf; cases g with
        | array element =>
          exact tuple_array _ _ _ _ fun k hk => (hboth k hk _ List.mem_cons_self).1
        | tuple => exact tuple _ _ fun k hk l hl => (hboth k hk l hl).1
        | _ => cases hg
      | object => cases hf; cases g with
        | object => exact object _ _ fun m hm n hn =>
            (hboth _ (List.mem_map_of_mem hm) _ (List.mem_map_of_mem hn)).1
        | _ => cases hg
      | _ => cases hf
    -- A plain field on the left leaves it to the field on the right how to go on.
    have hplain : f.IsPlain → motive f g := by
      intro hf
      have hg : g.IsPlain → motive f g := by
        intro hg
        rcases hf.any_or_basic with rfl | hfbasic
        · exact any_left g hg
        rcases hg.any_or_basic with rfl | hgbasic
        · exact any_right f hfbasic
        rcases hfbasic.literal_or_ownKind with ⟨a, rfl⟩ | ⟨kind, hkind⟩
        · exact literal_left a g hgbasic
        rcases hgbasic.literal_or_ownKind with ⟨b, rfl⟩ | ⟨kind', hkind'⟩
        · exact literal_right f b kind hkind
        exact hkinds kind kind' hkind hkind'
      cases g with
      | custom check name => exact custom_right f check name
      | defaulted inner value => exact defaulted_right f inner value (hright _ List.mem_cons_self).1
      | optional inner =>
        exact optional_right f inner hf.present (hright _ List.mem_cons_self).2
      | union variants key => exact union_right f variants key hf fun v hv => (hright v hv).2
      | _ => exact hg trivial
    cases f with
    | custom check name => exact custom_left check name g
    | defaulted inner value => exact defaulted_left inner value g (hleft _ List.mem_cons_self)
    | optional inner => cases g with
      | custom check name => exact custom_right _ check name
      | defaulted inner' value =>
        exact defaulted_right _ inner' value (hright _ List.mem_cons_self).1
      | _ => exact optional_left inner _ trivial (hleft _ List.mem_cons_self)
    | union variants key => cases g with
      | custom check name => exact custom_right _ check name
      | defaulted inner value =>
        exact defaulted_right _ inner value (hright _ List.mem_cons_self).1
      | optional inner =>
        exact optional_right _ inner trivial (hright _ List.mem_cons_self).2
      | _ => exact union_left variants key _ trivial hleft
    | _ => exact hplain trivial

/-! ## The analysis step by step -/

variable [Externals]

theorem mayOverlap_custom_left (check : AuthorFn) (name : Value) (g : Field) :
    mayOverlap (.custom check name) g = .ok false := by
  rw [mayOverlap]

theorem mayOverlap_custom_right (f : Field) (check : AuthorFn) (name : Value) :
    mayOverlap f (.custom check name) = .ok false := by
  cases f <;> rw [mayOverlap] <;> simp

theorem mayOverlap_defaulted_left (inner : Field) (value : Value) (g : Field) :
    mayOverlap (.defaulted inner value) g = mayOverlap inner g := by
  cases g with
  | custom check name => rw [mayOverlap_custom_right, mayOverlap_custom_right]
  | _ => rw [mayOverlap]; simp

theorem mayOverlap_defaulted_right (f inner : Field) (value : Value) :
    mayOverlap f (.defaulted inner value) = mayOverlap f inner := by
  induction f with
  | custom check name => rw [mayOverlap_custom_left, mayOverlap_custom_left]
  | defaulted outer _ ih => rw [mayOverlap_defaulted_left, mayOverlap_defaulted_left, ih]
  | _ => rw [mayOverlap] <;> simp

theorem mayOverlap_optional_left (inner : Field) (hg : g.IsBare) :
    mayOverlap (.optional inner) g =
      if g.mayAccept .null then .ok true else mayOverlap inner g := by
  cases g with
  | custom | defaulted => cases hg
  | _ => rw [mayOverlap] <;> simp

theorem mayOverlap_optional_right (hf : f.IsPresent) (inner : Field) :
    mayOverlap f (.optional inner) =
      if f.mayAccept .null then .ok true else mayOverlap inner f := by
  cases f with
  | custom | defaulted | optional => cases hf
  | _ => rw [mayOverlap] <;> simp

theorem mayOverlap_union_left (variants : List Field) (key : Option String) (hg : g.IsPresent) :
    mayOverlap (.union variants key) g = anyMayOverlap variants g := by
  cases g with
  | custom | defaulted | optional => cases hg
  | _ => rw [mayOverlap] <;> simp

theorem mayOverlap_union_right (hf : f.IsPlain) (variants : List Field) (key : Option String) :
    mayOverlap f (.union variants key) = anyMayOverlap variants f := by
  cases f with
  | custom | defaulted | optional | union => cases hf
  | _ => rw [mayOverlap] <;> simp

theorem mayOverlap_any_left (hg : g.IsPlain) : mayOverlap .any g = .ok true := by
  cases g with
  | custom | defaulted | optional | union => cases hg
  | _ => rw [mayOverlap] <;> simp

theorem mayOverlap_any_right (hf : f.IsBasic) : mayOverlap f .any = .ok true := by
  cases f with
  | custom | defaulted | optional | union | any => cases hf
  | _ => rw [mayOverlap] <;> simp

theorem mayOverlap_literal_left (a : Scalar) (hg : g.IsBasic) :
    mayOverlap (.literal a) g = g.acceptsScalar a := by
  cases g with
  | custom | defaulted | optional | union | any => cases hg
  | _ => rw [mayOverlap] <;> simp

theorem mayOverlap_literal_right {kind : Kind} (hf : f.ownKind? = some kind) (b : Scalar) :
    mayOverlap f (.literal b) = f.acceptsScalar b := by
  cases f with
  | custom | defaulted | optional | union | any | literal => cases hf
  | _ => rw [mayOverlap] <;> simp

theorem mayOverlap_apart {kind kind' : Kind} (hf : f.ownKind? = some kind)
    (hg : g.ownKind? = some kind') (hne : kind ≠ kind') : mayOverlap f g = .ok false := by
  have hown : f.ownKind? ≠ g.ownKind? := by
    rw [hf, hg]
    exact fun heq => hne (Option.some.inj heq)
  -- each case before the last has a wrapper, a literal, or the same kind on both sides
  rw [mayOverlap] <;> intros <;> subst_vars <;>
    first | cases hf; done | cases hg; done | exact hown rfl

/-! ## The answer -/

/-- Whether a field accepts a scalar, no where it fails to say. -/
def takes (f : Field) (s : Scalar) : Bool :=
  match f.check {} (.scalar s) with
  | .ok violations => violations.isEmpty
  | .error _ => false

/-- Whether two fields overlap by the rules of the analysis, where a field that fails to
say whether it accepts a literal does not. -/
def overlaps (left right : Field) : Bool :=
  match left, right with
  | .custom _ _, _ => false
  | _, .custom _ _ => false
  | .defaulted inner _, r => overlaps inner r
  | l, .defaulted inner _ => overlaps l inner
  | .optional inner, r => r.mayAccept .null || overlaps inner r
  | l, .optional inner => l.mayAccept .null || overlaps inner l
  | .union variants _, r => variants.attach.any fun v =>
    have := List.sizeOf_lt_of_mem v.2
    overlaps v.1 r
  | l, .union variants _ => variants.attach.any fun v =>
    have := List.sizeOf_lt_of_mem v.2
    overlaps v.1 l
  | .any, _ => true
  | _, .any => true
  | .literal a, r => r.takes a
  | l, .literal b => l.takes b
  | .string minA maxA _ formatA, .string minB maxB _ formatB =>
    !formatsDisjoint formatA formatB && !rangesDisjoint minA maxA minB maxB
  | .number minA maxA _, .number minB maxB _ => !rangesDisjoint minA maxA minB maxB
  | .boolean, .boolean => true
  | .null, .null => true
  | .object a, .object b => a.attach.all fun m =>
    have := sizeOf_member_lt m.2
    match h : Member.find? m.1.name b with
    | some n =>
      have := sizeOf_find_lt h
      !(m.1.required && n.required) || overlaps m.1.field n.field
    | none => true
  | .array elementA minA maxA, .array elementB minB maxB =>
    !rangesDisjoint minA maxA minB maxB &&
      ((isZeroBound minA && isZeroBound minB) || overlaps elementA elementB)
  | .tuple a, .tuple b => a.length == b.length && (a.zip b).attach.all fun p =>
    have hp : p.1.1 ∈ a ∧ p.1.2 ∈ b := List.of_mem_zip p.2
    have := List.sizeOf_lt_of_mem hp.1
    have := List.sizeOf_lt_of_mem hp.2
    overlaps p.1.1 p.1.2
  | .tuple items, .array element minItems maxItems =>
    lengthAllowed items.length minItems maxItems && items.attach.all fun k =>
      have := List.sizeOf_lt_of_mem k.2
      overlaps k.1 element
  | .array element minItems maxItems, .tuple items =>
    lengthAllowed items.length minItems maxItems && items.attach.all fun k =>
      have := List.sizeOf_lt_of_mem k.2
      overlaps k.1 element
  | _, _ => false
termination_by sizeOf left + sizeOf right

/-- Of each name that both objects require the fields overlap. -/
def membersOverlap (a b : List (Member Field)) : Bool :=
  a.all fun m => (Member.find? m.name b).all fun n =>
    !(m.required && n.required) || overlaps m.field n.field

theorem membersOverlap_iff {a b : List (Member Field)} :
    membersOverlap a b = true ↔ ∀ m ∈ a, ∀ n, Member.find? m.name b = some n →
      m.required = true → n.required = true → overlaps m.field n.field = true := by
  have hone : ∀ m n : Member Field,
      (!(m.required && n.required) || overlaps m.field n.field) = true ↔
        (m.required = true → n.required = true → overlaps m.field n.field = true) := by
    intro m n
    cases m.required <;> cases n.required <;> simp
  simp only [membersOverlap, List.all_eq_true, Option.all_eq_true, hone]

theorem overlaps_custom_left (check : AuthorFn) (name : Value) (g : Field) :
    overlaps (.custom check name) g = false := by
  rw [overlaps]

theorem overlaps_custom_right (f : Field) (check : AuthorFn) (name : Value) :
    overlaps f (.custom check name) = false := by
  cases f <;> rw [overlaps] <;> simp

theorem overlaps_defaulted_left (inner : Field) (value : Value) (g : Field) :
    overlaps (.defaulted inner value) g = overlaps inner g := by
  cases g with
  | custom check name => rw [overlaps_custom_right, overlaps_custom_right]
  | _ => rw [overlaps]; simp

theorem overlaps_defaulted_right (f inner : Field) (value : Value) :
    overlaps f (.defaulted inner value) = overlaps f inner := by
  induction f with
  | custom check name => rw [overlaps_custom_left, overlaps_custom_left]
  | defaulted outer _ ih => rw [overlaps_defaulted_left, overlaps_defaulted_left, ih]
  | _ => rw [overlaps] <;> simp

theorem overlaps_optional_left (inner : Field) (hg : g.IsBare) :
    overlaps (.optional inner) g = (g.mayAccept .null || overlaps inner g) := by
  cases g with
  | custom | defaulted => cases hg
  | _ => rw [overlaps] <;> simp

theorem overlaps_optional_right (hf : f.IsPresent) (inner : Field) :
    overlaps f (.optional inner) = (f.mayAccept .null || overlaps inner f) := by
  cases f with
  | custom | defaulted | optional => cases hf
  | _ => rw [overlaps] <;> simp

theorem overlaps_union_left (variants : List Field) (key : Option String) (hg : g.IsPresent) :
    overlaps (.union variants key) g = variants.any fun v => overlaps v g := by
  cases g with
  | custom | defaulted | optional => cases hg
  | _ => rw [overlaps] <;> simp

theorem overlaps_union_right (hf : f.IsPlain) (variants : List Field) (key : Option String) :
    overlaps f (.union variants key) = variants.any fun v => overlaps v f := by
  cases f with
  | custom | defaulted | optional | union => cases hf
  | _ => rw [overlaps] <;> simp

theorem overlaps_any_left (hg : g.IsPlain) : overlaps .any g = true := by
  cases g with
  | custom | defaulted | optional | union => cases hg
  | _ => rw [overlaps] <;> simp

theorem overlaps_any_right (hf : f.IsPlain) : overlaps f .any = true := by
  cases f with
  | custom | defaulted | optional | union => cases hf
  | _ => rw [overlaps] <;> simp

theorem overlaps_literal_left (a : Scalar) (hg : g.IsBasic) :
    overlaps (.literal a) g = g.takes a := by
  cases g with
  | custom | defaulted | optional | union | any => cases hg
  | _ => rw [overlaps] <;> simp

theorem overlaps_literal_right {kind : Kind} (hf : f.ownKind? = some kind) (b : Scalar) :
    overlaps f (.literal b) = f.takes b := by
  cases f with
  | custom | defaulted | optional | union | any | literal => cases hf
  | _ => rw [overlaps] <;> simp

omit [Externals] in
theorem all_attach {α : Type} (l : List α) (p : α → Bool) :
    (l.attach.all fun x => p x.1) = l.all p := by
  rw [List.all_subtype (g := p) fun _ _ => rfl, List.unattach_attach]

theorem overlaps_object (a b : List (Member Field)) :
    overlaps (.object a) (.object b) = membersOverlap a b := by
  rw [overlaps]
  refine Eq.trans ?_ (all_attach a _)
  refine congrArg _ (funext fun m => ?_)
  simp only
  split
  · next n hn => rw [hn, Option.all_some]
  · next hnone => rw [hnone, Option.all_none]

theorem overlaps_tuple (a b : List Field) :
    overlaps (.tuple a) (.tuple b) =
      (a.length == b.length && (a.zip b).all fun p => overlaps p.1 p.2) := by
  rw [overlaps]
  exact congrArg _ (all_attach (a.zip b) fun p => overlaps p.1 p.2)

theorem overlaps_tuple_array (items : List Field) (element : Field)
    (minItems maxItems : Option Number) :
    overlaps (.tuple items) (.array element minItems maxItems) =
      (lengthAllowed items.length minItems maxItems && items.all fun k => overlaps k element) := by
  rw [overlaps]
  simp

theorem overlaps_array_tuple (items : List Field) (element : Field)
    (minItems maxItems : Option Number) :
    overlaps (.array element minItems maxItems) (.tuple items) =
      (lengthAllowed items.length minItems maxItems && items.all fun k => overlaps k element) := by
  rw [overlaps]
  simp

theorem overlaps_apart {kind kind' : Kind} (hf : f.ownKind? = some kind)
    (hg : g.ownKind? = some kind') (hne : kind ≠ kind') : overlaps f g = false := by
  have hown : f.ownKind? ≠ g.ownKind? := by
    rw [hf, hg]
    exact fun heq => hne (Option.some.inj heq)
  rw [overlaps] <;> intros <;> subst_vars <;>
    first | cases hf; done | cases hg; done | exact hown rfl

/-! ## The analysis gives the answer -/

/-- A question that is answered in one way if at all, and answered under a condition. -/
structure RepliesWith (P : Prop) (x : Outcome Bool) (answer : Bool) : Prop where
  agrees : ∀ b, x = .ok b → b = answer
  returns : P → x.Returns

namespace RepliesWith

variable {P Q : Prop} {x y : Outcome Bool} {a b : Bool}

section

omit [Externals]

theorem ok (a : Bool) : RepliesWith P (.ok a) a where
  agrees := by
    rintro b ⟨⟩
    rfl
  returns _ := Outcome.returns_ok a

theorem imp (h : RepliesWith P x a) (himp : Q → P) : RepliesWith Q x a :=
  ⟨h.agrees, fun hq => h.returns (himp hq)⟩

/-- A question after a no. -/
theorem or (hx : RepliesWith P x a) (hy : RepliesWith P y b) :
    RepliesWith P (do if ← x then return true else y) (a || b) := by
  cases x with
  | error e =>
    refine ⟨?_, fun hp => absurd (hx.returns hp) (Outcome.not_returns_error e)⟩
    rintro c ⟨⟩
  | ok c =>
    obtain rfl := hx.agrees c rfl
    cases c with
    | true => exact ok true
    | false => exact hy

/-- A question after a yes. -/
theorem and (hx : RepliesWith P x a) (hy : RepliesWith P y b) :
    RepliesWith P (do if ← x then y else return false) (a && b) := by
  cases x with
  | error e =>
    refine ⟨?_, fun hp => absurd (hx.returns hp) (Outcome.not_returns_error e)⟩
    rintro c ⟨⟩
  | ok c =>
    obtain rfl := hx.agrees c rfl
    cases c with
    | true => exact hy
    | false => exact ok false

theorem ite (h : RepliesWith P x b) (c : Bool) :
    RepliesWith P (if c then x else .ok false) (c && b) := by
  cases c with
  | true => exact h
  | false => exact ok false

end

end RepliesWith

theorem matchesText_text (source s : String) :
    ((PatternSource.text source).matchesText s).Returns := by
  unfold PatternSource.matchesText
  simp only
  split
  · exact Outcome.returns_ok _
  · exact Outcome.returns_ok _

/-- Whether it accepts a scalar, a basic field can only fail to say over its pattern. -/
theorem returns_check_scalar (hf : f.IsBasic) (hpattern : f.HasTextPattern) (s : Scalar) :
    (f.check {} (.scalar s)).Returns := by
  cases f with
  | string low high pattern format =>
    cases s with
    | text t =>
      refine validateText_returns.mpr fun p hp => ?_
      obtain ⟨source, rfl⟩ := hpattern p hp
      exact matchesText_text source t
    | null | bool | number => exact Outcome.returns_ok _
  | number | boolean | null => cases s <;> exact Outcome.returns_ok _
  | literal | array | tuple | object => exact Outcome.returns_ok _
  | optional | defaulted | union | any | custom => cases hf

theorem acceptsScalar_answers (hf : f.IsBasic) (s : Scalar) :
    RepliesWith f.HasTextPattern (f.acceptsScalar s) (f.takes s) := by
  constructor
  · intro b hb
    obtain ⟨violations, hcheck, hb⟩ := Outcome.bind_eq_ok.mp hb
    cases hb
    rw [takes, hcheck]
  · intro hpattern
    exact (returns_check_scalar hf hpattern s).bind fun _ _ => Outcome.returns_ok _

theorem any_answers {P : Prop} {variants : List Field}
    (h : ∀ v ∈ variants, RepliesWith P (mayOverlap v g) (overlaps v g)) :
    RepliesWith P (anyMayOverlap variants g) (variants.any fun v => overlaps v g) := by
  induction variants with
  | nil =>
    rw [anyMayOverlap]
    exact .ok false
  | cons v rest ih =>
    obtain ⟨hv, hrest⟩ := List.forall_mem_cons.mp h
    rw [anyMayOverlap, List.any_cons]
    exact hv.or (ih hrest)

theorem all_answers {P : Prop} {items : List Field}
    (h : ∀ k ∈ items, RepliesWith P (mayOverlap k g) (overlaps k g)) :
    RepliesWith P (allMayOverlap items g) (items.all fun k => overlaps k g) := by
  induction items with
  | nil =>
    rw [allMayOverlap]
    exact .ok true
  | cons k rest ih =>
    obtain ⟨hk, hrest⟩ := List.forall_mem_cons.mp h
    rw [allMayOverlap, List.all_cons]
    exact hk.and (ih hrest)

theorem itemsMayOverlap_nil_left (b : List Field) : itemsMayOverlap [] b = .ok true := by
  rw [itemsMayOverlap]
  intro f fs g gs h
  cases h

theorem itemsMayOverlap_nil_right (a : List Field) : itemsMayOverlap a [] = .ok true := by
  rw [itemsMayOverlap]
  intro f fs g gs _ h
  cases h

theorem items_answers {P : Prop} {a b : List Field}
    (h : ∀ f ∈ a, ∀ g ∈ b, RepliesWith P (mayOverlap f g) (overlaps f g)) :
    RepliesWith P (itemsMayOverlap a b) ((a.zip b).all fun p => overlaps p.1 p.2) := by
  induction a generalizing b with
  | nil =>
    rw [itemsMayOverlap_nil_left]
    exact .ok true
  | cons f fs ih =>
    cases b with
    | nil =>
      rw [itemsMayOverlap_nil_right]
      exact .ok true
    | cons g gs =>
      obtain ⟨hf, hfs⟩ := List.forall_mem_cons.mp h
      rw [itemsMayOverlap, List.zip_cons_cons, List.all_cons]
      exact (List.forall_mem_cons.mp hf).1.and
        (ih fun k hk l hl => hfs k hk l (List.mem_cons_of_mem _ hl))

theorem membersMayOverlap_cons (m : Member Field) (rest b : List (Member Field)) :
    membersMayOverlap (m :: rest) b =
      match Member.find? m.name b with
      | some n =>
        if m.required && n.required then do
          if ← mayOverlap m.field n.field then membersMayOverlap rest b else return false
        else membersMayOverlap rest b
      | none => membersMayOverlap rest b := by
  obtain ⟨name, required, f⟩ := m
  rw [membersMayOverlap]
  split
  · next n hn => simp only [hn]
  · next hnone => simp only [hnone]

theorem members_answers {P : Prop} {a b : List (Member Field)}
    (h : ∀ m ∈ a, ∀ n ∈ b, RepliesWith P (mayOverlap m.field n.field) (overlaps m.field n.field)) :
    RepliesWith P (membersMayOverlap a b) (membersOverlap a b) := by
  unfold membersOverlap
  induction a with
  | nil =>
    rw [membersMayOverlap]
    exact .ok true
  | cons m rest ih =>
    obtain ⟨hm, hrest⟩ := List.forall_mem_cons.mp h
    rw [membersMayOverlap_cons, List.all_cons]
    cases hfind : Member.find? m.name b with
    | none => exact ih hrest
    | some n =>
      simp only [Option.all_some]
      cases m.required && n.required with
      | false => exact ih hrest
      | true => exact (hm n (Member.mem_of_find? hfind)).and (ih hrest)

/-- The analysis gives the answer `overlaps` or fails, and where patterns are texts it does
not fail. -/
theorem mayOverlap_answers (f g : Field) :
    RepliesWith (f.Everywhere HasTextPattern ∧ g.Everywhere HasTextPattern) (mayOverlap f g)
      (overlaps f g) := by
  induction f, g using overlapInduction with
  | custom_left check name g =>
    rw [mayOverlap_custom_left, overlaps_custom_left]
    exact .ok false
  | custom_right f check name =>
    rw [mayOverlap_custom_right, overlaps_custom_right]
    exact .ok false
  | defaulted_left inner value g ih =>
    rw [mayOverlap_defaulted_left, overlaps_defaulted_left]
    exact ih.imp fun h => ⟨h.1.defaultedInner, h.2⟩
  | defaulted_right f inner value ih =>
    rw [mayOverlap_defaulted_right, overlaps_defaulted_right]
    exact ih.imp fun h => ⟨h.1, h.2.defaultedInner⟩
  | optional_left inner g hg ih =>
    rw [mayOverlap_optional_left inner hg, overlaps_optional_left inner hg]
    cases g.mayAccept .null with
    | true => exact .ok true
    | false => exact ih.imp fun h => ⟨h.1.optionalInner, h.2⟩
  | optional_right f inner hf ih =>
    rw [mayOverlap_optional_right hf, overlaps_optional_right hf]
    cases f.mayAccept .null with
    | true => exact .ok true
    | false => exact ih.imp fun h => ⟨h.2.optionalInner, h.1⟩
  | union_left variants key g hg ih =>
    rw [mayOverlap_union_left variants key hg, overlaps_union_left variants key hg]
    exact any_answers fun v hv => (ih v hv).imp fun h => ⟨h.1.unionVariant hv, h.2⟩
  | union_right f variants key hf ih =>
    rw [mayOverlap_union_right hf, overlaps_union_right hf]
    exact any_answers fun v hv => (ih v hv).imp fun h => ⟨h.2.unionVariant hv, h.1⟩
  | any_left g hg =>
    rw [mayOverlap_any_left hg, overlaps_any_left hg]
    exact .ok true
  | any_right f hf =>
    rw [mayOverlap_any_right hf, overlaps_any_right hf.plain]
    exact .ok true
  | literal_left a g hg =>
    rw [mayOverlap_literal_left a hg, overlaps_literal_left a hg]
    exact (acceptsScalar_answers hg a).imp fun h => h.2.here
  | literal_right f b kind hf =>
    rw [mayOverlap_literal_right hf, overlaps_literal_right hf]
    exact (acceptsScalar_answers (basic_of_ownKind hf) b).imp fun h => h.1.here
  | string =>
    rw [mayOverlap, overlaps]
    exact .ok _
  | number =>
    rw [mayOverlap, overlaps]
    exact .ok _
  | boolean | null =>
    rw [mayOverlap, overlaps]
    exact .ok true
  | object a b ih =>
    rw [mayOverlap, overlaps_object]
    exact members_answers fun m hm n hn => (ih m hm n hn).imp fun h =>
      ⟨h.1.objectMember hm, h.2.objectMember hn⟩
  | array elementA minA maxA elementB minB maxB ih =>
    rw [mayOverlap, overlaps]
    cases rangesDisjoint minA maxA minB maxB with
    | true => exact .ok false
    | false =>
      cases isZeroBound minA && isZeroBound minB with
      | true => exact .ok true
      | false => exact ih.imp fun h => ⟨h.1.arrayElement, h.2.arrayElement⟩
  | tuple a b ih =>
    rw [mayOverlap, overlaps_tuple]
    refine RepliesWith.ite (items_answers fun k hk l hl => (ih k hk l hl).imp ?_) _
    exact fun h => ⟨h.1.tupleItem hk, h.2.tupleItem hl⟩
  | tuple_array items element minItems maxItems ih =>
    rw [mayOverlap, overlaps_tuple_array]
    refine RepliesWith.ite (all_answers fun k hk => (ih k hk).imp ?_) _
    exact fun h => ⟨h.1.tupleItem hk, h.2.arrayElement⟩
  | array_tuple element minItems maxItems items ih =>
    rw [mayOverlap, overlaps_array_tuple]
    refine RepliesWith.ite (all_answers fun k hk => (ih k hk).imp ?_) _
    exact fun h => ⟨h.2.tupleItem hk, h.1.arrayElement⟩
  | apart f g kind kind' hf hg hne =>
    rw [mayOverlap_apart hf hg hne, overlaps_apart hf hg hne]
    exact .ok false

/-- Where the analysis gives an answer, it is this one. -/
theorem overlaps_of_mayOverlap {b : Bool} (h : mayOverlap f g = .ok b) : overlaps f g = b :=
  ((mayOverlap_answers f g).agrees b h).symm

theorem mayOverlap_eq (hf : f.Everywhere HasTextPattern) (hg : g.Everywhere HasTextPattern) :
    mayOverlap f g = .ok (overlaps f g) := by
  obtain ⟨b, hb⟩ := (mayOverlap_answers f g).returns ⟨hf, hg⟩
  rw [hb, overlaps_of_mayOverlap hb]

end Field
end Lineage
