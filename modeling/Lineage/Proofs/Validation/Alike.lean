import Lineage.Proofs.Field.Members
import Lineage.Proofs.Field.Tree
import Lineage.Proofs.Number.Order
import Lineage.Proofs.Validation.Acceptance

/-
Validation of alike values against alike fields.

Two relations are given, one between values and one between fields, each of which passes
from two things in it to their parts.  A field then fails on a value exactly where its
counterpart fails on the value's counterpart, and finds nothing exactly where that finds
nothing, wherever the two values stand.  Which loose equality, comparison or copy relates the
two is left to the relations.
-/

namespace Lineage

/-! ## Relations that pass to the parts -/

/-- Scalars of one kind between which no bound and no literal can tell. -/
inductive Scalar.Alike : Scalar → Scalar → Prop
  | null : Alike .null .null
  | bool (b : Bool) : Alike (.bool b) (.bool b)
  | number {m n : Number} (h : m.position = n.position) : Alike (.number m) (.number n)
  | text (s : String) : Alike (.text s) (.text s)

theorem Scalar.Alike.refl (a : Scalar) : a.Alike a := by
  cases a with
  | null => exact .null
  | bool b => exact .bool b
  | number n => exact .number rfl
  | text s => exact .text s

theorem Scalar.equal_congr {a b s t : Scalar} (h : a.Alike b) (h' : s.Alike t) :
    a.equal s = b.equal t := by
  cases h with
  | number h =>
    cases h' with
    | number h' =>
      show Number.same _ _ = Number.same _ _
      unfold Number.same
      rw [h, h']
    | _ => rfl
  | _ => cases h' <;> rfl

/-- Entries with the same keys and with related values under the names. -/
structure Entries.Alike (R : Value → Value → Prop) (es ds : List (Key × Value)) : Prop where
  keys : ∀ key, (∃ e ∈ es, e.1 = key) ↔ ∃ d ∈ ds, d.1 = key
  values : ∀ name, Option.Rel R (Entries.find? (.text name) es) (Entries.find? (.text name) ds)

/-- Values of one shape with related parts. -/
inductive Value.PartsAlike (R : Value → Value → Prop) : Value → Value → Prop
  | scalar {a b : Scalar} (h : a.Alike b) : PartsAlike R (.scalar a) (.scalar b)
  | array {as bs : List Value} (h : List.Forall₂ R as bs) : PartsAlike R (.array as) (.array bs)
  | object {es ds : List (Key × Value)} (h : Entries.Alike R es ds) :
      PartsAlike R (.object es) (.object ds)
  | tuple (as bs : List Value) : PartsAlike R (.tuple as) (.tuple bs)
  | set (as bs : List Key) : PartsAlike R (.set as) (.set bs)
  | bytes (s t : String) : PartsAlike R (.bytes s) (.bytes t)
  | thing : PartsAlike R .thing .thing
  | missing : PartsAlike R .missing .missing

/-- A relation between values that passes to their parts and respects what JSON can hold. -/
structure Value.Correspondence (R : Value → Value → Prop) : Prop where
  parts : ∀ {v w}, R v w → PartsAlike R v w
  checked : ∀ {v w}, R v w → (v.Checked ↔ w.Checked)
  missing : R .missing .missing

theorem Value.partsAlike_self (v : Value) : PartsAlike Eq v v := by
  cases v with
  | scalar s => exact .scalar (.refl s)
  | array items => exact .array (List.forall₂_eq_eq_eq ▸ rfl)
  | object entries =>
    refine .object ⟨fun _ => Iff.rfl, fun name => ?_⟩
    cases Entries.find? (.text name) entries with
    | none => exact .none
    | some v => exact .some rfl
  | tuple items => exact .tuple items items
  | set items => exact .set items items
  | bytes s => exact .bytes s s
  | thing => exact .thing
  | missing => exact .missing

/-- Being the same value is such a relation. -/
theorem Value.correspondence_eq : Correspondence Eq where
  parts := by
    rintro v _ rfl
    exact partsAlike_self v
  checked := by
    rintro v _ rfl
    exact Iff.rfl
  missing := rfl

namespace Field

/-- Members with the same names, equally required, with related fields, in any order. -/
structure MembersAlike (K : Field → Field → Prop) (as bs : List (Member Field)) : Prop where
  left : ∀ m ∈ as, ∃ n ∈ bs, m.name = n.name ∧ m.required = n.required ∧ K m.field n.field
  right : ∀ n ∈ bs, ∃ m ∈ as, m.name = n.name ∧ m.required = n.required ∧ K m.field n.field

/-- It is enough that each member on the left has its counterpart under its name, and that
the right has no other names. -/
theorem membersAlike_of {K : Field → Field → Prop} {as bs : List (Member Field)}
    (hnodup : (Member.names bs).Nodup)
    (hmatch : ∀ m ∈ as, ∃ n, Member.find? m.name bs = some n ∧ m.required = n.required ∧
      K m.field n.field)
    (hdeclared : ∀ n ∈ bs, Member.declares as n.name = true) : MembersAlike K as bs where
  left m hm := by
    obtain ⟨n, hn, hrequired, hfield⟩ := hmatch m hm
    exact ⟨n, Member.mem_of_find? hn, (Member.name_of_find? hn).symm, hrequired, hfield⟩
  right n hn := by
    obtain ⟨m, hfind⟩ := Option.isSome_iff_exists.mp (hdeclared n hn)
    have hname := Member.name_of_find? hfind
    have hm := Member.mem_of_find? hfind
    obtain ⟨k, hk, hrequired, hfield⟩ := hmatch m hm
    obtain rfl : n = k := by
      rw [hname, Member.find?_of_mem hnodup hn] at hk
      exact Option.some.inj hk
    exact ⟨m, hm, hname, hrequired, hfield⟩

/-- Fields of one kind with attributes that validation cannot tell apart and with related
children. -/
inductive PartsAlike (K : Field → Field → Prop) (R : Value → Value → Prop) : Field → Field → Prop
  | string {low high low' high' : Option Number} {pattern : Option PatternSource}
      {format : Option Format} (hlow : low.map Number.position = low'.map Number.position)
      (hhigh : high.map Number.position = high'.map Number.position) :
      PartsAlike K R (.string low high pattern format) (.string low' high' pattern format)
  | number {low high low' high' : Option Number} {flag flag' : Value}
      (hlow : low.map Number.position = low'.map Number.position)
      (hhigh : high.map Number.position = high'.map Number.position)
      (hflag : flag.truthy = flag'.truthy) :
      PartsAlike K R (.number low high flag) (.number low' high' flag')
  | boolean : PartsAlike K R .boolean .boolean
  | null : PartsAlike K R .null .null
  | any : PartsAlike K R .any .any
  | literal {a b : Scalar} (h : a.Alike b) : PartsAlike K R (.literal a) (.literal b)
  | array {a b : Field} {low high low' high' : Option Number} (helement : K a b)
      (hlow : low.map Number.position = low'.map Number.position)
      (hhigh : high.map Number.position = high'.map Number.position) :
      PartsAlike K R (.array a low high) (.array b low' high')
  | tuple {as bs : List Field} (h : List.Forall₂ K as bs) : PartsAlike K R (.tuple as) (.tuple bs)
  | object {as bs : List (Member Field)} (h : MembersAlike K as bs) :
      PartsAlike K R (.object as) (.object bs)
  | optional {a b : Field} (h : K a b) : PartsAlike K R (.optional a) (.optional b)
  | defaulted {a b : Field} {v w : Value} (h : K a b) (hvalue : R v w) :
      PartsAlike K R (.defaulted a v) (.defaulted b w)
  | union {as bs : List Field} (h : List.Forall₂ K as bs) :
      PartsAlike K R (.union as none) (.union bs none)
  | tagged {as bs : List Field} {key : String} (h : List.Forall₂ K as bs)
      (htags : ∀ v w, R v w → as.findIdx? (Validation.hasTag key v) =
        bs.findIdx? (Validation.hasTag key w)) :
      PartsAlike K R (.union as (some key)) (.union bs (some key))
  | custom {check check' : AuthorFn} {name name' : Value}
      (h : ∀ v w, R v w → check.run v = check'.run w) :
      PartsAlike K R (.custom check name) (.custom check' name')

theorem PartsAlike.acceptsAbsence {K : Field → Field → Prop} {R : Value → Value → Prop}
    {f g : Field} (h : PartsAlike K R f g) : f.acceptsAbsence = g.acceptsAbsence := by
  cases h <;> rfl

end Field

namespace Validation

/-! ## Results -/

/-- Validation fails in both cases or in neither, and finds nothing in both or in neither. -/
abbrev Agree (x y : Result) : Prop := Outcome.Alike (fun r s => r = [] ↔ s = []) x y

theorem Agree.refl (x : Result) : Agree x x := by
  cases x with
  | ok r => exact .ok Iff.rfl
  | error e => exact .error e e

theorem agree_found {a b : Violation} {as bs : List Violation} :
    Agree (.ok (a :: as)) (.ok (b :: bs)) :=
  .ok (iff_of_false (List.cons_ne_nil a as) (List.cons_ne_nil b bs))

theorem agree_iff {x y : Result} :
    Agree x y ↔ (x.Returns ↔ y.Returns) ∧ (x = .ok [] ↔ y = .ok []) := by
  constructor
  · intro h
    cases h with
    | ok h =>
      refine ⟨iff_of_true (Outcome.returns_ok _) (Outcome.returns_ok _), ?_⟩
      rw [Except.ok.injEq, Except.ok.injEq]
      exact h
    | error e e' =>
      refine ⟨iff_of_false (Outcome.not_returns_error e) (Outcome.not_returns_error e'),
        iff_of_false ?_ ?_⟩
      · intro h
        cases h
      · intro h
        cases h
  · rintro ⟨hreturns, hnil⟩
    cases x with
    | ok r =>
      obtain ⟨s, rfl⟩ := hreturns.mp (Outcome.returns_ok r)
      rw [Except.ok.injEq, Except.ok.injEq] at hnil
      exact .ok hnil
    | error e =>
      cases y with
      | ok s => exact absurd (hreturns.mpr (Outcome.returns_ok s)) (Outcome.not_returns_error e)
      | error e' => exact .error e e'

theorem Agree.append {x y x' y' : Result} (h : Agree x y) (h' : Agree x' y') :
    Agree (do let a ← x; let b ← x'; return a ++ b) (do let a ← y; let b ← y'; return a ++ b) := by
  refine h.bind fun a b hab => h'.bind fun c d hcd => .ok ?_
  rw [List.append_eq_nil_iff, List.append_eq_nil_iff, hab, hcd]

theorem agree_reportIf {condition condition' : Bool} {path path' : Path}
    {kind kind' : Violation.Kind} {message message' : String} (h : condition = condition') :
    Agree (.ok (reportIf condition path kind message))
      (.ok (reportIf condition' path' kind' message')) :=
  .ok (by rw [reportIf_eq_nil, reportIf_eq_nil, h])

/-! ## Attributes -/

variable {low high low' high' : Option Number} {m n : Number} {path path' : Path}

variable [Externals]

theorem validateText_agree {pattern : Option PatternSource} {format : Option Format} {s : String}
    (hlow : low.map Number.position = low'.map Number.position)
    (hhigh : high.map Number.position = high'.map Number.position) :
    Agree (validateText low high pattern format path s)
      (validateText low' high' pattern format path' s) := by
  refine agree_iff.mpr ⟨?_, ?_⟩
  · rw [validateText_returns, validateText_returns]
  · rw [Field.validateText_eq_nil, Field.validateText_eq_nil, below_congr hlow rfl,
      above_congr hhigh rfl]

section

omit [Externals]

theorem validateNumber_agree {flag flag' : Bool}
    (hlow : low.map Number.position = low'.map Number.position)
    (hhigh : high.map Number.position = high'.map Number.position) (hflag : flag = flag')
    (h : m.position = n.position) :
    Agree (.ok (validateNumber low high flag path m))
      (.ok (validateNumber low' high' flag' path' n)) := by
  subst hflag
  unfold validateNumber
  rw [Number.isIntegral_congr h]
  split
  · exact agree_found
  · refine .ok ?_
    rw [List.append_eq_nil_iff, List.append_eq_nil_iff, reportIf_eq_nil, reportIf_eq_nil,
      reportIf_eq_nil, reportIf_eq_nil, below_congr hlow h, above_congr hhigh h]

theorem validateItemCount_agree {count : Nat}
    (hlow : low.map Number.position = low'.map Number.position)
    (hhigh : high.map Number.position = high'.map Number.position) :
    Agree (validateItemCount low high path count) (validateItemCount low' high' path' count) := by
  cases low with
  | none =>
    obtain rfl := Option.map_eq_none_iff.mp hlow.symm
    exact .error _ _
  | some b =>
    obtain ⟨b', rfl, -⟩ := Option.map_eq_some_iff.mp hlow.symm
    refine .ok ?_
    rw [List.append_eq_nil_iff, List.append_eq_nil_iff, reportIf_eq_nil, reportIf_eq_nil,
      reportIf_eq_nil, reportIf_eq_nil, below_congr hlow rfl, above_congr hhigh rfl]

theorem validateLiteral_agree {a b : Scalar} {v w : Value}
    {R : Value → Value → Prop} (h : a.Alike b) (hvw : Value.PartsAlike R v w) :
    Agree (.ok (validateLiteral a path v)) (.ok (validateLiteral b path' w)) := by
  unfold validateLiteral
  refine agree_reportIf ?_
  cases hvw with
  | scalar hscalar => exact congrArg _ (Scalar.equal_congr h hscalar)
  | _ => rfl

theorem validateAny_eq_nil {path : Path} {v : Value} : validateAny path v = [] ↔ v.Checked := by
  unfold validateAny Value.Checked
  split
  · next h => rw [h]; simp
  · next h => rw [h]; simp

end

/-! ## Containers -/

omit [Externals] in
theorem validateEach_agree {item item' : Path → Value → Result} {index : Nat}
    {R : Value → Value → Prop} {as bs : List Value} (h : List.Forall₂ R as bs)
    (hitem : ∀ q q' v w, R v w → Agree (item q v) (item' q' w)) :
    Agree (validateEach item path index as) (validateEach item' path' index bs) := by
  induction h generalizing index with
  | nil => exact .refl _
  | cons hvw _ ih => exact (hitem _ _ _ _ hvw).append ih

omit [Externals] in
theorem matchesFrom_congr {index : Nat} {results results' : List (List Violation)}
    (h : List.Forall₂ (fun r s => r = [] ↔ s = []) results results') :
    matchesFrom index results = matchesFrom index results' := by
  induction h generalizing index with
  | nil => rfl
  | @cons r s _ _ hrs _ ih =>
    cases r with
    | nil =>
      obtain rfl := hrs.mp rfl
      simp only [matchesFrom, List.isEmpty_nil, ih]
    | cons a as =>
      cases s with
      | nil => cases hrs.mpr rfl
      | cons b bs => simp only [matchesFrom, List.isEmpty_cons, ih]

omit [Externals] in
theorem judgeUnion_agree {unambiguous : Bool} {results results' : List (List Violation)}
    (h : List.Forall₂ (fun r s => r = [] ↔ s = []) results results') :
    Agree (.ok (judgeUnion unambiguous path results))
      (.ok (judgeUnion unambiguous path' results')) := by
  unfold judgeUnion
  rw [matchesFrom_congr h]
  split
  · exact agree_found
  · exact .refl _
  · exact agree_reportIf rfl

end Validation

namespace Field

open Validation

variable {o : Options} {path path' : Path} {K : Field → Field → Prop} {R : Value → Value → Prop}
variable {as bs : List Field} {v w : Value}

variable [Externals]

theorem validateItems_agree {index : Nat} {items items' : List Value} (h : List.Forall₂ K as bs)
    (hitems : List.Forall₂ R items items')
    (hitem : ∀ f ∈ as, ∀ g q q' v w, K f g → R v w →
      Agree (f.validate o q v) (g.validate o q' w)) :
    Agree (validateItems o as path index items) (validateItems o bs path' index items') := by
  induction h generalizing index items items' with
  | nil => exact .refl _
  | cons hfg _ ih =>
    cases hitems with
    | nil => exact .refl _
    | cons hvw hrest =>
      obtain ⟨hfirst, hmore⟩ := List.forall_mem_cons.mp hitem
      exact (hfirst _ _ _ _ _ hfg hvw).append (ih hrest hmore)

theorem validateMember_agree {m n : Member Field} {es ds : List (Key × Value)}
    (hname : m.name = n.name) (hrequired : m.required = n.required)
    (habsence : m.field.acceptsAbsence = n.field.acceptsAbsence) (hentries : Entries.Alike R es ds)
    (hmissing : R .missing .missing)
    (h : ∀ q q' v w, R v w → Agree (m.field.validate o q v) (n.field.validate o q' w)) :
    Agree (validateMember o path es m) (validateMember o path' ds n) := by
  have hvalue := hentries.values m.name
  unfold validateMember
  rw [← hname, ← hrequired, ← habsence]
  generalize Entries.find? (.text m.name) es = x at hvalue ⊢
  generalize Entries.find? (.text m.name) ds = y at hvalue ⊢
  cases hvalue with
  | some hvw => exact h _ _ _ _ hvw
  | none =>
    show Agree (if m.required then _ else if m.field.acceptsAbsence then _ else _)
      (if m.required then _ else if m.field.acceptsAbsence then _ else _)
    split
    · exact agree_found
    · split
      · exact h _ _ _ _ hmissing
      · exact .refl _

omit [Externals] in
theorem declares_congr {as bs : List (Member Field)} (h : MembersAlike K as bs) (name : String) :
    Member.declares as name = Member.declares bs name := by
  rw [Bool.eq_iff_iff]
  constructor
  · intro hdeclares
    obtain ⟨m, hm⟩ := Option.isSome_iff_exists.mp hdeclares
    obtain ⟨n, hn, hname, -⟩ := h.left m (Member.mem_of_find? hm)
    rw [← Member.name_of_find? hm, hname]
    exact Member.declares_of_mem hn
  · intro hdeclares
    obtain ⟨n, hn⟩ := Option.isSome_iff_exists.mp hdeclares
    obtain ⟨m, hm, hname, -⟩ := h.right n (Member.mem_of_find? hn)
    rw [← Member.name_of_find? hn, ← hname]
    exact Member.declares_of_mem hm

omit [Externals] in
/-- Whether a key can be part of a path does not depend on what the path begins with. -/
theorem entryPath_returns (path path' : Path) (key : Key) :
    (entryPath path key).Returns ↔ (entryPath path' key).Returns := by
  unfold entryPath Path.childOf
  cases Segment.ofValue key.toValue with
  | ok s => exact iff_of_true (Outcome.returns_ok _) (Outcome.returns_ok _)
  | error e => exact iff_of_false (Outcome.not_returns_error _) (Outcome.not_returns_error _)

omit [Externals] in
theorem undeclared_agree {as bs : List (Member Field)} {es ds : List (Key × Value)}
    (h : MembersAlike K as bs) (hentries : Entries.Alike R es ds) :
    Agree (undeclared as path es) (undeclared bs path' ds) := by
  have hdeclared : ∀ key, isDeclared as key = isDeclared bs key := fun key => by
    unfold isDeclared
    rw [funext (declares_congr h)]
  have hkeys : ∀ P : Key → Prop, (∀ e ∈ es, P e.1) ↔ ∀ d ∈ ds, P d.1 := fun P => by
    constructor
    · intro hes d hd
      obtain ⟨e, he, hkey⟩ := (hentries.keys d.1).mpr ⟨d, hd, rfl⟩
      exact hkey ▸ hes e he
    · intro hds e he
      obtain ⟨d, hd, hkey⟩ := (hentries.keys e.1).mp ⟨e, he, rfl⟩
      exact hkey ▸ hds d hd
  refine agree_iff.mpr ⟨?_, ?_⟩
  · rw [undeclared_returns, undeclared_returns,
      hkeys fun key => isDeclared as key = true ∨ (entryPath path key).Returns]
    simp only [hdeclared, entryPath_returns path path']
  · rw [undeclared_eq_nil, undeclared_eq_nil, hkeys fun key => isDeclared as key = true]
    simp only [hdeclared]

theorem validateMembers_agree {as bs : List (Member Field)} {es ds : List (Key × Value)}
    (h : MembersAlike K as bs)
    (hmember : ∀ m ∈ as, ∀ n, m.name = n.name → m.required = n.required → K m.field n.field →
      Agree (validateMember o path es m) (validateMember o path' ds n)) :
    Agree (validateMembers o as path es) (validateMembers o bs path' ds) := by
  have hparts : ∀ P : Result → Prop, (∀ x y, Agree x y → (P x ↔ P y)) →
      ((∀ m ∈ as, P (validateMember o path es m)) ↔
        ∀ n ∈ bs, P (validateMember o path' ds n)) := by
    intro P hP
    constructor
    · intro has n hn
      obtain ⟨m, hm, hname, hrequired, hfield⟩ := h.right n hn
      exact (hP _ _ (hmember m hm n hname hrequired hfield)).mp (has m hm)
    · intro hbs m hm
      obtain ⟨n, hn, hname, hrequired, hfield⟩ := h.left m hm
      exact (hP _ _ (hmember m hm n hname hrequired hfield)).mpr (hbs n hn)
  refine agree_iff.mpr ⟨?_, ?_⟩
  · rw [validateMembers_returns, validateMembers_returns]
    exact hparts Outcome.Returns fun x y hxy => (agree_iff.mp hxy).1
  · rw [validateMembers_eq_nil, validateMembers_eq_nil]
    exact hparts (fun x => x = .ok []) fun x y hxy => (agree_iff.mp hxy).2

theorem validateVariants_agree (h : List.Forall₂ K as bs)
    (hvariant : ∀ f ∈ as, ∀ g, K f g → Agree (f.validate o path v) (g.validate o path' w)) :
    Outcome.Alike (List.Forall₂ fun r s => r = [] ↔ s = []) (validateVariants o as path v)
      (validateVariants o bs path' w) := by
  induction h with
  | nil => exact .ok .nil
  | cons hfg _ ih =>
    obtain ⟨hfirst, hmore⟩ := List.forall_mem_cons.mp hvariant
    exact (hfirst _ hfg).bind fun _ _ hrs => (ih hmore).bind fun _ _ hrest => .ok (.cons hrs hrest)

theorem validateTagged_agree {key : String} {tag tag' : Value} (h : List.Forall₂ K as bs)
    (htag : as.findIdx? (hasTag key tag) = bs.findIdx? (hasTag key tag'))
    (hvariant : ∀ f ∈ as, ∀ g, K f g → Agree (f.validate o path v) (g.validate o path' w)) :
    Agree (validateTagged o key tag as path v) (validateTagged o key tag' bs path' w) := by
  induction h with
  | nil => exact agree_found
  | @cons f g fs gs hfg _ ih =>
    obtain ⟨hfirst, hmore⟩ := List.forall_mem_cons.mp hvariant
    rw [List.findIdx?_cons, List.findIdx?_cons] at htag
    show Agree (if hasTag key tag f then _ else _) (if hasTag key tag' g then _ else _)
    cases hf : hasTag key tag f with
    | true =>
      cases hg : hasTag key tag' g with
      | true => exact hfirst _ hfg
      | false =>
        rw [hf, hg, if_pos rfl, if_neg Bool.false_ne_true] at htag
        obtain ⟨i, -, hi⟩ := Option.map_eq_some_iff.mp htag.symm
        cases hi
    | false =>
      cases hg : hasTag key tag' g with
      | true =>
        rw [hf, hg, if_pos rfl, if_neg Bool.false_ne_true] at htag
        obtain ⟨i, -, hi⟩ := Option.map_eq_some_iff.mp htag
        cases hi
      | false =>
        rw [hf, hg, if_neg Bool.false_ne_true, if_neg Bool.false_ne_true] at htag
        exact ih (Option.map_injective (fun _ _ => Nat.succ.inj) htag) hmore

omit [Externals] in
theorem validateCustom_agree {check check' : AuthorFn} {name name' : Value}
    (h : check.run v = check'.run w) :
    Agree (validateCustom check name path v) (validateCustom check' name' path' w) := by
  have hmessages : runCheck check v = runCheck check' w := by
    unfold runCheck
    rw [h]
  unfold validateCustom
  rw [hmessages]
  cases runCheck check' w with
  | error e => exact .error e e
  | ok messages => exact .ok (by rw [List.map_eq_nil_iff, List.map_eq_nil_iff])

/-! ## Fields

Fields of one kind agree on values of one shape, if their children agree on the parts. -/

section Fields

variable {f g : Field} {low high low' high' : Option Number}

theorem string_agree {pattern : Option PatternSource} {format : Option Format}
    (hlow : low.map Number.position = low'.map Number.position)
    (hhigh : high.map Number.position = high'.map Number.position)
    (hvw : Value.PartsAlike R v w) :
    Agree ((string low high pattern format).validate o path v)
      ((string low' high' pattern format).validate o path' w) := by
  rw [validate_string, validate_string]
  cases hvw with
  | scalar hscalar =>
    cases hscalar with
    | text s => exact validateText_agree hlow hhigh
    | _ => exact agree_found
  | _ => exact agree_found

theorem number_agree {flag flag' : Value}
    (hlow : low.map Number.position = low'.map Number.position)
    (hhigh : high.map Number.position = high'.map Number.position)
    (hflag : flag.truthy = flag'.truthy) (hvw : Value.PartsAlike R v w) :
    Agree ((number low high flag).validate o path v)
      ((number low' high' flag').validate o path' w) := by
  rw [validate_number, validate_number]
  cases hvw with
  | scalar hscalar =>
    cases hscalar with
    | number hnumber => exact validateNumber_agree hlow hhigh hflag hnumber
    | _ => exact agree_found
  | _ => exact agree_found

theorem boolean_agree (hvw : Value.PartsAlike R v w) :
    Agree (boolean.validate o path v) (boolean.validate o path' w) := by
  rw [validate_boolean, validate_boolean]
  cases hvw with
  | scalar hscalar =>
    cases hscalar with
    | bool b => exact .refl _
    | _ => exact agree_found
  | _ => exact agree_found

theorem null_agree (hvw : Value.PartsAlike R v w) :
    Agree (null.validate o path v) (null.validate o path' w) := by
  rw [validate_null, validate_null]
  cases hvw with
  | scalar hscalar =>
    cases hscalar with
    | null => exact .refl _
    | _ => exact agree_found
  | _ => exact agree_found

theorem any_agree (hvw : Value.PartsAlike R v w) (hchecked : v.Checked ↔ w.Checked) :
    Agree (any.validate o path v) (any.validate o path' w) := by
  rw [validate_any, validate_any]
  have hjudged : Agree (.ok (validateAny path v)) (.ok (validateAny path' w)) := by
    refine .ok ?_
    rw [validateAny_eq_nil, validateAny_eq_nil]
    exact hchecked
  cases hvw with
  | missing => exact agree_found
  | _ => exact hjudged

theorem literal_agree {a b : Scalar} (h : a.Alike b) (hvw : Value.PartsAlike R v w) :
    Agree ((literal a).validate o path v) ((literal b).validate o path' w) := by
  rw [validate_literal, validate_literal]
  have hjudged : Agree (.ok (validateLiteral a path v)) (.ok (validateLiteral b path' w)) :=
    validateLiteral_agree h hvw
  cases hvw with
  | missing => exact agree_found
  | _ => exact hjudged

theorem array_agree (hlow : low.map Number.position = low'.map Number.position)
    (hhigh : high.map Number.position = high'.map Number.position)
    (hvw : Value.PartsAlike R v w)
    (helement : ∀ q q' v w, R v w → Agree (f.validate o q v) (g.validate o q' w)) :
    Agree ((array f low high).validate o path v) ((array g low' high').validate o path' w) := by
  rw [validate_array, validate_array]
  cases hvw with
  | array hitems =>
    simp only [hitems.length_eq]
    exact (validateItemCount_agree hlow hhigh).append (validateEach_agree hitems helement)
  | scalar hscalar => cases hscalar <;> exact agree_found
  | _ => exact agree_found

theorem tuple_agree (h : List.Forall₂ K as bs) (hvw : Value.PartsAlike R v w)
    (hitem : ∀ f ∈ as, ∀ g q q' v w, K f g → R v w →
      Agree (f.validate o q v) (g.validate o q' w)) :
    Agree ((tuple as).validate o path v) ((tuple bs).validate o path' w) := by
  rw [validate_tuple, validate_tuple]
  cases hvw with
  | array hitems =>
    simp only [hitems.length_eq, h.length_eq]
    split
    · exact validateItems_agree h hitems hitem
    · exact agree_found
  | scalar hscalar => cases hscalar <;> exact agree_found
  | _ => exact agree_found

theorem object_agree {as bs : List (Member Field)} (h : MembersAlike K as bs)
    (hvw : Value.PartsAlike R v w)
    (hmember : ∀ es ds, Entries.Alike R es ds → ∀ m ∈ as, ∀ n, m.name = n.name →
      m.required = n.required → K m.field n.field →
      Agree (validateMember o path es m) (validateMember o path' ds n)) :
    Agree ((object as).validate o path v) ((object bs).validate o path' w) := by
  rw [validate_object, validate_object]
  cases hvw with
  | @object es ds hentries =>
    have hdeclared : Agree (validateMembers o as path es) (validateMembers o bs path' ds) :=
      validateMembers_agree h (hmember es ds hentries)
    simp only
    split
    · exact hdeclared.append (undeclared_agree h hentries)
    · exact hdeclared.append (.refl _)
  | scalar hscalar => cases hscalar <;> exact agree_found
  | _ => exact agree_found

theorem optional_agree (hvw : Value.PartsAlike R v w)
    (hinner : Agree (f.validate o path v) (g.validate o path' w)) :
    Agree ((optional f).validate o path v) ((optional g).validate o path' w) := by
  rw [validate_optional, validate_optional]
  cases hvw with
  | scalar hscalar =>
    cases hscalar with
    | null => exact .refl _
    | _ => exact hinner
  | missing => exact .refl _
  | _ => exact hinner

theorem defaulted_agree {value value' : Value} (hvw : Value.PartsAlike R v w)
    (hinner : Agree (f.validate o path v) (g.validate o path' w))
    (hdefault : Agree (f.validate o path value) (g.validate o path' value')) :
    Agree ((defaulted f value).validate o path v) ((defaulted g value').validate o path' w) := by
  rw [validate_defaulted, validate_defaulted]
  cases hvw with
  | missing => exact hdefault
  | _ => exact hinner

theorem union_agree (h : List.Forall₂ K as bs) (hvw : Value.PartsAlike R v w)
    (hvariant : ∀ f ∈ as, ∀ g, K f g → Agree (f.validate o path v) (g.validate o path' w)) :
    Agree ((union as none).validate o path v) ((union bs none).validate o path' w) := by
  rw [validate_union, validate_union]
  have hresults : Outcome.Alike (List.Forall₂ fun r s => r = [] ↔ s = [])
      (validateVariants o as path v) (validateVariants o bs path' w) :=
    validateVariants_agree h hvariant
  cases hvw with
  | missing => exact agree_found
  | _ => exact hresults.bind fun _ _ hrs => judgeUnion_agree hrs

theorem tagged_agree {key : String} (h : List.Forall₂ K as bs)
    (htags : ∀ v w, R v w → as.findIdx? (hasTag key v) = bs.findIdx? (hasTag key w))
    (hvw : Value.PartsAlike R v w)
    (hvariant : ∀ f ∈ as, ∀ g, K f g → Agree (f.validate o path v) (g.validate o path' w)) :
    Agree ((union as (some key)).validate o path v)
      ((union bs (some key)).validate o path' w) := by
  rw [validate_union, validate_union]
  cases hvw with
  | @object es ds hentries =>
    have htag := hentries.values key
    simp only
    generalize Entries.find? (.text key) es = x at htag ⊢
    generalize Entries.find? (.text key) ds = y at htag ⊢
    cases htag with
    | none => exact agree_found
    | some htag => exact validateTagged_agree h (htags _ _ htag) hvariant
  | scalar hscalar => cases hscalar <;> exact agree_found
  | _ => exact agree_found

theorem custom_agree {check check' : AuthorFn} {name name' : Value}
    (h : check.run v = check'.run w) (hvw : Value.PartsAlike R v w) :
    Agree ((custom check name).validate o path v) ((custom check' name').validate o path' w) := by
  rw [validate_custom, validate_custom]
  have hjudged : Agree (validateCustom check name path v) (validateCustom check' name' path' w) :=
    validateCustom_agree h
  cases hvw with
  | missing => exact agree_found
  | _ => exact hjudged

end Fields

/-- Counterparts agree on the counterparts of every value. -/
theorem validate_agree (hR : Value.Correspondence R) (hK : ∀ f g, K f g → PartsAlike K R f g)
    {f g : Field} (h : K f g) (hvw : R v w) :
    Agree (f.validate o path v) (g.validate o path' w) := by
  have hparts := hR.parts hvw
  induction f generalizing g v w path path' with
  | string => cases hK _ _ h with
    | string hlow hhigh => exact string_agree hlow hhigh hparts
  | number => cases hK _ _ h with
    | number hlow hhigh hflag => exact number_agree hlow hhigh hflag hparts
  | boolean => cases hK _ _ h with
    | boolean => exact boolean_agree hparts
  | null => cases hK _ _ h with
    | null => exact null_agree hparts
  | any => cases hK _ _ h with
    | any => exact any_agree hparts (hR.checked hvw)
  | literal => cases hK _ _ h with
    | literal hliteral => exact literal_agree hliteral hparts
  | array element low high ih => cases hK _ _ h with
    | array helement hlow hhigh =>
      exact array_agree hlow hhigh hparts fun _ _ _ _ hvw => ih helement hvw (hR.parts hvw)
  | tuple as ih => cases hK _ _ h with
    | tuple hfields =>
      exact tuple_agree hfields hparts fun f hf _ _ _ _ _ hfg hvw =>
        ih f hf hfg hvw (hR.parts hvw)
  | object members ih => cases hK _ _ h with
    | object hmembers =>
      refine object_agree hmembers hparts fun es ds hentries m hm n hname hrequired hfield => ?_
      exact validateMember_agree hname hrequired (hK _ _ hfield).acceptsAbsence hentries
        hR.missing fun _ _ _ _ hvw => ih m hm hfield hvw (hR.parts hvw)
  | optional inner ih => cases hK _ _ h with
    | optional hinner => exact optional_agree hparts (ih hinner hvw hparts)
  | defaulted inner value ih => cases hK _ _ h with
    | defaulted hinner hvalue =>
      exact defaulted_agree hparts (ih hinner hvw hparts) (ih hinner hvalue (hR.parts hvalue))
  | union variants discriminant ih => cases hK _ _ h with
    | union hvariants =>
      exact union_agree hvariants hparts fun f hf g hfg => ih f hf hfg hvw hparts
    | tagged hvariants htags =>
      exact tagged_agree hvariants htags hparts fun f hf g hfg => ih f hf hfg hvw hparts
  | custom check name => cases hK _ _ h with
    | custom hcheck => exact custom_agree (hcheck v w hvw) hparts

/-! ## Other places -/

omit [Externals] in
theorem partsAlike_self (f : Field) : PartsAlike Eq Eq f f := by
  cases f with
  | string low high pattern format => exact .string rfl rfl
  | number low high integerOnly => exact .number rfl rfl rfl
  | boolean => exact .boolean
  | null => exact .null
  | any => exact .any
  | literal value => exact .literal (.refl value)
  | array element low high => exact .array rfl rfl rfl
  | tuple items => exact .tuple (List.forall₂_eq_eq_eq ▸ rfl)
  | object members =>
    exact .object ⟨fun m hm => ⟨m, hm, rfl, rfl, rfl⟩, fun m hm => ⟨m, hm, rfl, rfl, rfl⟩⟩
  | optional inner => exact .optional rfl
  | defaulted inner value => exact .defaulted rfl rfl
  | union variants discriminant =>
    cases discriminant with
    | none => exact .union (List.forall₂_eq_eq_eq ▸ rfl)
    | some key => exact .tagged (List.forall₂_eq_eq_eq ▸ rfl) fun _ _ h => h ▸ rfl
  | custom check name => exact .custom fun _ _ h => h ▸ rfl

/-- Whether anything is found in a value does not depend on the place where it stands. -/
theorem validate_elsewhere (f : Field) (v : Value) (path path' : Path) :
    f.validate o path v = .ok [] ↔ f.validate o path' v = .ok [] := by
  have hself : ∀ f g : Field, f = g → PartsAlike Eq Eq f g := by
    rintro f _ rfl
    exact partsAlike_self f
  exact (agree_iff.mp (validate_agree Value.correspondence_eq hself rfl rfl)).2

end Field
end Lineage
