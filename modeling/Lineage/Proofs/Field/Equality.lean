import Lineage.Field.Equality
import Lineage.Proofs.Field.Constructed
import Lineage.Proofs.Validation.Alike
import Mathlib.Data.List.Perm.Subperm

/-
Loose equality of fields, and what validation tells apart in spite of it.

Equal bounds are at one position, equal flags have one truth, and members are equal under
their names.  But a literal `true` equals a literal `1`, a tag `1` equals a tag `1.0`, and
defaults are compared in the same way.  Fields that are alike in these, too, wherever they
face each other, accept the same values.
-/

namespace Lineage

variable {numbers : Number → Number → Bool}

/-! ## Values -/

theorem Scalar.truthy_of_asNumber? {a : Scalar} {n : Number} (h : a.asNumber? = some n) :
    a.truthy = !n.isZero := by
  cases a with
  | null => cases h
  | bool b =>
    cases h
    cases b with
    | false => exact (congrArg not (Number.same_refl rfl)).symm
    | true =>
      have hone : (Number.int 1).isZero = false := by
        rw [Bool.eq_false_iff]
        intro hzero
        exact absurd (Number.int_inj (Number.position_eq_of_same hzero)) (by decide)
      show true = !(Number.int 1).isZero
      rw [hone]
      rfl
  | number m =>
    cases h
    rfl
  | text s => cases h

theorem Scalar.truthy_of_sameBy (hnumbers : ∀ m n, numbers m n = true → m.position = n.position)
    {a b : Scalar} (h : a.sameBy numbers b = true) : a.truthy = b.truthy := by
  unfold sameBy at h
  split at h
  · next m n hm hn =>
    rw [truthy_of_asNumber? hm, truthy_of_asNumber? hn, Number.isZero_congr (hnumbers m n h)]
  · cases a <;> cases b <;> simp_all [equal, asNumber?]
  · cases h

/-- Equal scalars of one kind are alike. -/
theorem Scalar.alike_of_sameBy (hnumbers : ∀ m n, numbers m n = true → m.position = n.position)
    {a b : Scalar} (h : a.sameBy numbers b = true) (hkind : a.kind = b.kind) : a.Alike b := by
  cases a with
  | null =>
    cases b with
    | null => exact .null
    | _ => cases hkind
  | bool x =>
    cases b with
    | bool y =>
      obtain rfl := Number.bool_inj (hnumbers _ _ h)
      exact .bool x
    | _ => cases hkind
  | number m =>
    cases b with
    | number n => exact .number (hnumbers m n h)
    | _ => cases hkind
  | text s =>
    cases b with
    | text t =>
      have htext : (s == t) = true := h
      obtain rfl := eq_of_beq htext
      exact .text s
    | _ => cases hkind

namespace Value

theorem length_of_itemsCopied {as bs : List Value} (h : itemsCopied as bs = true) :
    as.length = bs.length := by
  induction as generalizing bs with
  | nil =>
    cases bs with
    | nil => rfl
    | cons b bs => cases h
  | cons a as ih =>
    cases bs with
    | nil => cases h
    | cons b bs => exact congrArg Nat.succ (ih (Bool.and_eq_true_iff.mp h).2)

theorem isEmpty_congr {α β : Type} {as : List α} {bs : List β} (h : as.length = bs.length) :
    as.isEmpty = bs.isEmpty := by
  rw [Bool.eq_iff_iff, List.isEmpty_iff_length_eq_zero, List.isEmpty_iff_length_eq_zero, h]

/-- Equal values have one truth. -/
theorem truthy_of_sameBy (hnumbers : ∀ m n, numbers m n = true → m.position = n.position)
    {a b : Value} (h : a.sameBy numbers b = true) : a.truthy = b.truthy := by
  cases a with
  | scalar s =>
    cases b with
    | scalar t => exact Scalar.truthy_of_sameBy hnumbers h
    | _ => cases h
  | array items =>
    cases b with
    | array others => exact congrArg not (isEmpty_congr (length_of_itemsCopied h))
    | _ => cases h
  | object entries =>
    cases b with
    | object others =>
      obtain ⟨hkeys, -⟩ := Bool.and_eq_true_iff.mp h
      obtain ⟨hlength, -⟩ := Bool.and_eq_true_iff.mp hkeys
      exact congrArg not (isEmpty_congr (eq_of_beq hlength))
    | _ => cases h
  | tuple items =>
    cases b with
    | tuple others => exact congrArg not (isEmpty_congr (length_of_itemsCopied h))
    | _ => cases h
  | set items =>
    cases b with
    | set others =>
      obtain ⟨hlength, -⟩ := Bool.and_eq_true_iff.mp h
      exact congrArg not (isEmpty_congr (eq_of_beq hlength))
    | _ => cases h
  | bytes s =>
    cases b with
    | bytes t =>
      obtain rfl := eq_of_beq (show (s == t) = true from h)
      rfl
    | _ => cases h
  | thing =>
    cases b with
    | thing => rfl
    | _ => cases h
  | missing =>
    cases b with
    | missing => rfl
    | _ => cases h

end Value

namespace Field

open Validation

/-! ## Attributes and children -/

theorem position_of_sameBound (hnumbers : ∀ m n, numbers m n = true → m.position = n.position)
    {a b : Option Number} (h : sameBound numbers a b = true) :
    a.map Number.position = b.map Number.position := by
  cases a with
  | none =>
    cases b with
    | none => rfl
    | some n => cases h
  | some m =>
    cases b with
    | none => cases h
    | some n => exact congrArg some (hnumbers m n h)

theorem forall₂_of_sameItemsBy {as bs : List Field} (h : sameItemsBy numbers as bs = true) :
    List.Forall₂ (fun a b => a.sameBy numbers b = true) as bs := by
  induction as generalizing bs with
  | nil =>
    cases bs with
    | nil => exact .nil
    | cons b bs => cases h
  | cons a as ih =>
    cases bs with
    | nil => cases h
    | cons b bs =>
      obtain ⟨hfirst, hrest⟩ := Bool.and_eq_true_iff.mp h
      exact .cons hfirst (ih hrest)

theorem match_of_sameMembersBy {as bs : List (Member Field)}
    (h : sameMembersBy numbers as bs = true) : ∀ m ∈ as, ∃ n,
      Member.find? m.name bs = some n ∧ m.required = n.required ∧
        m.field.sameBy numbers n.field = true := by
  induction as with
  | nil => exact List.forall_mem_nil _
  | cons m rest ih =>
    obtain ⟨name, required, f⟩ := m
    obtain ⟨hfirst, hmore⟩ := Bool.and_eq_true_iff.mp h
    refine List.forall_mem_cons.mpr ⟨?_, ih hmore⟩
    cases hfind : Member.find? name bs with
    | none =>
      rw [hfind] at hfirst
      cases hfirst
    | some n =>
      rw [hfind] at hfirst
      obtain ⟨hrequired, hfield⟩ := Bool.and_eq_true_iff.mp hfirst
      exact ⟨n, rfl, eq_of_beq hrequired, hfield⟩

/-- Names that are as many as those they are among are the same names. -/
theorem names_subset {as bs : List (Member Field)} (hlength : as.length = bs.length)
    (hnodup : (Member.names as).Nodup) (h : Member.names as ⊆ Member.names bs) :
    Member.names bs ⊆ Member.names as := by
  have hle : (Member.names bs).length ≤ (Member.names as).length := by
    unfold Member.names
    rw [List.length_map, List.length_map]
    exact Nat.le_of_eq hlength.symm
  exact ((List.subperm_of_subset hnodup h).perm_of_length_le hle).symm.subset

/-! ## Places -/

/-- Children at the same index or under the same name. -/
inductive Beside : Field → Field → Field → Field → Prop
  | element {a b : Field} {low high low' high' : Option Number} :
      Beside (.array a low high) (.array b low' high') a b
  | item {as bs : List Field} {i : Nat} {a b : Field} (ha : as[i]? = some a)
      (hb : bs[i]? = some b) : Beside (.tuple as) (.tuple bs) a b
  | member {as bs : List (Member Field)} {m n : Member Field} (hm : m ∈ as) (hn : n ∈ bs)
      (hname : m.name = n.name) : Beside (.object as) (.object bs) m.field n.field
  | optional {a b : Field} : Beside (.optional a) (.optional b) a b
  | defaulted {a b : Field} {v w : Value} : Beside (.defaulted a v) (.defaulted b w) a b
  | variant {as bs : List Field} {key key' : Option String} {i : Nat} {a b : Field}
      (ha : as[i]? = some a) (hb : bs[i]? = some b) : Beside (.union as key) (.union bs key') a b

/-- Fields at the same place of two trees. -/
inductive Facing : Field → Field → Field → Field → Prop
  | here (f g : Field) : Facing f g f g
  | deeper {f g a b x y : Field} (hbeside : Beside f g a b) (h : Facing a b x y) : Facing f g x y

/-- Two fields are alike in what loose equality would confuse: the kinds of their literals,
their defaults, the variants that their tags select and what their checks do. -/
def AlikeHere : Field → Field → Prop
  | .literal a, .literal b => a.kind = b.kind
  | .defaulted _ v, .defaulted _ w => v = w
  | .union as (some key), .union bs (some _) =>
    ∀ tag, as.findIdx? (hasTag key tag) = bs.findIdx? (hasTag key tag)
  | .custom check _, .custom check' _ => check.run = check'.run
  | _, _ => True

/-- They are so wherever the two trees have fields at the same place. -/
def ToldAlike (f g : Field) : Prop := ∀ x y, Facing f g x y → AlikeHere x y

variable {f g a b : Field} {as bs : List Field}

theorem ToldAlike.here (h : ToldAlike f g) : AlikeHere f g := h f g (.here f g)

theorem ToldAlike.beside (h : ToldAlike f g) (hbeside : Beside f g a b) : ToldAlike a b :=
  fun x y hfacing => h x y (.deeper hbeside hfacing)

theorem toldAlike_literal {a b : Scalar} (h : a.kind = b.kind) :
    ToldAlike (.literal a) (.literal b) := by
  intro x y hfacing
  cases hfacing with
  | here => exact h
  | deeper hbeside => cases hbeside

/-! ## Counterparts -/

variable [Externals]

/-- Equal trees that construction lets through and that are alike wherever equality is not
enough. -/
structure Counterparts (numbers : Number → Number → Bool) (a b : Field) : Prop where
  same : a.sameBy numbers b = true
  alike : ToldAlike a b
  left : a.Sound
  right : b.Sound

theorem counterparts_items (hsame : sameItemsBy numbers as bs = true)
    (halike : ∀ (i : Nat) a b, as[i]? = some a → bs[i]? = some b → ToldAlike a b)
    (has : ∀ a ∈ as, a.Sound) (hbs : ∀ b ∈ bs, b.Sound) :
    List.Forall₂ (Counterparts numbers) as bs := by
  have hforall := forall₂_of_sameItemsBy hsame
  refine List.forall₂_iff_get.mpr ⟨hforall.length_eq, fun i hi hi' => ?_⟩
  have ha : as[i]? = some (as.get ⟨i, hi⟩) := List.getElem?_eq_getElem hi
  have hb : bs[i]? = some (bs.get ⟨i, hi'⟩) := List.getElem?_eq_getElem hi'
  exact ⟨hforall.get hi hi', halike i _ _ ha hb, has _ (List.get_mem as _),
    hbs _ (List.get_mem bs _)⟩

theorem counterparts_members {as bs : List (Member Field)}
    (h : Counterparts numbers (.object as) (.object bs)) :
    MembersAlike (Counterparts numbers) as bs := by
  obtain ⟨hlength, hmembers⟩ := Bool.and_eq_true_iff.mp h.same
  have hmatch : ∀ m ∈ as, ∃ n, Member.find? m.name bs = some n ∧ m.required = n.required ∧
      Counterparts numbers m.field n.field := by
    intro m hm
    obtain ⟨n, hn, hrequired, hsame⟩ := match_of_sameMembersBy hmembers m hm
    have hmem := Member.mem_of_find? hn
    exact ⟨n, hn, hrequired, hsame,
      h.alike.beside (.member hm hmem (Member.name_of_find? hn).symm), h.left.objectMember hm,
      h.right.objectMember hmem⟩
  refine membersAlike_of h.right.here hmatch fun n hn => ?_
  have hsubset : Member.names as ⊆ Member.names bs := by
    intro name hname
    obtain ⟨m, hm, rfl⟩ := List.mem_map.mp hname
    obtain ⟨k, hk, -⟩ := hmatch m hm
    rw [← Member.name_of_find? hk]
    exact List.mem_map_of_mem (Member.mem_of_find? hk)
  have hnames := names_subset (eq_of_beq hlength) h.left.here hsubset
  obtain ⟨m, hm, hname⟩ := List.mem_map.mp (hnames (List.mem_map_of_mem hn))
  rw [← hname]
  exact Member.declares_of_mem hm

/-- What is alike passes to the parts. -/
theorem Counterparts.parts (hnumbers : ∀ m n, numbers m n = true → m.position = n.position)
    (h : Counterparts numbers f g) : PartsAlike (Counterparts numbers) Eq f g := by
  have hsame := h.same
  cases f with
  | string low high pattern format =>
    cases g with
    | string low' high' pattern' format' =>
      simp only [sameBy, Bool.and_eq_true, beq_iff_eq] at hsame
      obtain ⟨⟨⟨hlow, hhigh⟩, rfl⟩, rfl⟩ := hsame
      exact .string (position_of_sameBound hnumbers hlow) (position_of_sameBound hnumbers hhigh)
    | _ => cases hsame
  | number low high integerOnly =>
    cases g with
    | number low' high' integerOnly' =>
      simp only [sameBy, Bool.and_eq_true] at hsame
      obtain ⟨⟨hlow, hhigh⟩, hflag⟩ := hsame
      exact .number (position_of_sameBound hnumbers hlow) (position_of_sameBound hnumbers hhigh)
        (Value.truthy_of_sameBy hnumbers hflag)
    | _ => cases hsame
  | boolean =>
    cases g with
    | boolean => exact .boolean
    | _ => cases hsame
  | null =>
    cases g with
    | null => exact .null
    | _ => cases hsame
  | any =>
    cases g with
    | any => exact .any
    | _ => cases hsame
  | literal a =>
    cases g with
    | literal b => exact .literal (Scalar.alike_of_sameBy hnumbers hsame h.alike.here)
    | _ => cases hsame
  | array a low high =>
    cases g with
    | array b low' high' =>
      simp only [sameBy, Bool.and_eq_true] at hsame
      obtain ⟨⟨helement, hlow⟩, hhigh⟩ := hsame
      exact .array ⟨helement, h.alike.beside .element, h.left.arrayElement, h.right.arrayElement⟩
        (position_of_sameBound hnumbers hlow) (position_of_sameBound hnumbers hhigh)
    | _ => cases hsame
  | tuple as =>
    cases g with
    | tuple bs =>
      exact .tuple (counterparts_items hsame (fun i a b ha hb => h.alike.beside (.item ha hb))
        (fun a ha => h.left.tupleItem ha) fun b hb => h.right.tupleItem hb)
    | _ => cases hsame
  | object as =>
    cases g with
    | object bs => exact .object (counterparts_members h)
    | _ => cases hsame
  | optional a =>
    cases g with
    | optional b =>
      exact .optional ⟨hsame, h.alike.beside .optional, h.left.optionalInner, h.right.optionalInner⟩
    | _ => cases hsame
  | defaulted a v =>
    cases g with
    | defaulted b w =>
      obtain ⟨hinner, -⟩ := Bool.and_eq_true_iff.mp hsame
      exact .defaulted ⟨hinner, h.alike.beside .defaulted, h.left.defaultedInner,
        h.right.defaultedInner⟩ h.alike.here
    | _ => cases hsame
  | union as key =>
    cases g with
    | union bs key' =>
      obtain ⟨hitems, hkey⟩ := Bool.and_eq_true_iff.mp hsame
      obtain rfl := eq_of_beq hkey
      have hvariants := counterparts_items hitems
        (fun i a b ha hb => h.alike.beside (.variant ha hb))
        (fun a ha => h.left.unionVariant ha) fun b hb => h.right.unionVariant hb
      cases key with
      | none => exact .union hvariants
      | some key =>
        refine .tagged hvariants ?_
        rintro tag _ rfl
        exact h.alike.here tag
    | _ => cases hsame
  | custom check name =>
    cases g with
    | custom check' name' =>
      refine .custom ?_
      rintro v _ rfl
      exact congrFun h.alike.here v
    | _ => cases hsame

/-- Counterparts agree on every value. -/
theorem Counterparts.agree (hnumbers : ∀ m n, numbers m n = true → m.position = n.position)
    (h : Counterparts numbers f g) (o : Options) (path : Path) (v : Value) :
    Agree (f.validate o path v) (g.validate o path v) :=
  validate_agree Value.correspondence_eq (fun _ _ hparts => hparts.parts hnumbers) h rfl

end Field
end Lineage
