import Lineage.Json.Printer
import Lineage.Json.Token
import Lineage.Proofs.Text.ReadBack

/-
Strings of JSON text, read back.

A character stands in a string as itself, as a backslash and a letter, as four digits of
base sixteen, or as two such escapes when it is beyond the basic plane.  Whatever comes
next, each of these is read as that one character, so the inside of a string is read
character by character up to the quote that closes it.
-/

namespace Lineage
namespace Json

/-! ## Digits of base sixteen -/

theorem hexValue?_digitChar : ∀ d < 16, hexValue? (Nat.digitChar d) = some d := by decide

/-- The last digit stands apart from the ones before it. -/
theorem toList_hex_succ (width n : Nat) :
    (Text.hex (width + 2) n).toList =
      (Text.hex (width + 1) (n / 16)).toList ++ [Nat.digitChar (n % 16)] := by
  unfold Text.hex
  rw [String.toList_ofList, String.toList_ofList]
  rcases Nat.lt_or_ge n 16 with hlt | hge
  · rw [Nat.toDigits_of_lt_base hlt, Nat.div_eq_of_lt hlt, Nat.mod_eq_of_lt hlt, Nat.toDigits_zero]
    show List.replicate (width + 1) '0' ++ _ = (List.replicate width '0' ++ ['0']) ++ _
    rw [← List.replicate_succ']
  · rw [Nat.toDigits_of_base_le (by decide) hge, List.length_append, ← List.append_assoc]
    show List.replicate (width + 1 + 1 - (_ + 1)) '0' ++ _ ++ _ = _
    rw [Nat.add_sub_add_right]

/-- Four digits are enough for what two octets hold. -/
theorem exists_hex_four {n : Nat} (h : n < 65536) :
    ∃ a b c d, (Text.hex 4 n).toList = [a, b, c, d] ∧ hexFour? a b c d = some n := by
  have hfirst : n / 16 / 16 / 16 < 16 := by omega
  have hone : (Text.hex 1 (n / 16 / 16 / 16)).toList = [Nat.digitChar (n / 16 / 16 / 16)] := by
    rw [Text.hex, String.toList_ofList, Nat.toDigits_of_lt_base hfirst]
    rfl
  have hlist : (Text.hex 4 n).toList = [Nat.digitChar (n / 16 / 16 / 16),
      Nat.digitChar (n / 16 / 16 % 16), Nat.digitChar (n / 16 % 16), Nat.digitChar (n % 16)] := by
    rw [toList_hex_succ, toList_hex_succ, toList_hex_succ, hone]
    rfl
  refine ⟨_, _, _, _, hlist, ?_⟩
  have hdigit : ∀ m, hexValue? (Nat.digitChar (m % 16)) = some (m % 16) := fun m =>
    hexValue?_digitChar _ (Nat.mod_lt m (by decide))
  unfold hexFour?
  rw [hexValue?_digitChar _ hfirst, hdigit, hdigit, hdigit]
  exact congrArg some (by omega)

/-! ## One character -/

/-- Code points of characters: none is a surrogate. -/
theorem toNat_range (c : Char) :
    c.toNat < 0xD800 ∨ 0xDFFF < c.toNat ∧ c.toNat < 0x110000 := c.valid

theorem unitChar_toNat (c : Char) : unitChar c.toNat = c := by
  have hrange := toNat_range c
  rw [unitChar, if_neg (by omega), Char.ofNat_toNat]

theorem stringBody_letter {letter c : Char} (h : unescape? letter = some c) (offset : Nat)
    (tail : List Char) :
    stringBody offset ('\\' :: letter :: tail) = prepend c 2 (stringBody (offset + 2) tail) := by
  have hletter : letter ≠ 'u' := by
    rintro rfl
    cases h
  -- The patterns before this one begin with a `u`.
  rw [stringBody, h]
  all_goals simp [hletter]

theorem stringBody_self {c : Char} (hquote : c ≠ '"') (hslash : c ≠ '\\') (hlow : 32 ≤ c.toNat)
    (offset : Nat) (tail : List Char) :
    stringBody offset (c :: tail) = prepend c 1 (stringBody (offset + 1) tail) := by
  rw [stringBody, if_neg (by omega)]
  all_goals simp [hquote, hslash]

/-- An escape that is no first half of a pair stands for one character.  It is found whether or
not another escape follows it; the text only has to go on. -/
theorem stringBody_unit {a b c d : Char} {n : Nat} (h : hexFour? a b c d = some n)
    (hhigh : isHighSurrogate n = false) (offset : Nat) {tail : List Char} (htail : tail ≠ []) :
    stringBody offset ('\\' :: 'u' :: a :: b :: c :: d :: tail) =
      prepend (unitChar n) 6 (stringBody (offset + 6) tail) := by
  obtain ⟨next, rest, rfl⟩ := List.exists_cons_of_ne_nil htail
  rw [stringBody.eq_def]
  split <;> grind

theorem stringBody_pair {a b c d e f g h : Char} {high low : Nat}
    (hhigh : hexFour? a b c d = some high) (hlow : hexFour? e f g h = some low)
    (hfirst : isHighSurrogate high = true) (hsecond : isLowSurrogate low = true) (offset : Nat)
    {tail : List Char} (htail : tail ≠ []) :
    stringBody offset
        ('\\' :: 'u' :: a :: b :: c :: d :: '\\' :: 'u' :: e :: f :: g :: h :: tail) =
      prepend (Char.ofNat (0x10000 + (high - 0xD800) * 0x400 + (low - 0xDC00))) 12
        (stringBody (offset + 12) tail) := by
  obtain ⟨next, rest, rfl⟩ := List.exists_cons_of_ne_nil htail
  rw [stringBody, hhigh, hlow]
  simp only
  rw [if_pos hfirst, if_pos hsecond]

/-- What a character of a string is written as, whatever the style: itself, one of the letters,
one escape, or the two escapes of a pair. -/
inductive Written (c : Char) : List Char → Prop
  | self (hquote : c ≠ '"') (hslash : c ≠ '\\') (hlow : 32 ≤ c.toNat) : Written c [c]
  | letter {letter : Char} (h : unescape? letter = some c) : Written c ['\\', letter]
  | unit {x₁ x₂ x₃ x₄ : Char} (h : hexFour? x₁ x₂ x₃ x₄ = some c.toNat) :
      Written c ['\\', 'u', x₁, x₂, x₃, x₄]
  | pair {x₁ x₂ x₃ x₄ y₁ y₂ y₃ y₄ : Char} {high low : Nat}
      (hhigh : hexFour? x₁ x₂ x₃ x₄ = some high) (hlow : hexFour? y₁ y₂ y₃ y₄ = some low)
      (hfirst : isHighSurrogate high = true) (hsecond : isLowSurrogate low = true)
      (hc : 0x10000 + (high - 0xD800) * 0x400 + (low - 0xDC00) = c.toNat) :
      Written c ['\\', 'u', x₁, x₂, x₃, x₄, '\\', 'u', y₁, y₂, y₃, y₄]

theorem toList_hexEscape (n : Nat) :
    (hexEscape n).toList = '\\' :: 'u' :: (Text.hex 4 n).toList := by
  rw [hexEscape, String.toList_append]
  rfl

theorem written_hexEscape {c : Char} (h : c.toNat < 65536) :
    Written c (hexEscape c.toNat).toList := by
  obtain ⟨a, b, d, e, hlist, hvalue⟩ := exists_hex_four h
  rw [toList_hexEscape, hlist]
  exact .unit hvalue

/-- Beyond the basic plane the two halves of the code point fill a pair of surrogates. -/
theorem written_pair {c : Char} (h : 65536 ≤ c.toNat) :
    Written c (hexEscape (55296 + (c.toNat - 65536) / 1024) ++
      hexEscape (56320 + (c.toNat - 65536) % 1024)).toList := by
  have hrange := toNat_range c
  obtain ⟨a, b, d, e, hlist, hhigh⟩ :=
    exists_hex_four (n := 55296 + (c.toNat - 65536) / 1024) (by omega)
  obtain ⟨f, g, k, i, hlist', hlow⟩ :=
    exists_hex_four (n := 56320 + (c.toNat - 65536) % 1024) (by omega)
  rw [String.toList_append, toList_hexEscape, toList_hexEscape, hlist, hlist']
  refine .pair hhigh hlow ?_ ?_ (by omega)
  · simp only [isHighSurrogate, Bool.and_eq_true, decide_eq_true_eq]
    omega
  · simp only [isLowSurrogate, Bool.and_eq_true, decide_eq_true_eq]
    omega

theorem Written.ite {c : Char} {p : Prop} [Decidable p] {s t : String}
    (hs : p → Written c s.toList) (ht : ¬p → Written c t.toList) :
    Written c (if p then s else t).toList := by
  split
  · next h => exact hs h
  · next h => exact ht h

theorem written_escapedChar (style : Style) (c : Char) :
    Written c (escapedChar style c).toList := by
  have hcode : ∀ n, (c.toNat == n) = true → c = Char.ofNat n := fun n hn => by
    rw [← beq_iff_eq.mp hn, Char.ofNat_toNat]
  -- Seven characters have a letter; the others go by their code point.
  refine .ite (fun h => beq_iff_eq.mp h ▸ .letter rfl) fun hquote => ?_
  refine .ite (fun h => beq_iff_eq.mp h ▸ .letter rfl) fun hslash => ?_
  refine .ite (fun h => beq_iff_eq.mp h ▸ .letter rfl) fun _ => ?_
  refine .ite (fun h => beq_iff_eq.mp h ▸ .letter rfl) fun _ => ?_
  refine .ite (fun h => beq_iff_eq.mp h ▸ .letter rfl) fun _ => ?_
  refine .ite (fun h => hcode 8 h ▸ .letter rfl) fun _ => ?_
  refine .ite (fun h => hcode 12 h ▸ .letter rfl) fun _ => ?_
  refine .ite (fun _ => written_hexEscape (by omega)) fun hlow => ?_
  refine .ite (fun _ => ?_) fun _ => .ite written_hexEscape fun h => written_pair (by omega)
  rw [Char.toString_eq_singleton, String.toList_singleton]
  exact .self (by simpa using hquote) (by simpa using hslash) (by omega)

/-- Whatever stands for a character is read as it, if the text goes on. -/
theorem Written.read {c : Char} {cs : List Char} (h : Written c cs) (offset : Nat)
    {tail : List Char} (htail : tail ≠ []) :
    stringBody offset (cs ++ tail) =
      prepend c cs.length (stringBody (offset + cs.length) tail) := by
  cases h with
  | self hquote hslash hlow => exact stringBody_self hquote hslash hlow offset tail
  | letter h => exact stringBody_letter h offset tail
  | unit h =>
    have hhigh : isHighSurrogate c.toNat = false := by
      have hrange := toNat_range c
      simp only [isHighSurrogate, Bool.and_eq_false_iff, decide_eq_false_iff_not]
      omega
    exact (stringBody_unit h hhigh offset htail).trans (by rw [unitChar_toNat]; rfl)
  | pair hhigh hlow hfirst hsecond hc =>
    exact (stringBody_pair hhigh hlow hfirst hsecond offset htail).trans
      (by rw [hc, Char.ofNat_toNat]; rfl)

/-! ## A whole string -/

/-- The characters of a string, each as it is written. -/
def body (style : Style) (cs : List Char) : List Char :=
  cs.flatMap fun c => (escapedChar style c).toList

theorem toList_string (style : Style) (s : String) :
    (string style s).toList = '"' :: (body style s.toList ++ ['"']) := by
  rw [string, String.toList_append, String.toList_append, Text.toList_joined_empty,
    List.flatMap_map]
  rfl

/-- What is inside a string is read up to the quote that closes it. -/
theorem stringBody_body (style : Style) (cs rest : List Char) (offset : Nat) :
    stringBody offset (body style cs ++ '"' :: rest) = .ok (cs, (body style cs).length + 1) := by
  induction cs generalizing offset with
  | nil => rfl
  | cons c more ih =>
    have htail : body style more ++ '"' :: rest ≠ [] :=
      List.append_ne_nil_of_right_ne_nil _ (List.cons_ne_nil _ _)
    rw [body, List.flatMap_cons, ← body, List.append_assoc,
      (written_escapedChar style c).read offset htail, ih, List.length_append]
    show Except.ok (c :: more, _) = _
    rw [Nat.add_right_comm, Nat.add_comm (body style more).length]

end Json
end Lineage
