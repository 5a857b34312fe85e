import Lineage.Json.Reader
import Lineage.Proofs.Json.Escape

/-
Reading of JSON text, a piece at a time.

`Reads a cs b rest` says that the text `cs` takes the reader from state `a` to state `b`
when `rest` comes after it.  Positions only show in complaints, so it holds at all of them
or at none.  Pieces follow each other, blanks change nothing, and a token is read in one
step.  Only a number looks at what comes after it: nothing may follow that could be a part
of it.
-/

namespace Lineage
namespace Json

/-- From one state to another by a text, wherever the text begins. -/
def Reads (a : State) (cs : List Char) (b : State) (rest : List Char) : Prop :=
  ∀ pos, a.run (tokens 0 pos (cs ++ rest)) = b.run (tokens 0 (pos + cs.length) rest)

namespace Reads

variable {a b c : State} {cs ds rest : List Char}

theorem append (h : Reads a cs b (ds ++ rest)) (h' : Reads b ds c rest) :
    Reads a (cs ++ ds) c rest := by
  intro pos
  rw [List.append_assoc, h pos, h', List.length_append, Nat.add_assoc]

theorem blank (h : ∀ c ∈ cs, isSpace c = true) : Reads a cs a rest := by
  induction cs with
  | nil => exact fun pos => rfl
  | cons c more ih =>
    obtain ⟨hc, hmore⟩ := List.forall_mem_cons.mp h
    intro pos
    rw [List.cons_append, tokens, if_pos hc, ih hmore, List.length_cons, Nat.add_right_comm,
      Nat.add_assoc]

end Reads

/-! ## One token -/

/-- A text that is one token in front of `rest`. -/
def IsToken (cs : List Char) (token : Token) (rest : List Char) : Prop :=
  ∃ c more, cs = c :: more ∧ isSpace c = false ∧ firstToken c (more ++ rest) = (token, cs.length)

/-- The characters that belong to a token are passed over. -/
theorem tokens_skip (cs rest : List Char) (pos : Nat) :
    tokens cs.length pos (cs ++ rest) = tokens 0 (pos + cs.length) rest := by
  induction cs generalizing pos with
  | nil => rfl
  | cons c more ih =>
    show tokens more.length (pos + 1) (more ++ rest) = _
    rw [ih, List.length_cons, Nat.add_right_comm, Nat.add_assoc]

/-- What is a token of JSON text, and neither its end nor something that goes wrong. -/
def Token.IsSound : Token → Prop
  | .badString _ _ | .unknown | .finish => False
  | _ => True

theorem tokens_of_first {c : Char} {more : List Char} {token : Token} {width : Nat}
    (hspace : isSpace c = false) (hfirst : firstToken c more = (token, width))
    (hsound : token.IsSound) (pos : Nat) :
    tokens 0 pos (c :: more) = (pos, token) :: tokens (width - 1) (pos + 1) more := by
  rw [tokens, hspace, if_neg Bool.false_ne_true, hfirst]
  cases token with
  | badString | unknown | finish => exact hsound.elim
  | _ => rfl

/-- Nothing else leads on. -/
theorem isSound_of_step {a b : State} {pos : Nat} {token : Token}
    (h : a.step pos token = .ok b) : token.IsSound := by
  cases token with
  | badString | unknown | finish =>
    cases a with
    | after v stack =>
      cases stack with
      | nil => cases h
      | cons frame stack => cases frame <;> cases h
    | _ => cases h
  | _ => trivial

theorem run_cons_of_step {a b : State} {pos : Nat} {token : Token}
    (h : a.step pos token = .ok b) (ts : List (Nat × Token)) :
    a.run ((pos, token) :: ts) = b.run ts := by
  rw [State.run, h]
  rintro v rfl rfl
  cases h

/-- A token is read in one step. -/
theorem IsToken.reads {a b : State} {cs rest : List Char} {token : Token}
    (h : IsToken cs token rest) (hstep : ∀ pos, a.step pos token = .ok b) :
    Reads a cs b rest := by
  obtain ⟨c, more, rfl, hspace, hfirst⟩ := h
  intro pos
  have hsound := isSound_of_step (hstep pos)
  rw [List.cons_append, tokens_of_first hspace hfirst hsound, run_cons_of_step (hstep pos),
    List.length_cons, Nat.add_sub_cancel, tokens_skip, Nat.add_right_comm, Nat.add_assoc]

/-- A mark is a token by itself. -/
theorem reads_mark {a b : State} (c : Char) (token : Token) (hspace : isSpace c = false)
    (hfirst : ∀ more, firstToken c more = (token, 1))
    (hstep : ∀ pos, a.step pos token = .ok b) (rest : List Char) : Reads a [c] b rest :=
  IsToken.reads ⟨c, [], rfl, hspace, hfirst _⟩ hstep

/-! ## Numbers -/

/-- What can come after a number without becoming a part of it. -/
def Separates (rest : List Char) : Prop :=
  ∀ c, rest.head? = some c → Text.isAsciiDigit c = false ∧ c ≠ '.' ∧ c ≠ 'e' ∧ c ≠ 'E'

theorem separates_cons {c : Char} (h : Text.isAsciiDigit c = false ∧ c ≠ '.' ∧ c ≠ 'e' ∧ c ≠ 'E')
    (rest : List Char) : Separates (c :: rest) := fun _ hd => Option.some.inj hd ▸ h

theorem takeWhile_of_separates {rest : List Char} (h : Separates rest) :
    rest.takeWhile Text.isAsciiDigit = [] := by
  cases rest with
  | nil => rfl
  | cons c more => rw [List.takeWhile_cons, (h c rfl).1, if_neg Bool.false_ne_true]

theorem fraction_of_separates {rest : List Char} (h : Separates rest) : fraction rest = [] := by
  unfold fraction
  split
  · exact absurd rfl (h '.' rfl).2.1
  · rfl

theorem exponent?_of_separates {rest : List Char} (h : Separates rest) : exponent? rest = none := by
  cases rest with
  | nil => rfl
  | cons c more =>
    obtain ⟨-, -, hlower, hupper⟩ := h c rfl
    unfold exponent?
    simp [hlower, hupper]

/-- The digits of a number begin with a zero only for zero itself. -/
theorem head?_toDigits {n : Nat} (h : n ≠ 0) : (Nat.toDigits 10 n).head? ≠ some '0' := by
  induction n using Nat.strongRecOn with
  | _ n ih =>
    rcases Nat.lt_or_ge n 10 with hlt | hge
    · rw [Nat.toDigits_of_lt_base hlt]
      simpa using h
    · rw [Nat.toDigits_of_base_le (by decide) hge,
        List.head?_append_of_ne_nil _ Nat.toDigits_ne_nil]
      exact ih (n / 10) (by omega) (by omega)

theorem wholePart_toString (n : Nat) {rest : List Char} (h : Separates rest) :
    wholePart ((toString n).toList ++ rest) = (toString n).toList := by
  rw [Text.toList_toString]
  by_cases hn : n = 0
  · subst hn
    rw [Nat.toDigits_zero]
    rfl
  · have hdigits : ∀ c ∈ Nat.toDigits 10 n, Text.isAsciiDigit c = true := fun c hc =>
      Text.isAsciiDigit_of_mem_toString (by rwa [Text.toList_toString])
    unfold wholePart
    split
    · next more hzero =>
      have hhead := congrArg List.head? hzero
      rw [List.head?_append_of_ne_nil _ Nat.toDigits_ne_nil] at hhead
      exact absurd hhead (head?_toDigits hn)
    · rw [List.takeWhile_append_of_pos hdigits, takeWhile_of_separates h, List.append_nil]

/-- Digits with neither a point nor an exponent after them are an integer. -/
theorem unsigned?_of_wholePart {digits rest : List Char}
    (hwhole : wholePart (digits ++ rest) = digits) (hdigits : digits ≠ []) (h : Separates rest)
    (negative : Bool) :
    unsigned? negative (digits ++ rest) =
      some (.int (if negative then -Text.asciiNumber digits else Text.asciiNumber digits),
        digits.length) := by
  unfold unsigned?
  simp [hwhole, hdigits, fraction_of_separates h, exponent?_of_separates h]

theorem unsigned?_toString (negative : Bool) (n : Nat) {rest : List Char} (h : Separates rest) :
    unsigned? negative ((toString n).toList ++ rest) =
      some (.int (if negative then -n else n), (toString n).toList.length) := by
  rw [unsigned?_of_wholePart (wholePart_toString n h) (Text.toString_ne_nil n) h,
    Text.asciiNumber_toString]

theorem digit_ne {c d : Char} (hc : Text.isAsciiDigit c = true)
    (hd : Text.isAsciiDigit d = false) : c ≠ d := by
  rintro rfl
  rw [hc] at hd
  cases hd

/-- No name of a scalar has a digit for its first character, nor for its second. -/
theorem find?_words_of_digit {c : Char} (hc : Text.isAsciiDigit c = true) (more : List Char) :
    (words.find? fun w => w.1.isPrefixOf (c :: more)) = none ∧
    (words.find? fun w => w.1.isPrefixOf ('-' :: c :: more)) = none := by
  have hne : ∀ d, Text.isAsciiDigit d = false → (d == c) = false := fun d hd =>
    beq_eq_false_iff_ne.mpr (digit_ne hc hd).symm
  constructor <;>
    simp [words, List.isPrefixOf, hne 'n' rfl, hne 't' rfl, hne 'f' rfl, hne 'N' rfl, hne 'I' rfl,
      hne '-' rfl]

theorem firstToken_of_digit {c : Char} {more : List Char} {n : Number} {width : Nat}
    (hc : Text.isAsciiDigit c = true) (h : unsigned? false (c :: more) = some (n, width)) :
    firstToken c more = (.scalar (.number n), width) := by
  unfold firstToken
  split
  -- The first seven patterns are marks, which no digit is.
  case h_8 =>
    rw [(find?_words_of_digit hc more).1, beq_eq_false_iff_ne.mpr (digit_ne hc rfl), h]
    rfl
  all_goals cases hc

theorem firstToken_minus {c : Char} {more : List Char} {n : Number} {width : Nat}
    (hc : Text.isAsciiDigit c = true) (h : unsigned? true (c :: more) = some (n, width)) :
    firstToken '-' (c :: more) = (.scalar (.number n), width + 1) := by
  rw [firstToken, (find?_words_of_digit hc more).2, beq_self_eq_true, if_pos rfl, h]
  · rfl
  all_goals nofun

theorem firstToken_quote {rest cs : List Char} {width : Nat}
    (h : stringBody 1 rest = .ok (cs, width)) :
    firstToken '"' rest = (.string (String.ofList cs), width + 1) := by
  rw [firstToken, h]

theorem isSpace_of_digit {c : Char} (hc : Text.isAsciiDigit c = true) : isSpace c = false := by
  have hne : ∀ d, Text.isAsciiDigit d = false → (c == d) = false := fun d hd =>
    beq_eq_false_iff_ne.mpr (digit_ne hc hd)
  rw [isSpace, hne ' ' rfl, hne '\t' rfl, hne '\n' rfl, hne '\r' rfl]
  rfl

/-! ## Scalars -/

theorem isToken_null (rest : List Char) : IsToken "null".toList (.scalar .null) rest :=
  ⟨'n', ['u', 'l', 'l'], rfl, rfl, rfl⟩

theorem isToken_bool (b : Bool) (rest : List Char) :
    IsToken (if b then "true" else "false").toList (.scalar (.bool b)) rest := by
  cases b with
  | true => exact ⟨'t', ['r', 'u', 'e'], rfl, rfl, rfl⟩
  | false => exact ⟨'f', ['a', 'l', 's', 'e'], rfl, rfl, rfl⟩

theorem isToken_string (style : Style) (s : String) (rest : List Char) :
    IsToken (string style s).toList (.string s) rest := by
  rw [toList_string]
  refine ⟨'"', _, rfl, rfl, ?_⟩
  rw [List.append_assoc]
  refine (firstToken_quote (stringBody_body style s.toList rest 1)).trans ?_
  rw [String.ofList_toList, List.length_cons, List.length_append]
  rfl

theorem isToken_int (n : Int) {rest : List Char} (h : Separates rest) :
    IsToken (toString n).toList (.scalar (.number (.int n))) rest := by
  have hdigits : ∀ m : Nat, ∃ c more, (toString m).toList = c :: more ∧
      Text.isAsciiDigit c = true := fun m => by
    obtain ⟨c, more, hm⟩ := List.exists_cons_of_ne_nil (Text.toString_ne_nil m)
    exact ⟨c, more, hm, Text.isAsciiDigit_of_mem_toString (hm ▸ List.mem_cons_self)⟩
  cases n with
  | ofNat m =>
    obtain ⟨c, more, hm, hc⟩ := hdigits m
    have hread := unsigned?_toString false m h
    rw [hm, List.cons_append] at hread
    refine ⟨c, more, hm, isSpace_of_digit hc, ?_⟩
    show _ = (_, (toString m).toList.length)
    rw [firstToken_of_digit hc hread, hm]
    rfl
  | negSucc m =>
    obtain ⟨c, more, hm, hc⟩ := hdigits (m + 1)
    have hread := unsigned?_toString true (m + 1) h
    rw [hm, List.cons_append] at hread
    have htext : (toString (Int.negSucc m)).toList = '-' :: c :: more := by
      rw [← hm]
      exact String.toList_append
    refine ⟨'-', c :: more, htext, rfl, ?_⟩
    rw [List.cons_append, firstToken_minus hc hread, htext]
    rfl

end Json
end Lineage
