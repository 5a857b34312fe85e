import Lineage.Path
import Lineage.Proofs.Text.ReadBack

/-
Selectors of items by their place.

A selector is a mark and digits.  It counts places from one, `<` from the back of an array
and `>` from the front, and without digits it stands for the first place.  A text is taken
for a selector exactly when it is written so, except that one line break may end it.  What
it selects is always an item of the array, or nothing where there is no such place.
-/

namespace Lineage
namespace Selector

/-- The mark of the end that places are counted from. -/
def mark (fromBack : Bool) : Char := if fromBack then '<' else '>'

/-- The place that digits write, the first one where there are none. -/
def place (digits : List Char) : Nat :=
  if digits.isEmpty then 1 else Text.asciiNumber digits

/-- A text that is a mark and digits, with nothing after them or a line break. -/
structure Spells (text : String) (fromBack : Bool) (digits ending : List Char) : Prop where
  chars : text.toList = mark fromBack :: (digits ++ ending)
  digits : ∀ c ∈ digits, Text.isAsciiDigit c = true
  ending : ending = [] ∨ ending = ['\n']

/-- What is written for a place counted from one of the ends. -/
def written (fromBack : Bool) (nth : Nat) : String :=
  String.ofList [mark fromBack] ++ toString nth

theorem spells_written (fromBack : Bool) (nth : Nat) :
    Spells (written fromBack nth) fromBack (toString nth).toList [] where
  chars := by rw [written, String.toList_append, String.toList_ofList, List.append_nil]; rfl
  digits _ hc := Text.isAsciiDigit_of_mem_toString hc
  ending := .inl rfl

@[simp] theorem place_toString (nth : Nat) : place (toString nth).toList = nth := by
  rw [place, List.isEmpty_eq_false_iff.mpr (Text.toString_ne_nil nth), if_neg Bool.false_ne_true,
    Text.asciiNumber_toString]

/-- The digits that a line break may follow. -/
def digitsOf (rest : List Char) : List Char :=
  if rest.getLast? == some '\n' then rest.dropLast else rest

theorem parse?_cons (c : Char) (rest : List Char) :
    parse? (c :: rest) =
      if c == '<' || c == '>' then
        if (digitsOf rest).all Text.isAsciiDigit then
          some (c == '<',
            if (digitsOf rest).isEmpty then none else some (Text.asciiNumber (digitsOf rest)))
        else none
      else none := rfl

theorem digitsOf_append {digits ending : List Char}
    (hdigits : ∀ c ∈ digits, Text.isAsciiDigit c = true)
    (hending : ending = [] ∨ ending = ['\n']) : digitsOf (digits ++ ending) = digits := by
  unfold digitsOf
  rcases hending with rfl | rfl
  · have hlast : digits.getLast? ≠ some '\n' := fun h =>
      absurd (hdigits _ (List.mem_of_getLast? h)) (by decide)
    rw [List.append_nil, if_neg (by simpa using hlast)]
  · rw [List.getLast?_concat, if_pos (beq_self_eq_true _), List.dropLast_concat]

theorem exists_ending (rest : List Char) :
    ∃ ending, rest = digitsOf rest ++ ending ∧ (ending = [] ∨ ending = ['\n']) := by
  unfold digitsOf
  split
  · next h =>
    refine ⟨['\n'], ?_, .inr rfl⟩
    exact (List.dropLast_append_getLast? '\n' (by simpa using h)).symm
  · exact ⟨[], (List.append_nil _).symm, .inl rfl⟩

/-- The place and the end that a text selects by. -/
theorem parse?_of_spells {s : String} {fromBack : Bool} {digits ending : List Char}
    (h : Spells s fromBack digits ending) :
    ∃ nth, parse? s.toList = some (fromBack, nth) ∧ nth.getD 1 = place digits := by
  have hmark : (mark fromBack == '<' || mark fromBack == '>') = true ∧
      (mark fromBack == '<') = fromBack := by
    cases fromBack <;> exact ⟨rfl, rfl⟩
  have hall : digits.all Text.isAsciiDigit = true := List.all_eq_true.mpr h.digits
  refine ⟨if digits.isEmpty then none else some (Text.asciiNumber digits), ?_, ?_⟩
  · rw [h.chars, parse?_cons, digitsOf_append h.digits h.ending, if_pos hmark.1, if_pos hall,
      hmark.2]
  · unfold place
    split <;> rfl

theorem exists_spells {s : String} {found : Bool × Option Nat}
    (h : parse? s.toList = some found) :
    ∃ fromBack digits ending, Spells s fromBack digits ending := by
  cases hs : s.toList with
  | nil =>
    rw [hs] at h
    cases h
  | cons c rest =>
    rw [hs, parse?_cons] at h
    split at h
    · next hmark =>
      split at h
      · next hall =>
        obtain ⟨ending, hrest, hending⟩ := exists_ending rest
        have hc : c = mark (c == '<') := by
          rcases Bool.or_eq_true_iff.mp hmark with hc | hc <;>
            rw [beq_iff_eq] at hc <;> subst hc <;> rfl
        exact ⟨c == '<', digitsOf rest, ending,
          ⟨by rw [← hc, ← hrest, hs], List.all_eq_true.mp hall, hending⟩⟩
      · cases h
    · cases h

/-- A place that is there is the place of an item. -/
theorem lt_of_resolve? {fromBack : Bool} {nth length i : Nat}
    (h : resolve? fromBack nth length = some i) : i < length := by
  unfold resolve? at h
  split at h
  · cases h
  · cases fromBack
    · obtain rfl : nth - 1 = i := Option.some.inj h
      omega
    · obtain rfl : length - nth = i := Option.some.inj h
      omega

end Selector

theorem inRange?_eq_some {k : Int} {length i : Nat} :
    inRange? k length = some i ↔ k = i ∧ i < length := by
  unfold inRange?
  split
  · rw [Option.some_inj]
    omega
  · exact iff_of_false nofun (by omega)

theorem Segment.resolve_key (s : String) (length : Nat) :
    (Segment.key s).resolve length =
      match Selector.parse? s.toList with
      | some (fromBack, nth) => .ok (Selector.resolve? fromBack (nth.getD 1) length)
      | none => .error ⟨s⟩ := rfl

/-- What a segment selects is an item. -/
theorem resolve_lt {segment : Segment} {length i : Nat}
    (h : segment.resolve length = .ok (some i)) : i < length := by
  cases segment with
  | index n => exact (inRange?_eq_some.mp (Except.ok.inj h)).2
  | key s =>
    rw [Segment.resolve_key] at h
    split at h
    · exact Selector.lt_of_resolve? (Except.ok.inj h)
    · cases h

namespace Segment

open Selector

theorem resolve_of_spells {s : String} {fromBack : Bool} {digits ending : List Char}
    (h : Spells s fromBack digits ending) (length : Nat) :
    (key s).resolve length = .ok (resolve? fromBack (place digits) length) := by
  obtain ⟨nth, hparse, hplace⟩ := parse?_of_spells h
  rw [resolve_key, hparse, ← hplace]

theorem resolve_eq_error_iff (s : String) (length : Nat) :
    (key s).resolve length = .error ⟨s⟩ ↔
      ¬∃ fromBack digits ending, Spells s fromBack digits ending := by
  constructor
  · rintro h ⟨fromBack, digits, ending, hspells⟩
    rw [resolve_of_spells hspells] at h
    cases h
  · intro h
    rw [resolve_key]
    cases hparse : parse? s.toList with
    | none => rfl
    | some found => exact absurd (exists_spells hparse) h

/-- A written place that is there selects its item, from whichever end. -/
theorem resolve_written {fromBack : Bool} {nth length : Nat} (hlow : 1 ≤ nth)
    (hhigh : nth ≤ length) :
    (key (written fromBack nth)).resolve length =
      .ok (some (if fromBack then length - nth else nth - 1)) := by
  rw [resolve_of_spells (spells_written fromBack nth), place_toString, resolve?, if_neg (by omega)]

/-- Which texts select by place in an array of some length, and which item each selects.  A
text that is not a mark and digits, up to one line break at the end, is refused as it stands;
every other one selects the item at its place, counted from its end, and nothing where there
is no such place.  Places from the two ends meet, and numbers select the index they are. -/
theorem resolves_by_place (length : Nat) :
    (∀ s, (key s).resolve length = .error ⟨s⟩ ↔
      ¬∃ fromBack digits ending, Spells s fromBack digits ending) ∧
    (∀ s fromBack digits ending, Spells s fromBack digits ending →
      (key s).resolve length = .ok
        (if 1 ≤ place digits ∧ place digits ≤ length then
          some (if fromBack then length - place digits else place digits - 1)
        else none)) ∧
    (∀ (segment : Segment) i, segment.resolve length = .ok (some i) → i < length) ∧
    (∀ nth, 1 ≤ nth → nth ≤ length →
      (key (written true nth)).resolve length = .ok (some (length - nth)) ∧
      (key (written false (length - nth + 1))).resolve length = .ok (some (length - nth))) ∧
    (∀ n : Nat, (index n).resolve length = .ok (inRange? n length)) ∧
    ∀ (k : Int) i, inRange? k length = some i ↔ k = i ∧ i < length := by
  refine ⟨fun s => resolve_eq_error_iff s length, fun s fromBack digits ending hspells => ?_,
    fun segment i => resolve_lt, fun nth hlow hhigh => ⟨?_, ?_⟩, fun n => rfl,
    fun k i => inRange?_eq_some⟩
  · rw [resolve_of_spells hspells, resolve?]
    by_cases hplace : 1 ≤ place digits ∧ place digits ≤ length
    · rw [if_pos hplace, if_neg (by omega)]
    · rw [if_neg hplace, if_pos (by omega)]
  · exact resolve_written hlow hhigh
  · rw [resolve_written (Nat.le_add_left 1 _) (by omega)]
    rfl

/-- Leading zeros count for nothing, and the line break is passed over. -/
theorem resolves_by_place_padded :
    Spells "<02\n" true ['0', '2'] ['\n'] ∧ (key "<02\n").resolve 3 = .ok (some 1) := by
  have hdigits : ∀ c ∈ ['0', '2'], Text.isAsciiDigit c = true :=
    List.forall_mem_cons.mpr ⟨rfl, List.forall_mem_singleton.mpr rfl⟩
  have hspells : Spells "<02\n" true ['0', '2'] ['\n'] := ⟨rfl, hdigits, .inr rfl⟩
  exact ⟨hspells, (resolves_by_place 3).2.1 _ _ _ _ hspells⟩

/-- A mark and a line break is more than a mark and digits, and still selects an item. -/
theorem resolves_before_line_break :
    ¬∀ (s : String) (length : Nat), (key s).resolve length = .error ⟨s⟩ ↔
      ¬∃ fromBack digits, Spells s fromBack digits [] := by
  intro h
  have hbare : ¬∃ fromBack digits, Spells "<\n" fromBack digits [] := by
    rintro ⟨fromBack, digits, hspells⟩
    have hchars : ['<', '\n'] = mark fromBack :: digits := by
      simpa using hspells.chars
    have hbreak : '\n' ∈ digits := by
      rw [← (List.cons.inj hchars).2]
      exact List.mem_singleton_self _
    exact absurd (hspells.digits _ hbreak) (by decide)
  have hselects : (key "<\n").resolve 3 = .ok (some 2) := rfl
  rw [(h "<\n" 3).mpr hbare] at hselects
  cases hselects

end Segment
end Lineage
