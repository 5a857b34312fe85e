import Lineage.Pattern
import Lineage.Text.Blank
import Lineage.Text.Case
import Lineage.Text.Digit
import Lineage.Text.Word

/-
Matching with backtracking.

A pattern is run at a position with what must follow as a continuation; the first
way to satisfy both is the answer, tried in the order that the appetite of
repetitions and the order of choices give.  The recursion is on the pattern.  A
repetition stops when a round takes no characters, so its rounds are bounded by
the length of the text.
-/

namespace Lineage
namespace Pattern

/-- What each group took last: from where and up to where. -/
abbrev Captures := List (Nat × Nat × Nat)

def Captures.find? (captures : Captures) (group : Nat) : Option (Nat × Nat) :=
  captures.lookup group

/-- What follows a match: the position and captures it is handed, and the whole
match that comes of them. -/
abbrev Continuation := Nat → Captures → Option (Nat × Captures)

/-- A pattern made ready to run. -/
abbrev Runner := Nat → Captures → Continuation → Option (Nat × Captures)

def asciiSpace (c : Char) : Bool := c == ' ' || (decide (9 ≤ c.toNat) && decide (c.toNat ≤ 13))

def asciiWord (c : Char) : Bool := decide (c.toNat < 128) && Text.isWord c

def Category.contains (kind : Category) (asciiOnly : Bool) (c : Char) : Bool :=
  match kind with
  | .digit => if asciiOnly then Text.isAsciiDigit c else Text.isDecimal c
  | .space => if asciiOnly then asciiSpace c else Text.isBlank c
  | .word => if asciiOnly then asciiWord c else Text.isWord c

def ClassItem.contains (item : ClassItem) (c : Char) : Bool :=
  match item with
  | .code n => c.toNat == n
  | .range first last => decide (first ≤ c.toNat) && decide (c.toNat ≤ last)
  | .category kind negated asciiOnly => kind.contains asciiOnly c != negated

/-- The characters that stand for the same letter. -/
def CaseRule.variants (rule : CaseRule) (c : Char) : List Char :=
  match rule with
  | .exact => [c]
  | .ascii =>
    if c.toNat < 128 then [Text.asciiLower c, Text.asciiUpper (Text.asciiLower c)] else [c]
  | .unicode => Text.variants c

def CaseRule.same (rule : CaseRule) (c d : Char) : Bool :=
  match rule with
  | .exact => c == d
  | rule => (rule.variants c).contains d

def classContains (negated : Bool) (items : List ClassItem) (rule : CaseRule) (c : Char) :
    Bool :=
  (items.any fun item => (rule.variants c).any item.contains) != negated

/-- Whether a place in a text meets a condition.  No text without characters has
an edge of a word, nor a place that is none. -/
def Anchor.holds (a : Anchor) (text : Array Char) (pos : Nat) : Bool :=
  match a with
  | .textStart => pos == 0
  | .textEnd => pos == text.size
  | .finalLineEnd => pos == text.size || (pos + 1 == text.size && text[pos]? == some '\n')
  | .lineStart => pos == 0 || text[pos - 1]? == some '\n'
  | .lineEnd => pos == text.size || text[pos]? == some '\n'
  | .wordEdge negated asciiOnly =>
    let word := fun (c : Option Char) => c.any (Category.word.contains asciiOnly)
    let before := pos != 0 && word text[pos - 1]?
    !text.isEmpty && ((word text[pos]? != before) != negated)

/-- Whether the `count` characters from `i` and from `j` are the same letters. -/
def sameStretch (text : Array Char) (rule : CaseRule) (i j : Nat) : Nat → Bool
  | 0 => true
  | count + 1 =>
    match text[i]?, text[j]? with
    | some c, some d => rule.same c d && sameStretch text rule (i + 1) (j + 1) count
    | _, _ => false

/-- Rounds of a repetition.  `done` rounds are over and `last` is where the latest
optional one began; another optional one is tried only if that one moved on, so
beyond the required rounds there are at most two for each character. -/
def rounds (body : Runner) (least : Nat) (most : Option Nat) (eager : Bool) :
    (fuel done : Nat) → (last : Option Nat) → Runner
  | 0, _, _, pos, captures, k => k pos captures
  | fuel + 1, done, last, pos, captures, k =>
    if done < least then
      body pos captures fun next captures =>
        rounds body least most eager fuel (done + 1) last next captures k
    else
      let another := fun (_ : Unit) =>
        if most.any (done ≥ ·) || last == some pos then none
        else
          body pos captures fun next captures =>
            rounds body least most eager fuel (done + 1) (some pos) next captures k
      if eager then
        match another () with
        | some found => some found
        | none => k pos captures
      else
        match k pos captures with
        | some found => some found
        | none => another ()

/-- Where a match ends, without regard to what follows. -/
def stop : Continuation := fun pos captures => some (pos, captures)

def Regex.run (text : Array Char) : Regex → Runner
  | .empty, pos, captures, k => k pos captures
  | .anyChar lineBreaks, pos, captures, k =>
    match text[pos]? with
    | some c => if lineBreaks || c != '\n' then k (pos + 1) captures else none
    | none => none
  | .oneOf negated items rule, pos, captures, k =>
    match text[pos]? with
    | some c => if classContains negated items rule c then k (pos + 1) captures else none
    | none => none
  | .anchor a, pos, captures, k => if a.holds text pos then k pos captures else none
  | .sequence a b, pos, captures, k =>
    a.run text pos captures fun next captures => b.run text next captures k
  | .choice a b, pos, captures, k =>
    match a.run text pos captures k with
    | some found => some found
    | none => b.run text pos captures k
  | .capture group body, pos, captures, k =>
    body.run text pos captures fun next captures => k next ((group, pos, next) :: captures)
  | .reference group rule, pos, captures, k =>
    match captures.find? group with
    | some (i, j) =>
      if sameStretch text rule i pos (j - i) then k (pos + (j - i)) captures else none
    | none => none
  | .repetition least most appetite body, pos, captures, k =>
    let fuel := least + 2 * text.size + 4
    match appetite with
    | .greedy => rounds (body.run text) least most true fuel 0 none pos captures k
    | .lazy => rounds (body.run text) least most false fuel 0 none pos captures k
    | .possessive =>
      match rounds (body.run text) least most true fuel 0 none pos captures stop with
      | some (next, captures) => k next captures
      | none => none
  | .ahead negated body, pos, captures, k =>
    match body.run text pos captures stop with
    | some (_, inner) => if negated then none else k pos inner
    | none => if negated then k pos captures else none
  | .behind negated width body, pos, captures, k =>
    let found :=
      if pos < width then none
      else body.run text (pos - width) captures fun next inner =>
        if next = pos then some (next, inner) else none
    match found with
    | some (_, inner) => if negated then none else k pos inner
    | none => if negated then k pos captures else none
  | .atomic body, pos, captures, k =>
    match body.run text pos captures stop with
    | some (next, captures) => k next captures
    | none => none
  | .conditional group yes no, pos, captures, k =>
    if (captures.find? group).isSome then yes.run text pos captures k
    else no.run text pos captures k

/-- Whether a pattern matches a text from end to end. -/
def Regex.matchesAll (r : Regex) (s : String) : Bool :=
  let text := s.toList.toArray
  (r.run text 0 [] fun pos captures =>
    if pos = text.size then some (pos, captures) else none).isSome

end Pattern
end Lineage
