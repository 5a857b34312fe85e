/-
Patterns that texts are matched against: literals, classes, anchors, groups,
repetition, references back to groups, and conditions on what lies ahead or
behind.
-/

namespace Lineage
namespace Pattern

/-- Which characters count as the same letter. -/
inductive CaseRule where
  | exact
  | ascii
  | unicode
  deriving DecidableEq

/-- Classes of characters with a letter of their own. -/
inductive Category where
  | digit
  | space
  | word
  deriving DecidableEq

/-- What a bracketed class lists.  Characters are given by their code points; those of
surrogates can be written, too, and belong to no character of a text. -/
inductive ClassItem where
  | code (n : Nat)
  | range (first last : Nat)
  | category (kind : Category) (negated asciiOnly : Bool)
  deriving DecidableEq

/-- Conditions on a place in the text that take no characters. -/
inductive Anchor where
  | textStart
  | textEnd
  /-- The end of the text, or the line break that ends it. -/
  | finalLineEnd
  | lineStart
  | lineEnd
  | wordEdge (negated asciiOnly : Bool)
  deriving DecidableEq

/-- Whether a repetition takes as much as it can, as little, or all it can
without giving any back. -/
inductive Appetite where
  | greedy
  | lazy
  | possessive
  deriving DecidableEq

inductive Regex where
  | empty
  | anyChar (lineBreaks : Bool)
  | oneOf (negated : Bool) (items : List ClassItem) (rule : CaseRule)
  | anchor (a : Anchor)
  | sequence (first second : Regex)
  | choice (first second : Regex)
  | capture (group : Nat) (body : Regex)
  | reference (group : Nat) (rule : CaseRule)
  /-- At least `least` times and at most `most` times, if there is a limit. -/
  | repetition (least : Nat) (most : Option Nat) (appetite : Appetite) (body : Regex)
  | ahead (negated : Bool) (body : Regex)
  | behind (negated : Bool) (width : Nat) (body : Regex)
  | atomic (body : Regex)
  | conditional (group : Nat) (yes no : Regex)

namespace Regex

def ofList : List Regex → Regex
  | [] => .empty
  | [r] => r
  | r :: s :: rest => .sequence r (ofList (s :: rest))

def ofChoices : List Regex → Regex
  | [] => .empty
  | [r] => r
  | r :: s :: rest => .choice r (ofChoices (s :: rest))

/-- The least and the greatest count of characters that a match can take, with no
greatest when it is unbounded.  `widths` tells it of the groups. -/
def width (widths : Nat → Nat × Option Nat) : Regex → Nat × Option Nat
  | .empty => (0, some 0)
  | .anyChar _ => (1, some 1)
  | .oneOf _ _ _ => (1, some 1)
  | .anchor _ => (0, some 0)
  | .sequence a b =>
    let (l, h) := a.width widths
    let (m, i) := b.width widths
    (l + m, do return (← h) + (← i))
  | .choice a b =>
    let (l, h) := a.width widths
    let (m, i) := b.width widths
    (min l m, do return max (← h) (← i))
  | .capture _ body => body.width widths
  | .reference group _ => widths group
  | .repetition least most _ body =>
    let (l, h) := body.width widths
    (l * least,
      match h, most with
      | some 0, _ => some 0
      | some h, some most => some (h * most)
      | _, _ => none)
  | .ahead _ _ => (0, some 0)
  | .behind _ _ _ => (0, some 0)
  | .atomic body => body.width widths
  | .conditional _ yes no =>
    let (l, h) := yes.width widths
    let (m, i) := no.width widths
    (min l m, do return max (← h) (← i))

/-- Whether the last item of a sequence is a place, which cannot be repeated. -/
def isAnchor : Regex → Bool
  | .anchor _ => true
  | _ => false

def isRepetition : Regex → Bool
  | .repetition _ _ _ _ => true
  | _ => false

end Regex
end Pattern
end Lineage
