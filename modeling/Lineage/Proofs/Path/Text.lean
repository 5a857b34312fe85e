import Lineage.Path
import Lineage.Proofs.Text.ReadBack

/-
The written form of a path.

A text is read as a path exactly when it is the root followed by parts that are neither
empty nor hold a point, each after a point.  A path is read back from its text exactly when
each of its keys could be such a part and is not made of digits alone, which would be read
as an index.  What is read has only such keys, so reading it back changes nothing.
-/

namespace Lineage
namespace Segment

/-- A segment that stands for itself in a written path: a key that can be a part of one and
is not taken for an index. -/
def Readable : Segment → Prop
  | key name => name ≠ "" ∧ '.' ∉ name.toList ∧ name.toList.all Text.isAsciiDigit = false
  | index _ => True

/-- What a part of a written path has to be. -/
def IsPart (part : List Char) : Prop := part ≠ [] ∧ '.' ∉ part

theorem isPart_text {s : Segment} (h : s.Readable) : IsPart s.text.toList := by
  cases s with
  | key name => exact ⟨fun hnil => h.1 (String.toList_eq_nil_iff.mp hnil), h.2.1⟩
  | index n =>
    refine ⟨Text.toString_ne_nil n, fun hpoint => ?_⟩
    exact absurd (Text.isAsciiDigit_of_mem_toString hpoint) (by decide)

theorem ofPart_text {s : Segment} (h : s.Readable) : ofPart s.text.toList = s := by
  cases s with
  | key name =>
    have hdigits : name.toList.all Text.isAsciiDigit = false := h.2.2
    show ofPart name.toList = _
    rw [ofPart, hdigits, Bool.and_false, if_neg Bool.false_ne_true, String.ofList_toList]
  | index n =>
    have hdigits : (toString n).toList.all Text.isAsciiDigit = true :=
      List.all_eq_true.mpr fun c hc => Text.isAsciiDigit_of_mem_toString hc
    have hsome : (toString n).toList.isEmpty = false :=
      List.isEmpty_eq_false_iff.mpr (Text.toString_ne_nil n)
    show ofPart (toString n).toList = _
    rw [ofPart, hdigits, hsome, Bool.not_false, Bool.and_true, if_pos rfl,
      Text.asciiNumber_toString]

theorem readable_ofPart {part : List Char} (h : IsPart part) : (ofPart part).Readable := by
  unfold ofPart
  split
  · exact trivial
  · next hkey =>
    refine ⟨fun hempty => h.1 ?_, ?_, ?_⟩
    · rw [← String.toList_ofList (l := part), hempty, String.toList_empty]
    · rw [String.toList_ofList]
      exact h.2
    · rw [String.toList_ofList]
      simpa [h.1] using hkey

end Segment

namespace Path

/-- A text that is the root and these parts, each after a point. -/
structure Writes (text : String) (parts : List (List Char)) : Prop where
  joined : text.toList = '$' :: parts.flatMap ('.' :: ·)
  parts : ∀ part ∈ parts, Segment.IsPart part

theorem toList_text (p : Path) :
    p.text.toList = '$' :: (p.segments.map fun s => s.text.toList).flatMap ('.' :: ·) := by
  unfold text
  rw [String.toList_append, Text.toList_joined_empty, List.flatMap_map, List.flatMap_map]
  simp only [String.toList_append]
  rfl

theorem text_child (p : Path) (s : Segment) : (p.child s).text = p.text ++ "." ++ s.text := by
  apply String.toList_inj.mp
  rw [toList_text, String.toList_append, String.toList_append, toList_text, child,
    List.map_append, List.flatMap_append, List.append_assoc]
  simp

/-- What is read as a path, and which path that is. -/
theorem parse_eq_ok_iff {text : String} {p : Path} :
    parse text = .ok p ↔ ∃ parts, Writes text parts ∧ p = ⟨parts.map Segment.ofPart⟩ := by
  constructor
  · intro h
    unfold parse at h
    split at h
    · next rest hsplit =>
      split at h
      · cases h
      · next hnonempty =>
        cases h
        obtain ⟨hjoined, hfree⟩ := Text.splitAt_eq_cons_iff.mp hsplit
        refine ⟨rest, ⟨hjoined, fun part hpart => ⟨?_, ?_⟩⟩, rfl⟩
        · rintro rfl
          exact hnonempty (List.any_eq_true.mpr ⟨[], hpart, rfl⟩)
        · exact hfree part (List.mem_cons_of_mem _ hpart)
    · cases h
  · rintro ⟨parts, ⟨hjoined, hparts⟩, rfl⟩
    have hsplit : Text.splitAt '.' text.toList = ['$'] :: parts :=
      Text.splitAt_eq_cons_iff.mpr ⟨hjoined, List.forall_mem_cons.mpr
        ⟨by decide, fun part hpart => (hparts part hpart).2⟩⟩
    have hnonempty : parts.any List.isEmpty = false :=
      List.any_eq_false.mpr fun part hpart => by simpa using (hparts part hpart).1
    unfold parse
    rw [hsplit]
    simp only
    rw [hnonempty, if_neg Bool.false_ne_true]

/-- A text that is no path is reported as it stands. -/
theorem eq_of_parse_eq_error {text : String} {e : BadPath} (h : parse text = .error e) :
    e = ⟨text⟩ := by
  unfold parse at h
  split at h
  · split at h <;> cases h
    rfl
  · cases h
    rfl

theorem parse_text {p : Path} (h : ∀ s ∈ p.segments, s.Readable) : parse p.text = .ok p := by
  refine parse_eq_ok_iff.mpr ⟨p.segments.map fun s => s.text.toList, ⟨toList_text p, ?_⟩, ?_⟩
  · exact List.forall_mem_map.mpr fun s hs => Segment.isPart_text (h s hs)
  · have hsegments : (p.segments.map fun s => s.text.toList).map Segment.ofPart = p.segments := by
      rw [List.map_map]
      exact (List.map_congr_left fun s hs => Segment.ofPart_text (h s hs)).trans (List.map_id _)
    rw [hsegments]

theorem readable_of_parse {text : String} {p : Path} (h : parse text = .ok p) :
    ∀ s ∈ p.segments, s.Readable := by
  obtain ⟨parts, hwrites, rfl⟩ := parse_eq_ok_iff.mp h
  exact List.forall_mem_map.mpr fun part hpart => Segment.readable_ofPart (hwrites.parts part hpart)

/-- Paths are read from exactly the texts of their grammar, and every other text is
refused.  A path is read back from its own text exactly when every key in it is not empty,
holds no point and is not made of digits alone; so a path that has been read is. -/
theorem reads_exactly_grammar :
    (∀ text : String,
      (∀ p, parse text = .ok p ↔
        ∃ parts, Writes text parts ∧ p = ⟨parts.map Segment.ofPart⟩) ∧
      ((∃ p, parse text = .ok p) ↔ ∃ parts, Writes text parts) ∧
      (parse text = .error ⟨text⟩ ↔ ¬∃ parts, Writes text parts)) ∧
    (∀ p : Path, parse p.text = .ok p ↔
      ∀ name, Segment.key name ∈ p.segments →
        name ≠ "" ∧ '.' ∉ name.toList ∧ name.toList.all Text.isAsciiDigit = false) ∧
    ∀ text : String, (parse text >>= fun p => parse p.text) = parse text := by
  have hreads : ∀ text : String, (∃ p, parse text = .ok p) ↔ ∃ parts, Writes text parts := by
    intro text
    constructor
    · rintro ⟨p, hp⟩
      obtain ⟨parts, hwrites, -⟩ := parse_eq_ok_iff.mp hp
      exact ⟨parts, hwrites⟩
    · rintro ⟨parts, hwrites⟩
      exact ⟨_, parse_eq_ok_iff.mpr ⟨parts, hwrites, rfl⟩⟩
  refine ⟨fun text => ⟨fun p => parse_eq_ok_iff, hreads text, ?_⟩, fun p => ⟨?_, ?_⟩,
    fun text => ?_⟩
  · rw [← hreads]
    cases hparse : parse text with
    | ok p => exact iff_of_false nofun (not_not_intro ⟨p, rfl⟩)
    | error e =>
      rw [eq_of_parse_eq_error hparse]
      exact iff_of_true rfl nofun
  · intro h name hname
    exact readable_of_parse h _ hname
  · refine fun h => parse_text fun s hs => ?_
    cases s with
    | key name => exact h name hs
    | index n => exact trivial
  · cases hparse : parse text with
    | ok p => exact parse_text (readable_of_parse hparse)
    | error e => rfl

end Path
end Lineage
