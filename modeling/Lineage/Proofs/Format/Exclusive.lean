import Lineage.Format.Email
import Lineage.Proofs.Field.Overlap
import Lineage.Proofs.Text.ReadBack

/-
No text is both an e-mail address and a unique identifier.

An address has an at-sign.  Whatever decoration an identifier has, dropping it keeps
an at-sign, and no number in base sixteen has one.
-/

namespace Lineage

theorem mem_dropWhile_of_not {p : Char → Bool} {c : Char} {cs : List Char} (hc : c ∈ cs)
    (hp : p c = false) : c ∈ cs.dropWhile p := by
  induction cs with
  | nil => cases hc
  | cons d rest ih =>
    rw [List.dropWhile_cons]
    rcases List.mem_cons.mp hc with rfl | hc
    · rw [hp]
      exact List.mem_cons_self
    · split
      · exact ih hc
      · exact List.mem_cons_of_mem _ hc

/-- A character that is not trimmed stays when both ends are trimmed. -/
theorem mem_trim {p : Char → Bool} {c : Char} {cs : List Char} (hc : c ∈ cs)
    (hp : p c = false) : c ∈ ((cs.dropWhile p).reverse.dropWhile p).reverse :=
  List.mem_reverse.mpr
    (mem_dropWhile_of_not (List.mem_reverse.mpr (mem_dropWhile_of_not hc hp)) hp)

theorem mem_of_mem_trim {p : Char → Bool} {c : Char} {cs : List Char}
    (hc : c ∈ ((cs.dropWhile p).reverse.dropWhile p).reverse) : c ∈ cs :=
  (List.dropWhile_sublist p).subset
    (List.mem_reverse.mp ((List.dropWhile_sublist p).subset (List.mem_reverse.mp hc)))

namespace Email

theorem mem_of_splitAt {x : Char} {cs : List Char} {before after : List Char}
    (h : Text.splitAt x cs = [before, after]) : x ∈ cs := by
  rw [(Text.splitAt_eq_cons_iff.mp h).1, List.flatMap_cons]
  exact List.mem_append_right _ List.mem_cons_self

theorem mem_of_mem_address {c : Char} {s : String} (h : c ∈ address s) : c ∈ s.toList := by
  unfold address at h
  simp only at h
  split at h
  · exact h
  · split at h
    · split at h
      · exact List.mem_of_mem_drop (List.mem_of_mem_take h)
      · exact h
    · exact h

theorem at_mem_of_isEmail {s : String} (h : isEmail s = true) : '@' ∈ s.toList := by
  unfold isEmail at h
  split at h
  · cases h
  · simp only at h
    split at h
    · next before domain hsplit =>
      exact mem_of_mem_address (mem_of_mem_trim (mem_of_splitAt hsplit))
    · cases h

end Email

namespace Uuid

/-- Dropping a word keeps a character that the word does not have.  The `skip`
characters still to be dropped belong to the word. -/
theorem mem_dropWord {w : Char} {ws : List Char} {c : Char} (hword : c ∉ w :: ws) {skip : Nat}
    {cs : List Char} (hskip : ∀ d ∈ cs.take skip, d ∈ w :: ws) (hc : c ∈ cs) :
    c ∈ dropWord (w :: ws) skip cs := by
  induction cs generalizing skip with
  | nil => cases hc
  | cons d rest ih =>
    cases skip with
    | succ n =>
      rw [List.take_succ_cons] at hskip
      obtain ⟨hd, hrest⟩ := List.forall_mem_cons.mp hskip
      rcases List.mem_cons.mp hc with rfl | hc
      · exact absurd hd hword
      · exact ih hrest hc
    | zero =>
      unfold dropWord
      simp only
      split
      · next hprefix =>
        obtain ⟨more, hmore⟩ := List.isPrefixOf_iff_prefix.mp hprefix
        obtain ⟨rfl, rfl⟩ := List.cons.inj hmore
        rcases List.mem_cons.mp hc with rfl | hc
        · exact absurd List.mem_cons_self hword
        · refine ih (fun d hd => ?_) hc
          have htake : (ws ++ more).take ((w :: ws).length - 1) = ws := by simp
          exact List.mem_cons_of_mem _ (htake ▸ hd)
      · rcases List.mem_cons.mp hc with rfl | hc
        · exact List.mem_cons_self
        · exact List.mem_cons_of_mem _ (ih (by simp) hc)

theorem at_mem_bare {cs : List Char} (h : '@' ∈ cs) : '@' ∈ bare cs := by
  have hplain : '@' ∈ dropWord "uuid:".toList 0 (dropWord "urn:".toList 0 cs) :=
    mem_dropWord (by decide) (by simp) (mem_dropWord (by decide) (by simp) h)
  exact List.mem_filter.mpr ⟨mem_trim hplain (by decide), by decide⟩

theorem at_not_mem_of_isDigits {digit : Bool} {cs : List Char}
    (h : isDigits digit cs = true) : '@' ∉ cs := by
  induction cs generalizing digit with
  | nil => exact List.not_mem_nil
  | cons c rest ih =>
    unfold isDigits at h
    intro hat
    rcases List.mem_cons.mp hat with rfl | hat
    · exact absurd h (by rw [if_neg (by decide), show isHexDigit '@' = false from by decide]; simp)
    · split at h
      · rw [Bool.and_eq_true] at h
        exact ih h.2 hat
      · rw [Bool.and_eq_true] at h
        exact ih h.2 hat

theorem at_not_mem_of_isHexNumber {cs : List Char} (h : isHexNumber cs = true) : '@' ∉ cs := by
  intro hat
  unfold isHexNumber at h
  extract_lets trimmed unsigned at h
  have htrimmed : '@' ∈ trimmed := mem_trim hat (by decide)
  clear_value trimmed
  have hunsigned : '@' ∈ unsigned := by
    unfold unsigned
    split
    · exact (List.mem_cons.mp htrimmed).resolve_left (by decide)
    · exact htrimmed
  clear_value unsigned
  split at h
  · next x rest =>
    split at h
    · next hx =>
      have hne : '@' ≠ x := by
        rintro rfl
        exact absurd hx (by decide)
      have hrest : '@' ∈ rest :=
        (List.mem_cons.mp ((List.mem_cons.mp hunsigned).resolve_left (by decide))).resolve_left hne
      split at h
      · exact at_not_mem_of_isDigits h ((List.mem_cons.mp hrest).resolve_left (by decide))
      · exact at_not_mem_of_isDigits h hrest
    · exact at_not_mem_of_isDigits h hunsigned
  · exact at_not_mem_of_isDigits h hunsigned

end Uuid

/-- So the forms are exclusive where addresses are these. -/
theorem Email.exclusive : Format.Exclusive := by
  intro s hemail
  refine Bool.eq_false_iff.mpr fun huuid => ?_
  have hbare := Uuid.at_mem_bare (Email.at_mem_of_isEmail hemail)
  unfold Uuid.isUuid at huuid
  rw [Bool.and_eq_true] at huuid
  exact Uuid.at_not_mem_of_isHexNumber huuid.2 hbare

end Lineage
