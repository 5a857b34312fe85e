import Lineage.Value.Entries
import Lineage.Proofs.Value.Checked

/-
Entries of an object, looked up by name.

Putting, erasing and renaming keep each key once, and each changes what is found
under the names it is about and under no other.
-/

namespace Lineage
namespace Entries

variable {α : Type}

/-- Each key stands once. -/
def Distinct (entries : List (Key × α)) : Prop :=
  entries.Pairwise fun a b => a.1.same b.1 = false

theorem sizeOf_value_lt [SizeOf α] {entries : List (Key × α)} {e : Key × α} (h : e ∈ entries) :
    sizeOf e.2 < sizeOf entries := by
  have hlt := List.sizeOf_lt_of_mem h
  obtain ⟨key, value⟩ := e
  simp only [Prod.mk.sizeOf_spec] at hlt
  show sizeOf value < _
  omega

/-! ## Put -/

theorem mem_put {key : Key} {value : α} {entries : List (Key × α)} {e : Key × α}
    (h : e ∈ put key value entries) : e ∈ entries ∨ e.2 = value := by
  induction entries with
  | nil =>
    rw [List.mem_singleton.mp h]
    exact .inr rfl
  | cons d rest ih =>
    obtain ⟨k, w⟩ := d
    unfold put at h
    split at h
    · rcases List.mem_cons.mp h with rfl | h
      · exact .inr rfl
      · exact .inl (List.mem_cons_of_mem _ h)
    · rcases List.mem_cons.mp h with rfl | h
      · exact .inl List.mem_cons_self
      · exact (ih h).imp_left (List.mem_cons_of_mem _)

/-- Keys after a put are the keys before it, and perhaps the one that is put. -/
theorem key_mem_put {key : Key} {value : α} {entries : List (Key × α)} {e : Key × α}
    (h : e ∈ put key value entries) : e.1 = key ∨ ∃ d ∈ entries, d.1 = e.1 := by
  induction entries with
  | nil =>
    rw [List.mem_singleton.mp h]
    exact .inl rfl
  | cons d rest ih =>
    obtain ⟨k, w⟩ := d
    unfold put at h
    split at h
    · rcases List.mem_cons.mp h with rfl | h
      · exact .inr ⟨_, List.mem_cons_self, rfl⟩
      · exact .inr ⟨e, List.mem_cons_of_mem _ h, rfl⟩
    · rcases List.mem_cons.mp h with rfl | h
      · exact .inr ⟨_, List.mem_cons_self, rfl⟩
      · exact (ih h).imp_right fun ⟨d, hd, hk⟩ => ⟨d, List.mem_cons_of_mem _ hd, hk⟩

theorem Distinct.put {key : Key} {value : α} {entries : List (Key × α)}
    (h : Distinct entries) : Distinct (put key value entries) := by
  induction entries with
  | nil => exact List.pairwise_singleton _ _
  | cons d rest ih =>
    obtain ⟨k, w⟩ := d
    obtain ⟨hk, hrest⟩ := List.pairwise_cons.mp h
    unfold Entries.put
    split
    · exact List.pairwise_cons.mpr ⟨hk, hrest⟩
    · next hne =>
      refine List.pairwise_cons.mpr ⟨fun e he => ?_, ih hrest⟩
      rcases key_mem_put he with hkey | ⟨d, hd, hkey⟩
      · rw [hkey]
        exact Bool.not_eq_true _ |>.mp hne
      · rw [← hkey]
        exact hk d hd

theorem distinct_putAll {pairs entries : List (Key × α)} (h : Distinct entries) :
    Distinct (putAll pairs entries) := by
  induction pairs generalizing entries with
  | nil => exact h
  | cons p rest ih => exact ih h.put

theorem distinct_ofPairs (pairs : List (Key × α)) : Distinct (ofPairs pairs) :=
  distinct_putAll .nil

/-- What was put is a pair that was there before. -/
theorem mem_putAll {pairs entries : List (Key × α)} {e : Key × α}
    (h : e ∈ putAll pairs entries) : (∃ d ∈ pairs, d.2 = e.2) ∨ ∃ d ∈ entries, d.2 = e.2 := by
  induction pairs generalizing entries with
  | nil => exact .inr ⟨e, h, rfl⟩
  | cons p rest ih =>
    rcases ih h with ⟨d, hd, hvalue⟩ | ⟨d, hd, hvalue⟩
    · exact .inl ⟨d, List.mem_cons_of_mem _ hd, hvalue⟩
    · rcases mem_put hd with hmem | hput
      · exact .inr ⟨d, hmem, hvalue⟩
      · exact .inl ⟨p, List.mem_cons_self, hput.symm.trans hvalue⟩

theorem mem_ofPairs {pairs : List (Key × α)} {e : Key × α} (h : e ∈ ofPairs pairs) :
    ∃ d ∈ pairs, d.2 = e.2 := by
  rcases mem_putAll h with h | ⟨d, hd, -⟩
  · exact h
  · cases hd

/-- A new key goes to the end. -/
theorem put_of_new {key : Key} {value : α} {entries : List (Key × α)}
    (h : ∀ e ∈ entries, e.1.same key = false) :
    put key value entries = entries ++ [(key, value)] := by
  induction entries with
  | nil => rfl
  | cons d rest ih =>
    obtain ⟨hd, hrest⟩ := List.forall_mem_cons.mp h
    rw [put, hd, if_neg Bool.false_ne_true, ih hrest, List.cons_append]

/-- An entry that stands behind others under a key of its own is put there. -/
theorem put_of_distinct {p : Key × α} {entries rest : List (Key × α)}
    (h : Distinct (entries ++ p :: rest)) : put p.1 p.2 entries = entries ++ [p] :=
  put_of_new fun e he => (List.pairwise_append.mp h).2.2 e he p List.mem_cons_self

theorem putAll_of_new {pairs entries : List (Key × α)}
    (h : Distinct (entries ++ pairs)) : putAll pairs entries = entries ++ pairs := by
  induction pairs generalizing entries with
  | nil => rw [List.append_nil]; rfl
  | cons p rest ih =>
    show putAll rest (put p.1 p.2 entries) = _
    rw [put_of_distinct h, ih (by rwa [List.append_assoc]), List.append_assoc]
    rfl

/-- Pairs that name each key once are entries as they stand. -/
theorem ofPairs_of_distinct {pairs : List (Key × α)} (h : Distinct pairs) :
    ofPairs pairs = pairs :=
  putAll_of_new h

/-! ## Look up -/

theorem find?_append (key : Key) (a b : List (Key × α)) :
    find? key (a ++ b) = (find? key a).or (find? key b) := by
  induction a with
  | nil => rfl
  | cons d rest ih =>
    rw [List.cons_append, find?, find?, ih]
    split
    · rfl
    · rfl

/-- Where keys differ, an entry under a text is the one found there. -/
theorem find?_of_mem {name : String} {entries : List (Key × α)} {v : α} (h : Distinct entries)
    (hmem : (Key.text name, v) ∈ entries) : find? (.text name) entries = some v := by
  induction entries with
  | nil => cases hmem
  | cons d rest ih =>
    obtain ⟨hd, hrest⟩ := List.pairwise_cons.mp h
    rcases List.mem_cons.mp hmem with rfl | hmem
    · rw [find?, if_pos (Key.same_text_iff.mpr rfl)]
    · have hne : d.1.same (.text name) = false := hd _ hmem
      rw [find?, hne]
      exact ih hrest hmem

theorem find?_eq_none {name : String} {entries : List (Key × α)} :
    find? (.text name) entries = none ↔ ∀ e ∈ entries, e.1 ≠ .text name := by
  induction entries with
  | nil => simp [find?]
  | cons d rest ih =>
    rw [List.forall_mem_cons, ← ih, find?]
    by_cases hd : d.1 = .text name
    · rw [if_pos (Key.same_text_iff.mpr hd)]
      simp [hd]
    · rw [if_neg fun h => hd (Key.same_text_iff.mp h)]
      simp [hd]

theorem find?_put (key name : String) (value : α) (entries : List (Key × α)) :
    find? (.text name) (put (.text key) value entries) =
      if key = name then some value else find? (.text name) entries := by
  induction entries with
  | nil =>
    show (if (Key.text key).same (.text name) then some value else none) = _
    rw [Key.text_same_text]
    by_cases hname : key = name <;> simp [hname, find?]
  | cons d rest ih =>
    obtain ⟨k, w⟩ := d
    rw [put]
    by_cases hkey : k = .text key
    · subst hkey
      rw [if_pos (Key.same_text_iff.mpr rfl), find?, find?, Key.text_same_text]
      by_cases hname : key = name <;> simp [hname]
    · rw [if_neg fun h => hkey (Key.same_text_iff.mp h), find?, find?, ih]
      by_cases hname : k = .text name
      · have hne : key ≠ name := fun h => hkey (h ▸ hname)
        rw [if_pos (Key.same_text_iff.mpr hname), if_neg hne,
          if_pos (Key.same_text_iff.mpr hname)]
      · rw [if_neg fun h => hname (Key.same_text_iff.mp h),
          if_neg fun h => hname (Key.same_text_iff.mp h)]

/-- A filter that looks at keys alone keeps what is found under a key it lets through. -/
theorem find?_filter (keep : Key → Bool) (name : String) (entries : List (Key × α)) :
    find? (.text name) (entries.filter fun e => keep e.1) =
      if keep (.text name) then find? (.text name) entries else none := by
  induction entries with
  | nil => simp [find?]
  | cons d rest ih =>
    by_cases hname : d.1 = .text name
    · by_cases hkeep : keep (.text name) = true
      · rw [List.filter_cons_of_pos (by simpa [hname] using hkeep), if_pos hkeep, find?, find?,
          if_pos (Key.same_text_iff.mpr hname), if_pos (Key.same_text_iff.mpr hname)]
      · rw [List.filter_cons_of_neg (by simpa [hname] using hkeep), ih, if_neg hkeep, if_neg hkeep]
    · have hskip : find? (.text name) (d :: rest) = find? (.text name) rest := by
        rw [find?, if_neg fun h => hname (Key.same_text_iff.mp h)]
      rw [hskip, ← ih]
      by_cases hkeep : keep d.1 = true
      · rw [List.filter_cons, if_pos hkeep, find?, if_neg fun h => hname (Key.same_text_iff.mp h)]
      · rw [List.filter_cons, if_neg hkeep]

theorem find?_erase (key name : String) (entries : List (Key × α)) :
    find? (.text name) (erase (.text key) entries) =
      if key = name then none else find? (.text name) entries := by
  unfold erase
  rw [find?_filter (fun k => !k.same (.text key)), Key.text_same_text]
  by_cases hname : key = name <;> simp [hname, Ne.symm]

theorem erase_of_absent {name : String} {entries : List (Key × α)}
    (h : find? (.text name) entries = none) : erase (.text name) entries = entries := by
  refine List.filter_eq_self.mpr fun e he => ?_
  have hne := find?_eq_none.mp h e he
  simpa using fun hsame => hne (Key.same_text_iff.mp hsame)

theorem put_of_absent {name : String} {value : α} {entries : List (Key × α)}
    (h : find? (.text name) entries = none) :
    put (.text name) value entries = entries ++ [(.text name, value)] :=
  put_of_new fun e he => Bool.eq_false_iff.mpr fun hsame =>
    find?_eq_none.mp h e he (Key.same_text_iff.mp hsame)

theorem erase_put {name : String} {value : α} {entries : List (Key × α)}
    (h : find? (.text name) entries = none) :
    erase (.text name) (put (.text name) value entries) = entries := by
  have hlast : erase (.text name) [(.text name, value)] = ([] : List (Key × α)) := by
    simp [erase]
  rw [put_of_absent h, erase, List.filter_append, ← erase, ← erase, erase_of_absent h, hlast,
    List.append_nil]

/-! ## Entries under names -/

/-- Entries as an object of a document has them: under texts, each once. -/
structure Named (entries : List (Key × α)) : Prop where
  distinct : Distinct entries
  names : ∀ e ∈ entries, ∃ name, e.1 = .text name

variable {entries : List (Key × α)}

theorem Named.find?_of_mem (h : Named entries) {e : Key × α} (he : e ∈ entries) :
    ∃ name, e.1 = .text name ∧ find? (.text name) entries = some e.2 := by
  obtain ⟨name, hname⟩ := h.names e he
  refine ⟨name, hname, Entries.find?_of_mem h.distinct ?_⟩
  rw [← hname]
  exact he

theorem Named.put (h : Named entries) (name : String) (value : α) :
    Named (put (.text name) value entries) where
  distinct := h.distinct.put
  names e he := by
    rcases key_mem_put he with hkey | ⟨d, hd, hkey⟩
    · exact ⟨name, hkey⟩
    · rw [← hkey]
      exact h.names d hd

theorem Named.filter (h : Named entries) (keep : Key × α → Bool) : Named (entries.filter keep) where
  distinct := h.distinct.sublist List.filter_sublist
  names e he := h.names e (List.mem_filter.mp he).1

/-! ## Rename -/

/-- An entry under the name that a rename leaves it with. -/
def underKey (old new : Key) (e : Key × α) : Key × α := (if e.1.same old then new else e.1, e.2)

theorem find?_map_underKey {old new : String} (hnew : find? (.text new) entries = none)
    (name : String) :
    find? (.text name) (entries.map (underKey (.text old) (.text new))) =
      if new = name then find? (.text old) entries
      else if old = name then none else find? (.text name) entries := by
  induction entries with
  | nil => simp [find?]
  | cons d rest ih =>
    obtain ⟨k, w⟩ := d
    obtain ⟨hk, hrest⟩ := List.forall_mem_cons.mp (find?_eq_none.mp hnew)
    have ih := ih (find?_eq_none.mpr hrest)
    rw [List.map_cons, find?, find?, find?, ih]
    by_cases hold : k = .text old
    · subst hold
      simp only [underKey, Key.text_same_text]
      by_cases hname : new = name <;> by_cases hgone : old = name <;> simp [hname, hgone]
    · have hunder : (underKey (.text old) (.text new) (k, w)).1 = k :=
        if_neg fun h => hold (Key.same_text_iff.mp h)
      rw [hunder, if_neg fun h => hold (Key.same_text_iff.mp h)]
      by_cases hname : k = .text name
      · have hnewName : new ≠ name := fun h => hk (h ▸ hname)
        have holdName : old ≠ name := fun h => hold (h ▸ hname)
        rw [if_pos (Key.same_text_iff.mpr hname), if_neg hnewName, if_neg holdName,
          if_pos (Key.same_text_iff.mpr hname)]
        rfl
      · rw [if_neg fun h => hname (Key.same_text_iff.mp h),
          if_neg fun h => hname (Key.same_text_iff.mp h)]

theorem Distinct.map_underKey (h : Distinct entries) {old new : String}
    (hnew : find? (.text new) entries = none) :
    Distinct (entries.map (underKey (.text old) (.text new))) := by
  have habsent := find?_eq_none.mp hnew
  refine List.pairwise_map.mpr (h.imp_of_mem fun {d e} hd he hne => ?_)
  -- Only one entry has the old name, so a renamed one meets no other.
  unfold underKey
  by_cases hdold : d.1.same (.text old) = true
  · by_cases heold : e.1.same (.text old) = true
    · rw [Key.same_text_iff.mp hdold, Key.same_text_iff.mp heold] at hne
      exact absurd hne (by simp)
    · simp only [if_pos hdold, if_neg heold]
      exact Bool.eq_false_iff.mpr fun hsame => habsent e he (Key.text_same_iff.mp hsame)
  · by_cases heold : e.1.same (.text old) = true
    · simp only [if_neg hdold, if_pos heold]
      exact Bool.eq_false_iff.mpr fun hsame => habsent d hd (Key.same_text_iff.mp hsame)
    · simp only [if_neg hdold, if_neg heold]
      exact hne

theorem Named.map_underKey (h : Named entries) {old new : String}
    (hnew : find? (.text new) entries = none) :
    Named (entries.map (underKey (.text old) (.text new))) where
  distinct := h.distinct.map_underKey hnew
  names e he := by
    obtain ⟨d, hd, rfl⟩ := List.mem_map.mp he
    obtain ⟨name, hname⟩ := h.names d hd
    unfold underKey
    by_cases hold : d.1.same (.text old) = true
    · exact ⟨new, if_pos hold⟩
    · exact ⟨name, (if_neg hold).trans hname⟩

theorem rename_of_new (h : Distinct entries) {old new : String}
    (hnew : find? (.text new) entries = none) :
    rename (.text old) (.text new) entries = entries.map (underKey (.text old) (.text new)) :=
  ofPairs_of_distinct (h.map_underKey hnew)

/-- A key that is renamed and renamed back is where it was. -/
theorem rename_rename (h : Distinct entries) {old new : String} {v : α}
    (hold : find? (.text old) entries = some v) (hnew : find? (.text new) entries = none) :
    rename (.text new) (.text old) (rename (.text old) (.text new) entries) = entries := by
  have hne : new ≠ old := by
    rintro rfl
    exact absurd (hold.symm.trans hnew) nofun
  have hgone : find? (.text old) (entries.map (underKey (.text old) (.text new))) = none := by
    rw [find?_map_underKey hnew, if_neg hne, if_pos rfl]
  rw [rename_of_new h hnew, rename_of_new (h.map_underKey hnew) hgone, List.map_map]
  refine (List.map_congr_left fun e he => ?_).trans (List.map_id entries)
  have habsent := find?_eq_none.mp hnew e he
  unfold Function.comp underKey
  by_cases hkey : e.1.same (.text old) = true
  · rw [if_pos hkey, if_pos (Key.same_text_iff.mpr rfl), ← Key.same_text_iff.mp hkey]
    rfl
  · rw [if_neg hkey, if_neg fun hsame => habsent (Key.same_text_iff.mp hsame)]
    rfl

/-- Nothing is renamed where there is nothing under the old name. -/
theorem rename_of_absent (h : Named entries) {old new : String}
    (hold : find? (.text old) entries = none) :
    rename (.text old) (.text new) entries = entries := by
  have hsame : entries.map (underKey (.text old) (.text new)) = entries := by
    refine (List.map_congr_left fun e he => ?_).trans (List.map_id entries)
    have hne := find?_eq_none.mp hold e he
    unfold underKey
    rw [if_neg fun hsame => hne (Key.same_text_iff.mp hsame)]
    rfl
  exact (congrArg ofPairs hsame).trans (ofPairs_of_distinct h.distinct)

end Entries
end Lineage
