import Lineage.Field

/-
Members of an object, looked up by name.

A put changes what is found under one name and under no other.
-/

namespace Lineage
namespace Member

variable {α : Type} {name : String} {members : List (Member α)} {m : Member α}

theorem mem_of_find? (h : find? name members = some m) : m ∈ members := by
  induction members with
  | nil => cases h
  | cons n rest ih =>
    unfold find? at h
    split at h
    · cases h
      exact List.mem_cons_self
    · exact List.mem_cons_of_mem _ (ih h)

theorem name_of_find? (h : find? name members = some m) : m.name = name := by
  induction members with
  | nil => cases h
  | cons n rest ih =>
    unfold find? at h
    split at h
    · next hname =>
      cases h
      exact hname
    · exact ih h

theorem find?_map {β : Type} (g : α → β) :
    find? name (members.map fun m => ⟨m.name, m.required, g m.field⟩) =
      (find? name members).map fun m => ⟨m.name, m.required, g m.field⟩ := by
  induction members with
  | nil => rfl
  | cons n rest ih =>
    rw [List.map_cons, find?, find?, ih]
    split
    · rfl
    · rfl

theorem declares_of_mem (hm : m ∈ members) : declares members m.name = true := by
  unfold declares
  induction members with
  | nil => cases hm
  | cons n rest ih =>
    rw [find?]
    split
    · rfl
    · next hne =>
      rcases List.mem_cons.mp hm with rfl | hm
      · exact absurd rfl hne
      · exact ih hm

/-- Where names differ, each member is the one found under its name. -/
theorem find?_of_mem (hnodup : (names members).Nodup) (hm : m ∈ members) :
    find? m.name members = some m := by
  induction members with
  | nil => cases hm
  | cons n rest ih =>
    obtain ⟨hn, hrest⟩ := List.nodup_cons.mp hnodup
    rcases List.mem_cons.mp hm with rfl | hm
    · rw [find?, if_pos rfl]
    · have hne : n.name ≠ m.name := fun h => hn (h ▸ List.mem_map_of_mem hm)
      rw [find?, if_neg hne]
      exact ih hrest hm

theorem eq_of_name (hnodup : (names members).Nodup) {n : Member α} (hm : m ∈ members)
    (hn : n ∈ members) (h : m.name = n.name) : m = n := by
  have hfind := find?_of_mem hnodup hm
  rw [h, find?_of_mem hnodup hn] at hfind
  exact (Option.some.inj hfind).symm

theorem find?_eq_none : find? name members = none ↔ name ∉ names members := by
  induction members with
  | nil => simp [find?, names]
  | cons n rest ih =>
    rw [find?]
    by_cases hname : n.name = name
    · rw [if_pos hname]
      simp [names, hname]
    · rw [if_neg hname, ih]
      simp [names, Ne.symm hname]

theorem declares_iff : declares members name = true ↔ name ∈ names members := by
  unfold declares
  rw [Option.isSome_iff_ne_none, ne_eq, find?_eq_none, Decidable.not_not]

/-! ## Put -/

theorem mem_put {n : Member α} (h : n ∈ put m members) : n = m ∨ n ∈ members := by
  induction members with
  | nil => exact .inl (List.mem_singleton.mp h)
  | cons k rest ih =>
    rw [put] at h
    split at h
    · exact (List.mem_cons.mp h).imp_right (List.mem_cons_of_mem _)
    · rcases List.mem_cons.mp h with rfl | h
      · exact .inr List.mem_cons_self
      · exact (ih h).imp_right (List.mem_cons_of_mem _)

theorem find?_put (m : Member α) (members : List (Member α)) (name : String) :
    find? name (put m members) = if m.name = name then some m else find? name members := by
  induction members with
  | nil => rfl
  | cons n rest ih =>
    rw [put]
    by_cases hsame : n.name = m.name
    · rw [if_pos hsame, find?, find?, hsame]
      by_cases hname : m.name = name
      · rw [if_pos hname, if_pos hname]
      · rw [if_neg hname, if_neg hname, if_neg hname]
    · rw [if_neg hsame, find?, find?, ih]
      by_cases hname : n.name = name
      · have hne : m.name ≠ name := fun h => hsame (hname.trans h.symm)
        rw [if_pos hname, if_neg hne, if_pos hname]
      · rw [if_neg hname, if_neg hname]

/-- A put under a name that is there leaves every other member in its place. -/
theorem put_of_find? (h : find? name members = some m) :
    ∃ before after, members = before ++ m :: after ∧
      ∀ n : Member α, n.name = name → put n members = before ++ n :: after := by
  induction members with
  | nil => cases h
  | cons k rest ih =>
    rw [find?] at h
    split at h
    · next hname =>
      cases h
      refine ⟨[], rest, rfl, fun n hn => ?_⟩
      rw [put, if_pos (hname.trans hn.symm)]
      rfl
    · next hne =>
      obtain ⟨before, after, rfl, hput⟩ := ih h
      refine ⟨k :: before, after, rfl, fun n hn => ?_⟩
      rw [put, if_neg fun hsame => hne (hsame.trans hn), hput n hn]
      rfl

/-- Putting back what is there changes nothing. -/
theorem put_found (h : find? m.name members = some m) : put m members = members := by
  induction members with
  | nil => cases h
  | cons n rest ih =>
    rw [find?] at h
    rw [put]
    split at h
    · next hname =>
      cases h
      rw [if_pos rfl]
    · next hne => rw [if_neg hne, ih h]

/-- Nothing is left of what was put under a name before. -/
theorem put_put {n : Member α} (hname : m.name = n.name) (members : List (Member α)) :
    put m (put n members) = put m members := by
  induction members with
  | nil => exact if_pos hname.symm
  | cons k rest ih =>
    rw [put, put, hname]
    by_cases hk : k.name = n.name
    · rw [if_pos hk, if_pos hk, put, if_pos hname.symm]
    · rw [if_neg hk, if_neg hk, put, hname, if_neg hk, ih]

theorem mem_names_put (h : name ∈ names (put m members)) :
    name = m.name ∨ name ∈ names members := by
  by_cases hname : name = m.name
  · exact .inl hname
  · refine .inr (Decidable.byContradiction fun hnot => ?_)
    have hfind := find?_put m members name
    rw [if_neg (Ne.symm hname), find?_eq_none.mpr hnot] at hfind
    exact find?_eq_none.mp hfind h

theorem nodup_put (h : (names members).Nodup) : (names (put m members)).Nodup := by
  induction members with
  | nil => exact List.nodup_cons.mpr ⟨List.not_mem_nil, .nil⟩
  | cons n rest ih =>
    obtain ⟨hn, hrest⟩ := List.nodup_cons.mp h
    rw [put]
    by_cases hsame : n.name = m.name
    · rw [if_pos hsame]
      exact List.nodup_cons.mpr ⟨hsame ▸ hn, hrest⟩
    · rw [if_neg hsame]
      refine List.nodup_cons.mpr ⟨fun hmem => ?_, ih hrest⟩
      exact (mem_names_put hmem).elim hsame hn

/-- A new name goes to the end. -/
theorem put_of_new (h : m.name ∉ names members) : put m members = members ++ [m] := by
  induction members with
  | nil => rfl
  | cons n rest ih =>
    obtain ⟨hn, hrest⟩ := not_or.mp (fun hor => h (List.mem_cons.mpr hor))
    rw [put, if_neg (Ne.symm hn), ih hrest]
    rfl

end Member
end Lineage
