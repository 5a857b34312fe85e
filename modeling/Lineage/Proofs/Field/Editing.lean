import Lineage.Field.Editing
import Lineage.Proofs.Field.Members

/-
Edited members, looked up by name.

Every edit keeps each name once.  What is found under a name afterwards is read off
the edit and what was found before, whatever the order of the members.
-/

namespace Lineage
namespace Member

variable {name other : String} {members : List (Member Field)} {m : Member Field} {child : Field}

/-- A name that is new is required unless its field accepts absence. -/
theorem withField_of_new (hnew : find? name members = none) :
    withField name child members = put ⟨name, !child.acceptsAbsence, child⟩ members := by
  unfold withField
  rw [hnew]
  rfl

theorem find?_withoutField :
    find? other (withoutField name members) =
      if name = other then none else find? other members := by
  unfold withoutField
  induction members with
  | nil => simp [find?]
  | cons n rest ih =>
    by_cases hname : n.name = name
    · rw [List.filter_cons_of_neg (by simpa using hname), ih, find?, hname]
      by_cases hother : name = other
      · rw [if_pos hother, if_pos hother]
      · rw [if_neg hother, if_neg hother, if_neg hother]
    · rw [List.filter_cons_of_pos (by simpa using hname), find?, find?, ih]
      by_cases hother : n.name = other
      · have hne : name ≠ other := fun h => hname (hother.trans h.symm)
        rw [if_pos hother, if_neg hne, if_pos hother]
      · rw [if_neg hother, if_neg hother]

theorem nodup_withoutField (h : (names members).Nodup) :
    (names (withoutField name members)).Nodup :=
  h.sublist (List.filter_sublist.map Member.name)

theorem withoutField_put (hnew : find? m.name members = none) :
    withoutField m.name (put m members) = members := by
  have hname := find?_eq_none.mp hnew
  have hkept : withoutField m.name members = members :=
    List.filter_eq_self.mpr fun n hn => bne_iff_ne.mpr fun hsame =>
      hname (hsame ▸ List.mem_map_of_mem hn)
  have hlast : withoutField m.name [m] = [] := by simp [withoutField]
  rw [put_of_new hname, withoutField, List.filter_append, ← withoutField, ← withoutField, hkept,
    hlast, List.append_nil]

/-! ## Rename -/

theorem exists_of_mem_foldl_merge {members more : List (Member Field)}
    (h : m ∈ more.foldl (fun ms m => merge m ms) members) :
    (∃ n ∈ members, n.field = m.field) ∨ ∃ n ∈ more, n.field = m.field := by
  induction more generalizing members with
  | nil => exact .inl ⟨m, h, rfl⟩
  | cons k rest ih =>
    rcases ih h with ⟨n, hn, hfield⟩ | ⟨n, hn, hfield⟩
    · rcases mem_put hn with rfl | hn
      · exact .inr ⟨k, List.mem_cons_self, hfield⟩
      · exact .inl ⟨n, hn, hfield⟩
    · exact .inr ⟨n, List.mem_cons_of_mem _ hn, hfield⟩

/-- A rename brings no new field, whatever the names. -/
theorem exists_of_mem_renamed {old new : String} (h : m ∈ renamed old new members) :
    ∃ n ∈ members, n.field = m.field := by
  rcases exists_of_mem_foldl_merge h with ⟨n, hn, -⟩ | ⟨n, hn, hfield⟩
  · cases hn
  · obtain ⟨k, hk, rfl⟩ := List.mem_map.mp hn
    refine ⟨k, hk, hfield ▸ ?_⟩
    by_cases hold : k.name = old
    · rw [if_pos hold]
    · rw [if_neg hold]

/-- Members that name each name once are merged as they stand. -/
theorem foldl_merge_of_nodup {members more : List (Member Field)}
    (h : (names (members ++ more)).Nodup) :
    more.foldl (fun ms m => merge m ms) members = members ++ more := by
  induction more generalizing members with
  | nil => rw [List.append_nil]; rfl
  | cons m rest ih =>
    have hnew : m.name ∉ names members := by
      intro hmem
      rw [names, List.map_append] at h
      exact (List.nodup_append.mp h).2.2 _ hmem _ List.mem_cons_self rfl
    have hmerge : merge m members = members ++ [m] := by
      unfold merge
      simp only [find?_eq_none.mpr hnew, Option.any_none, Bool.or_false]
      exact put_of_new hnew
    rw [List.foldl_cons, hmerge, ih (by rwa [List.append_assoc]), List.append_assoc]
    rfl

/-- A member under the name that a rename leaves it with. -/
def underName (old new : String) (m : Member Field) : Member Field :=
  if m.name = old then { m with name := new } else m

theorem find?_map_underName {old new : String} (hnew : find? new members = none) :
    find? other (members.map (underName old new)) =
      if new = other then (find? old members).map fun m => { m with name := new }
      else if old = other then none else find? other members := by
  induction members with
  | nil => simp [find?]
  | cons n rest ih =>
    obtain ⟨hn, hrest⟩ := not_or.mp fun hor => find?_eq_none.mp hnew (List.mem_cons.mpr hor)
    have ih := ih (find?_eq_none.mpr hrest)
    rw [List.map_cons, find?, find?, find?, ih]
    by_cases hold : n.name = old
    · have hunder : underName old new n = { n with name := new } := if_pos hold
      rw [hunder, if_pos hold]
      by_cases hother : new = other
      · rw [if_pos hother, if_pos hother]
        rfl
      · rw [if_neg hother, if_neg hother, if_neg hother, hold]
        by_cases hgone : old = other
        · rw [if_pos hgone, if_pos hgone]
        · rw [if_neg hgone, if_neg hgone, if_neg hgone]
    · have hunder : underName old new n = n := if_neg hold
      rw [hunder, if_neg hold]
      by_cases hother : n.name = other
      · have hnewOther : new ≠ other := fun h => hn (h.trans hother.symm)
        have holdOther : old ≠ other := fun h => hold (hother.trans h.symm)
        rw [if_pos hother, if_neg hnewOther, if_neg holdOther, if_pos hother]
      · rw [if_neg hother, if_neg hother]

theorem nodup_map_underName {old new : String} (h : (names members).Nodup)
    (hnew : find? new members = none) : (names (members.map (underName old new))).Nodup := by
  have hnotMem := find?_eq_none.mp hnew
  clear hnew
  induction members with
  | nil => exact .nil
  | cons n rest ih =>
    obtain ⟨hn, hrest⟩ := List.nodup_cons.mp h
    obtain ⟨hnewName, hnewRest⟩ := not_or.mp fun hor => hnotMem (List.mem_cons.mpr hor)
    refine List.nodup_cons.mpr ⟨fun hmem => ?_, ih hrest hnewRest⟩
    -- Only one member has the old name, so a renamed one meets no other.
    obtain ⟨k, hk, hsame⟩ : ∃ k ∈ rest, (underName old new k).name = (underName old new n).name := by
      obtain ⟨_, hmap, hname⟩ := List.mem_map.mp hmem
      obtain ⟨k, hk, rfl⟩ := List.mem_map.mp hmap
      exact ⟨k, hk, hname⟩
    have hkName : k.name ∈ names rest := List.mem_map_of_mem hk
    unfold underName at hsame
    by_cases hkOld : k.name = old
    · rw [if_pos hkOld] at hsame
      by_cases hnOld : n.name = old
      · exact hn (hnOld.trans hkOld.symm ▸ hkName)
      · rw [if_neg hnOld] at hsame
        exact hnewName hsame
    · rw [if_neg hkOld] at hsame
      by_cases hnOld : n.name = old
      · rw [if_pos hnOld] at hsame
        have hkNew : k.name = new := hsame
        exact hnewRest (hkNew ▸ hkName)
      · rw [if_neg hnOld] at hsame
        exact hn (hsame ▸ hkName)

theorem renamed_of_new {old new : String} (h : (names members).Nodup)
    (hnew : find? new members = none) :
    renamed old new members = members.map (underName old new) :=
  @foldl_merge_of_nodup [] _ (nodup_map_underName h hnew)

theorem find?_renamed {old new : String} (h : (names members).Nodup)
    (hold : find? old members = some m) (hnew : find? new members = none) :
    find? other (renamed old new members) =
      if new = other then some { m with name := new }
      else if old = other then none else find? other members := by
  rw [renamed_of_new h hnew, find?_map_underName hnew, hold]
  rfl

/-- A member that is renamed and renamed back is where it was. -/
theorem renamed_renamed {old new : String} (h : (names members).Nodup)
    (hold : find? old members = some m) (hnew : find? new members = none) :
    renamed new old (renamed old new members) = members := by
  have hne : new ≠ old := by
    rintro rfl
    exact absurd (hold.symm.trans hnew) nofun
  have hgone : find? old (members.map (underName old new)) = none := by
    rw [find?_map_underName hnew, if_neg hne, if_pos rfl]
  rw [renamed_of_new h hnew, renamed_of_new (nodup_map_underName h hnew) hgone, List.map_map]
  refine (List.map_congr_left fun n hn => ?_).trans (List.map_id members)
  have habsent : n.name ≠ new := fun hsame =>
    find?_eq_none.mp hnew (hsame ▸ List.mem_map_of_mem hn)
  unfold Function.comp underName
  by_cases hname : n.name = old
  · rw [if_pos hname, if_pos rfl, ← hname]
    rfl
  · rw [if_neg hname, if_neg habsent]
    rfl

theorem nodup_renamed {old new : String} (h : (names members).Nodup)
    (hnew : find? new members = none) : (names (renamed old new members)).Nodup := by
  rw [renamed_of_new h hnew]
  exact nodup_map_underName h hnew

end Member
end Lineage
