import Lineage.Step.Application
import Lineage.Proofs.Change.Lockstep
import Lineage.Proofs.Step.Fields

/-
Steps beside a field tree only pass over more places.

A step on keys asks the field only about keys that are absent, and without a field it fails
on those.  A conversion that meets null may leave it as it is where both fields are optional;
otherwise it does not ask the field at all.
-/

namespace Lineage
namespace Step

open Outcome Lineage.Field

variable {s : Step} {place : Path} {name v w : Value} {key : Key} {entries : List (Key × Value)}

/-! ## Absent keys -/

theorem unlessAbsent_of_undescribed {present : Value → Outcome Value}
    (h : unlessAbsent none key entries place present = .ok w) (field : Option Field) :
    unlessAbsent field key entries place present = .ok w := by
  unfold unlessAbsent at h ⊢
  split at h
  · exact h
  · exact absurd h (failsAtName_ne_ok _ _ _ _ _)

/-- The shape that the steps on one key share. -/
theorem onKey_of_undescribed {present : List (Key × Value) → Key → Value → Outcome Value}
    (h : (do
      let entries ← entriesOf v place
      let key ← keyOf name
      unlessAbsent none key entries place (present entries key)) = .ok w)
    (field : Option Field) :
    (do
      let entries ← entriesOf v place
      let key ← keyOf name
      unlessAbsent field key entries place (present entries key)) = .ok w := by
  obtain ⟨entries, hentries, h⟩ := bind_eq_ok.mp h
  obtain ⟨key, hkey, h⟩ := bind_eq_ok.mp h
  exact bind_eq_ok.mpr ⟨entries, hentries,
    bind_eq_ok.mpr ⟨key, hkey, unlessAbsent_of_undescribed h field⟩⟩

theorem gather_of_undescribed {names : List Value} {found : List Key × List Value}
    (h : gather none entries place names = .ok found) (field : Option Field) :
    gather field entries place names = .ok found := by
  induction names generalizing found with
  | nil => exact h
  | cons name rest ih =>
    obtain ⟨key, hkey, h⟩ := bind_eq_ok.mp h
    rw [gather, hkey, ok_bind]
    simp only at h ⊢
    cases hentry : Entries.find? key entries with
    | some v =>
      rw [hentry] at h
      obtain ⟨_, ⟨⟩, h⟩ := bind_eq_ok.mp h
      obtain ⟨more, hmore, h⟩ := bind_eq_ok.mp h
      exact bind_eq_ok.mpr ⟨v, rfl, bind_eq_ok.mpr ⟨more, ih hmore, h⟩⟩
    | none =>
      rw [hentry] at h
      obtain ⟨v, hv, -⟩ := bind_eq_ok.mp h
      exact absurd hv (failsAtName_ne_ok _ _ _ _ _)

/-! ## Whole steps -/

/-- A step on keys needs an object. -/
theorem onValue_null_ne_ok (hthrough : s.through = true) (field : Option Field) (place : Path)
    (w : Value) : s.onValue .null field place ≠ .ok w := by
  cases s with
  | retype | restructure => cases hthrough
  | _ => exact nofun

/-- Where a step gives a value without a field, it gives the same with any: always if it is
no conversion to a field, and for such a conversion if the value is not null. -/
theorem change_ignoresField
    (hnull : ∀ path field converter, s = .retype path field converter → v ≠ .null) :
    s.change.IgnoresField v := by
  intro place w h
  have h : s.onValue v none place = .ok w := h
  refine ⟨fun hthrough => ?_, fun field => ?_⟩
  · rintro rfl
    exact onValue_null_ne_ok hthrough none place w h
  · show s.onValue v field place = .ok w
    cases s with
    | add path name newField value => exact h
    | remove path name => exact onKey_of_undescribed h field
    | rename path old new => exact onKey_of_undescribed h field
    | copy path name new => exact onKey_of_undescribed h field
    | retype path newField converter =>
      have hconvert : isNull v = false := by
        unfold isNull
        split
        · exact absurd rfl (hnull _ _ _ rfl)
        · rfl
      unfold onValue at h ⊢
      rw [hconvert] at h ⊢
      exact h
    | restructure path transform newField => exact h
    | split path name targets splitter => exact onKey_of_undescribed h field
    | merge path names target newField merger =>
      obtain ⟨entries, hentries, h⟩ := bind_eq_ok.mp h
      obtain ⟨found, hfound, h⟩ := bind_eq_ok.mp h
      exact bind_eq_ok.mpr ⟨entries, hentries,
        bind_eq_ok.mpr ⟨found, gather_of_undescribed hfound field, h⟩⟩

/-! ## Documents -/

/-- What a step makes of a document alone it makes of it beside any field tree, whether or
not that describes the document.  Only a step that converts a value and declares its field
has to be kept from null, which it leaves as it is where both fields are optional. -/
theorem apply_of_undescribed {s : Step} {v w : Value}
    (hnull : ∀ path field converter, s = .retype path field converter →
      ∀ u ∈ v.targets path.segments, u ≠ .null)
    (h : s.apply v none = .ok w) (f : Field) : s.apply v (some f) = .ok w := by
  refine Change.onValueAt_of_undescribed (fun u hu => change_ignoresField ?_) h (some f)
  rintro path field converter rfl
  exact hnull path field converter rfl u hu

/-- Every item of a list is converted beside a field that describes a tuple. -/
theorem apply_of_undescribed_converted :
    let forget : AuthorFn := ⟨"forget", fun _ => .ok .null⟩
    let s : Step := .retype ⟨[.key "on", .wildcard]⟩ (.optional .null) forget
    let v : Value := .object [(.text "on", .array [.bool true, .text "no"]), (.text "a", .null)]
    let w : Value := .object [(.text "on", .array [.null, .null]), (.text "a", .null)]
    let f : Field := .object (Member.derived [("on", .optional (.tuple [.optional .boolean]))])
    (∀ u ∈ v.targets s.path.segments, u ≠ .null) ∧ s.apply v none = .ok w ∧
      s.apply v (some f) = .ok w := by
  intro forget s v w f
  have hnull : ∀ u ∈ v.targets s.path.segments, u ≠ .null :=
    List.forall_mem_cons.mpr ⟨nofun, List.forall_mem_singleton.mpr nofun⟩
  have happly : s.apply v none = .ok w := rfl
  refine ⟨hnull, happly, apply_of_undescribed (fun path field converter hs => ?_) happly f⟩
  have hpath : s.path = path := congrArg Step.path hs
  exact hpath ▸ hnull

end Step
end Lineage
