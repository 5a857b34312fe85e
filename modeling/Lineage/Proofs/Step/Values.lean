import Lineage.Step.Values
import Lineage.Proofs.Step.Fields
import Lineage.Proofs.Value.Entries

/-
What a step on keys does to the entries of an object: where nothing keeps it from it, and
where it is known to have given a value.
-/

namespace Lineage
namespace Step

open Lineage.Field

variable {path place : Path} {entries : List (Key × Value)} {members : List (Member Field)}
variable {text newText : String} {key : Key} {v w : Value}

/-! ## Parts -/

theorem mustBeNew_of_absent (h : Entries.find? key entries = none) :
    mustBeNew key entries place = .ok () := by
  unfold mustBeNew Entries.contains
  rw [h]
  rfl

section UnlessAbsent

variable {field : Option Field} {present : Value → Outcome Value}

theorem unlessAbsent_present (h : Entries.find? key entries = some v) :
    unlessAbsent field key entries place present = present v := by
  unfold unlessAbsent
  rw [h]

theorem unlessAbsent_absent (h : Entries.find? key entries = none)
    (habsence : absenceAllowed field key = true) :
    unlessAbsent field key entries place present = .ok (.object entries) := by
  unfold unlessAbsent
  rw [h]
  exact if_pos habsence

end UnlessAbsent

theorem absenceAllowed_object {m : Member Field} (hm : Member.find? text members = some m) :
    absenceAllowed (some (.object members)) (.text text) = m.field.acceptsAbsence := by
  unfold absenceAllowed
  simp only [Key.text?, hm, Option.any_some]

theorem convert_eq_ok {run : Value → Except Fault Value} {label : String} (hrun : run v = .ok w)
    (hw : w.Checked) : convert run label v place = .ok w := by
  unfold convert
  rw [hrun]
  simp only
  rw [hw.check]

theorem gather_cons {field : Option Field} {rest : List Value} {names : List Key}
    {values : List Value}
    (hv : Entries.find? (.text text) entries = some v ∨
      Entries.find? (.text text) entries = none ∧ absenceAllowed field (.text text) = true ∧
        v = .null)
    (hrest : gather field entries place rest = .ok (names, values)) :
    gather field entries place (.text text :: rest) = .ok (.text text :: names, v :: values) := by
  rw [gather, hrest]
  rcases hv with hv | ⟨hnone, habsence, rfl⟩
  · rw [show keyOf (.text text) = .ok (.text text) from rfl, Outcome.ok_bind, hv]
    rfl
  · rw [show keyOf (.text text) = .ok (.text text) from rfl, Outcome.ok_bind, hnone]
    simp only
    rw [if_pos habsence]
    rfl

/-! ## Steps on keys -/

section Steps

variable {field : Field} {f : Option Field}

theorem onValue_add (h : Entries.find? (.text text) entries = none) :
    (add path (.text text) field v).onValue (.object entries) f place =
      .ok (.object (Entries.put (.text text) v entries)) := by
  show (do
    mustBeNew (.text text) entries place
    return Value.object (Entries.put (.text text) v entries)) = _
  rw [mustBeNew_of_absent h]
  rfl

theorem onValue_remove (h : Entries.find? (.text text) entries = some v) :
    (remove path (.text text)).onValue (.object entries) f place =
      .ok (.object (Entries.erase (.text text) entries)) :=
  unlessAbsent_present h

theorem onValue_rename (h : Entries.find? (.text text) entries = some v)
    (hnew : Entries.find? (.text newText) entries = none) :
    (rename path (.text text) (.text newText)).onValue (.object entries) f place =
      .ok (.object (Entries.rename (.text text) (.text newText) entries)) := by
  refine (unlessAbsent_present h).trans ?_
  show (do
    mustBeNew (.text newText) entries place
    return Value.object (Entries.rename (.text text) (.text newText) entries)) = _
  rw [mustBeNew_of_absent hnew]
  rfl

theorem onValue_copy (h : Entries.find? (.text text) entries = some v)
    (hnew : Entries.find? (.text newText) entries = none) :
    (copy path (.text text) (.text newText)).onValue (.object entries) f place =
      .ok (.object (Entries.put (.text newText) v entries)) := by
  refine (unlessAbsent_present h).trans ?_
  show (do
    mustBeNew (.text newText) entries place
    return Value.object (Entries.put (.text newText) v entries)) = _
  rw [mustBeNew_of_absent hnew]
  rfl

theorem onValue_split {targets : List (Key × Field)} {splitter : AuthorFn} {parts : List Value}
    {entries' : List (Key × Value)} (h : Entries.find? (.text text) entries = some v)
    (hrun : splitter.run v = .ok w) (hparts : partsOf w = .array parts)
    (hchecked : (Value.array parts).Checked) (hlength : parts.length = targets.length)
    (hput : putParts place targets parts (Entries.erase (.text text) entries) = .ok entries') :
    (split path (.text text) targets splitter).onValue (.object entries) f place =
      .ok (.object entries') := by
  have hconvert : ∀ q, convert (fun v => (splitter.run v).map partsOf) "splitter" v q =
      .ok (.array parts) := fun q =>
    convert_eq_ok (by rw [hrun, ← hparts]; rfl) hchecked
  refine (unlessAbsent_present h).trans (Outcome.bind_eq_ok.mpr ⟨place.key text, rfl, ?_⟩)
  refine Outcome.bind_eq_ok.mpr ⟨.array parts, hconvert _, ?_⟩
  show (if parts.length = targets.length then _ else _) = _
  rw [if_pos hlength, hput]
  rfl

theorem onValue_merge {names : List Value} {merger : AuthorFn} {keys : List Key}
    {values : List Value} (hgather : gather f entries place names = .ok (keys, values))
    (hrun : merger.run (.array values) = .ok w) (hw : w.Checked)
    (hnew : Entries.find? (.text text)
      (entries.filter fun e => !keys.any fun name => e.1.same name) = none) :
    (merge path names (.text text) field merger).onValue (.object entries) f place =
      .ok (.object (Entries.put (.text text) w
        (entries.filter fun e => !keys.any fun name => e.1.same name))) := by
  have hconvert : ∀ q, convert merger.run "merger" (.array values) q = .ok w := fun q =>
    convert_eq_ok hrun hw
  refine Outcome.bind_eq_ok.mpr ⟨entries, rfl, Outcome.bind_eq_ok.mpr ⟨(keys, values), hgather, ?_⟩⟩
  refine Outcome.bind_eq_ok.mpr ⟨place.key text, rfl, ?_⟩
  refine Outcome.bind_eq_ok.mpr ⟨w, hconvert _, ?_⟩
  exact Outcome.bind_eq_ok.mpr ⟨.text text, rfl,
    Outcome.bind_eq_ok.mpr ⟨(), mustBeNew_of_absent hnew, rfl⟩⟩

end Steps

/-! ## What a value given says -/

theorem mustBeNew_eq_ok :
    mustBeNew key entries place = .ok () ↔ Entries.find? key entries = none := by
  refine ⟨fun h => ?_, mustBeNew_of_absent⟩
  unfold mustBeNew at h
  split at h
  · exact absurd h (failsAtName_ne_ok _ _ _ _ _)
  · next hcontains => exact Option.not_isSome_iff_eq_none.mp hcontains

theorem entriesOf_bind {next : List (Key × Value) → Outcome Value}
    (h : (entriesOf v place >>= next) = .ok w) :
    ∃ entries, v = .object entries ∧ next entries = .ok w := by
  cases v with
  | object entries => exact ⟨entries, rfl, h⟩
  | _ => cases h

section Given

variable {name new : Value} {newField : Field} {field : Option Field}

theorem unlessAbsent_eq_ok {present : Value → Outcome Value} :
    unlessAbsent field key entries place present = .ok w ↔
      (∃ v, Entries.find? key entries = some v ∧ present v = .ok w) ∨
      (Entries.find? key entries = none ∧ absenceAllowed field key = true ∧
        w = .object entries) := by
  cases hfind : Entries.find? key entries with
  | some v =>
    rw [unlessAbsent_present hfind]
    simp
  | none =>
    by_cases habsence : absenceAllowed field key = true
    · rw [unlessAbsent_absent hfind habsence]
      simp [habsence, eq_comm]
    · unfold unlessAbsent
      rw [hfind]
      simp only [habsence]
      refine iff_of_false (failsAtName_ne_ok _ _ _ _ _) ?_
      simp

theorem of_gather_cons {name : Value} {rest : List Value} {field : Option Field} {keys : List Key}
    {values : List Value} (h : gather field entries place (name :: rest) = .ok (keys, values)) :
    ∃ key u keys' values', keyOf name = .ok key ∧
      (Entries.find? key entries = some u ∨
        Entries.find? key entries = none ∧ absenceAllowed field key = true ∧ u = .null) ∧
      gather field entries place rest = .ok (keys', values') ∧
      keys = key :: keys' ∧ values = u :: values' := by
  obtain ⟨key, hkey, h⟩ := Outcome.bind_eq_ok.mp h
  have hrest : ∀ u : Value, (do
      let gathered ← gather field entries place rest
      return (key :: gathered.1, u :: gathered.2)) = (.ok (keys, values) : Outcome _) →
      ∃ keys' values', gather field entries place rest = .ok (keys', values') ∧
        keys = key :: keys' ∧ values = u :: values' := by
    intro u hu
    obtain ⟨⟨keys', values'⟩, hmore, hu⟩ := Outcome.bind_eq_ok.mp hu
    cases hu
    exact ⟨keys', values', hmore, rfl, rfl⟩
  simp only at h
  split at h
  · next u hfind =>
    obtain ⟨keys', values', hgather⟩ := hrest u h
    exact ⟨key, u, keys', values', hkey, .inl hfind, hgather⟩
  · next hnone =>
    split at h
    · next habsence =>
      obtain ⟨keys', values', hgather⟩ := hrest .null h
      exact ⟨key, .null, keys', values', hkey, .inr ⟨hnone, habsence, rfl⟩, hgather⟩
    · obtain ⟨_, hfails, -⟩ := Outcome.bind_eq_ok.mp h
      exact absurd hfails (failsAtName_ne_ok _ _ _ _ _)

theorem run_of_convert {run : Value → Except Fault Value} {label : String}
    (h : convert run label v place = .ok w) : run v = .ok w := by
  unfold convert at h
  simp only at h
  split at h
  · split at h
    · cases h
    · cases h
  · next hrun =>
    split at h
    · cases h
      exact hrun
    · cases h

theorem of_onValue_add
    (h : (add path name newField v).onValue (.object entries) field place = .ok w) :
    ∃ key, keyOf name = .ok key ∧ Entries.find? key entries = none ∧
      w = .object (Entries.put key v entries) := by
  obtain ⟨_, ⟨⟩, h⟩ := Outcome.bind_eq_ok.mp h
  obtain ⟨key, hkey, h⟩ := Outcome.bind_eq_ok.mp h
  obtain ⟨⟨⟩, hnew, h⟩ := Outcome.bind_eq_ok.mp h
  cases h
  exact ⟨key, hkey, mustBeNew_eq_ok.mp hnew, rfl⟩

theorem of_onValue_remove (h : (remove path name).onValue (.object entries) field place = .ok w) :
    ∃ key, keyOf name = .ok key ∧
      ((∃ v, Entries.find? key entries = some v ∧ w = .object (Entries.erase key entries)) ∨
        (Entries.find? key entries = none ∧ absenceAllowed field key = true ∧
          w = .object entries)) := by
  obtain ⟨_, ⟨⟩, h⟩ := Outcome.bind_eq_ok.mp h
  obtain ⟨key, hkey, h⟩ := Outcome.bind_eq_ok.mp h
  refine ⟨key, hkey, (unlessAbsent_eq_ok.mp h).imp_left ?_⟩
  rintro ⟨v, hv, ⟨⟩⟩
  exact ⟨v, hv, rfl⟩

theorem of_onValue_rename
    (h : (rename path name new).onValue (.object entries) field place = .ok w) :
    ∃ key, keyOf name = .ok key ∧
      ((∃ v newKey, Entries.find? key entries = some v ∧ keyOf new = .ok newKey ∧
          Entries.find? newKey entries = none ∧ w = .object (Entries.rename key newKey entries)) ∨
        (Entries.find? key entries = none ∧ absenceAllowed field key = true ∧
          w = .object entries)) := by
  obtain ⟨_, ⟨⟩, h⟩ := Outcome.bind_eq_ok.mp h
  obtain ⟨key, hkey, h⟩ := Outcome.bind_eq_ok.mp h
  refine ⟨key, hkey, (unlessAbsent_eq_ok.mp h).imp_left ?_⟩
  rintro ⟨v, hv, h⟩
  obtain ⟨newKey, hnewKey, h⟩ := Outcome.bind_eq_ok.mp h
  obtain ⟨⟨⟩, hnew, h⟩ := Outcome.bind_eq_ok.mp h
  cases h
  exact ⟨v, newKey, hv, hnewKey, mustBeNew_eq_ok.mp hnew, rfl⟩

theorem of_onValue_copy (h : (copy path name new).onValue (.object entries) field place = .ok w) :
    ∃ key, keyOf name = .ok key ∧
      ((∃ v newKey, Entries.find? key entries = some v ∧ keyOf new = .ok newKey ∧
          Entries.find? newKey entries = none ∧ w = .object (Entries.put newKey v entries)) ∨
        (Entries.find? key entries = none ∧ absenceAllowed field key = true ∧
          w = .object entries)) := by
  obtain ⟨_, ⟨⟩, h⟩ := Outcome.bind_eq_ok.mp h
  obtain ⟨key, hkey, h⟩ := Outcome.bind_eq_ok.mp h
  refine ⟨key, hkey, (unlessAbsent_eq_ok.mp h).imp_left ?_⟩
  rintro ⟨v, hv, h⟩
  obtain ⟨newKey, hnewKey, h⟩ := Outcome.bind_eq_ok.mp h
  obtain ⟨⟨⟩, hnew, h⟩ := Outcome.bind_eq_ok.mp h
  cases h
  exact ⟨v, newKey, hv, hnewKey, mustBeNew_eq_ok.mp hnew, rfl⟩

theorem of_onValue_split {targets : List (Key × Field)} {splitter : AuthorFn}
    (h : (split path name targets splitter).onValue (.object entries) field place = .ok w) :
    ∃ key, keyOf name = .ok key ∧
      ((∃ v parts entries', Entries.find? key entries = some v ∧
          (splitter.run v).map partsOf = .ok (.array parts) ∧ parts.length = targets.length ∧
          putParts place targets parts (Entries.erase key entries) = .ok entries' ∧
          w = .object entries') ∨
        (Entries.find? key entries = none ∧ absenceAllowed field key = true ∧
          w = .object entries)) := by
  obtain ⟨_, ⟨⟩, h⟩ := Outcome.bind_eq_ok.mp h
  obtain ⟨key, hkey, h⟩ := Outcome.bind_eq_ok.mp h
  refine ⟨key, hkey, (unlessAbsent_eq_ok.mp h).imp_left ?_⟩
  rintro ⟨v, hv, h⟩
  obtain ⟨valuePlace, -, h⟩ := Outcome.bind_eq_ok.mp h
  obtain ⟨result, hresult, h⟩ := Outcome.bind_eq_ok.mp h
  split at h
  · next parts =>
    split at h
    · next hlength =>
      obtain ⟨entries', hput, h⟩ := Outcome.bind_eq_ok.mp h
      cases h
      exact ⟨v, parts, entries', hv, run_of_convert hresult, hlength, hput, rfl⟩
    · cases h
  · cases h

theorem of_onValue_merge {names : List Value} {target : Value} {merger : AuthorFn}
    (h : (merge path names target newField merger).onValue (.object entries) field place = .ok w) :
    ∃ keys values key merged, gather field entries place names = .ok (keys, values) ∧
      merger.run (.array values) = .ok merged ∧ keyOf target = .ok key ∧
      Entries.find? key (entries.filter fun e => !keys.any fun name => e.1.same name) = none ∧
      w = .object (Entries.put key merged
        (entries.filter fun e => !keys.any fun name => e.1.same name)) := by
  obtain ⟨_, ⟨⟩, h⟩ := Outcome.bind_eq_ok.mp h
  obtain ⟨⟨keys, values⟩, hgather, h⟩ := Outcome.bind_eq_ok.mp h
  obtain ⟨valuePlace, -, h⟩ := Outcome.bind_eq_ok.mp h
  obtain ⟨merged, hmerged, h⟩ := Outcome.bind_eq_ok.mp h
  obtain ⟨key, hkey, h⟩ := Outcome.bind_eq_ok.mp h
  obtain ⟨⟨⟩, hnew, h⟩ := Outcome.bind_eq_ok.mp h
  cases h
  exact ⟨keys, values, key, merged, hgather, run_of_convert hmerged, hkey, mustBeNew_eq_ok.mp hnew,
    rfl⟩

end Given

end Step
end Lineage
