import Lineage.Proofs.Path.Text
import Lineage.Proofs.Validation.Acceptance
import Lineage.Proofs.Value.Edited
import Lineage.Proofs.Value.Loose

/-
One line between what JSON can hold and what it cannot.

The check of values, validation against a field that takes anything, and the writer of JSON
text let the same values through.  Which item of a value the check complains about is said
by way of all its items in the order of the document: a value stands before what is inside
it, and the key of an entry before its value, at the place of the object.
-/

namespace Lineage
namespace Value

/-! ## Items in document order -/

/-- A value somewhere in a document, or a key of one of its objects. -/
inductive Item where
  | value (v : Value)
  | key (k : Key)

namespace Item

/-- What JSON has no room for, whatever is inside: a value of none of the six kinds, a number
that is not finite, and a key that is no text. -/
def offends : Item → Bool
  | value (.number n) => !n.isFinite
  | value v => v.kind?.isNone
  | key k => k.text?.isNone

def typeName : Item → String
  | value v => v.typeName
  | key k => k.toValue.typeName

/-- The complaint about an item at a place. -/
def complaint (item : Item) (path : Path) : NotJson :=
  { typeName := item.typeName, path := some path.text }

end Item

mutual

/-- All items of a value in the order of the document, each with its place. -/
def walk (path : Path) : Value → List (Path × Item)
  | .array items => (path, .value (.array items)) :: walkItems path 0 items
  | .object entries => (path, .value (.object entries)) :: walkEntries path entries
  | v => [(path, .value v)]

def walkItems (path : Path) (index : Nat) : List Value → List (Path × Item)
  | [] => []
  | v :: rest => walk (path.index index) v ++ walkItems path (index + 1) rest

def walkEntries (path : Path) : List (Key × Value) → List (Path × Item)
  | [] => []
  | (k, v) :: rest => (path, .key k) :: (walk (path.key k.spoken) v ++ walkEntries path rest)

end

/-- An item of a value and the segments that lead to it. -/
inductive Stands : Value → List Segment → Item → Prop
  | here (v : Value) : Stands v [] (.value v)
  | item {items : List Value} {i : Nat} {v : Value} {rest : List Segment} {x : Item}
      (hv : items[i]? = some v) (h : Stands v rest x) : Stands (.array items) (.index i :: rest) x
  | key {entries : List (Key × Value)} {k : Key} {v : Value} (h : (k, v) ∈ entries) :
      Stands (.object entries) [] (.key k)
  | entry {entries : List (Key × Value)} {k : Key} {v : Value} {rest : List Segment} {x : Item}
      (hv : (k, v) ∈ entries) (h : Stands v rest x) :
      Stands (.object entries) (.key k.spoken :: rest) x

/-! ## The first offence -/

/-- The complaint about the first item that offends, if one does. -/
def report (items : List (Path × Item)) : Except NotJson Unit :=
  match items.find? fun i => i.2.offends with
  | some (path, item) => .error (item.complaint path)
  | none => .ok ()

theorem report_cons {path : Path} {item : Item} {rest : List (Path × Item)} :
    report ((path, item) :: rest) =
      if item.offends then .error (item.complaint path) else report rest := by
  unfold report
  rw [List.find?_cons]
  cases item.offends <;> rfl

theorem report_append (a b : List (Path × Item)) :
    report (a ++ b) = report a >>= fun _ => report b := by
  unfold report
  rw [List.find?_append]
  cases a.find? fun i => i.2.offends <;> rfl

theorem report_eq_error {items : List (Path × Item)} {e : NotJson} :
    report items = .error e ↔ ∃ before path item after,
      items = before ++ (path, item) :: after ∧ (∀ i ∈ before, i.2.offends = false) ∧
        item.offends = true ∧ e = item.complaint path := by
  unfold report
  constructor
  · intro h
    split at h
    · next path item hfind =>
      cases h
      obtain ⟨hitem, before, after, hitems, hbefore⟩ := List.find?_eq_some_iff_append.mp hfind
      exact ⟨before, path, item, after, hitems, fun i hi => by simpa using hbefore i hi, hitem, rfl⟩
    · cases h
  · rintro ⟨before, path, item, after, hitems, hbefore, hitem, rfl⟩
    have hfind : items.find? (fun i => i.2.offends) = some (path, item) :=
      List.find?_eq_some_iff_append.mpr
        ⟨hitem, before, after, hitems, fun i hi => by simpa using hbefore i hi⟩
    rw [hfind]

mutual

theorem check_eq_report (path : Path) : ∀ v : Value, v.check path.text = report (walk path v)
  | .scalar (.number (.float d)) => by
    have hwalk : walk path (.scalar (.number (.float d))) =
        [(path, .value (.scalar (.number (.float d))))] := rfl
    rw [hwalk, report_cons, check]
    show _ = if (!d.isFinite) = true then _ else _
    cases d.isFinite <;> rfl
  | .scalar (.number (.int _)) => rfl
  | .scalar .null | .scalar (.bool _) | .scalar (.text _) => rfl
  | .array items => by
    rw [walk, report_cons, check]
    exact checkItems_eq_report path 0 items
  | .object entries => by
    rw [walk, report_cons, check]
    exact checkEntries_eq_report path entries
  | .tuple _ | .set _ | .bytes _ | .thing | .missing => rfl

theorem checkItems_eq_report (path : Path) (index : Nat) :
    ∀ items : List Value, checkItems path.text index items = report (walkItems path index items)
  | [] => rfl
  | v :: rest => by
    have hhere : v.check (path.text ++ "." ++ toString index) =
        report (walk (path.index index) v) := by
      rw [← check_eq_report (path.index index) v, Path.index, Path.text_child]
      rfl
    rw [walkItems, report_append, checkItems, hhere, checkItems_eq_report path (index + 1) rest]
    cases report (walk (path.index index) v) <;> rfl

theorem checkEntries_eq_report (path : Path) :
    ∀ entries : List (Key × Value),
      checkEntries path.text entries = report (walkEntries path entries)
  | [] => rfl
  | (.scalar (.text name), v) :: rest => by
    have hhere : v.check (path.text ++ "." ++ name) = report (walk (path.key name) v) := by
      rw [← check_eq_report (path.key name) v, Path.key, Path.text_child]
      rfl
    rw [walkEntries, report_cons, report_append, checkEntries, hhere,
      checkEntries_eq_report path rest]
    show _ = report (walk (path.key name) v) >>= _
    cases report (walk (path.key name) v) <;> rfl
  | (.scalar .null, _) :: _ | (.scalar (.bool _), _) :: _ | (.scalar (.number _), _) :: _
  | (.tuple _, _) :: _ | (.bytes _, _) :: _ | (.thing, _) :: _ | (.missing, _) :: _ => rfl

end

/-! ## The items are all there are -/

theorem mem_walkItems {path p : Path} {x : Item} {index : Nat} {items : List Value} :
    (p, x) ∈ walkItems path index items ↔
      ∃ i v, items[i]? = some v ∧ (p, x) ∈ walk (path.index (index + i)) v := by
  induction items generalizing index with
  | nil => exact iff_of_false List.not_mem_nil (by rintro ⟨i, v, hv, -⟩; cases hv)
  | cons w rest ih =>
    rw [walkItems, List.mem_append, ih]
    constructor
    · rintro (h | ⟨i, v, hv, h⟩)
      · exact ⟨0, w, rfl, h⟩
      · rw [Nat.add_assoc, Nat.add_comm 1 i] at h
        exact ⟨i + 1, v, hv, h⟩
    · rintro ⟨i, v, hv, h⟩
      cases i with
      | zero =>
        cases hv
        exact .inl h
      | succ i =>
        rw [← Nat.add_assoc, Nat.add_right_comm] at h
        exact .inr ⟨i, v, hv, h⟩

theorem mem_walkEntries {path p : Path} {x : Item} {entries : List (Key × Value)} :
    (p, x) ∈ walkEntries path entries ↔ ∃ e ∈ entries,
      (p = path ∧ x = .key e.1) ∨ (p, x) ∈ walk (path.key e.1.spoken) e.2 := by
  induction entries with
  | nil => exact iff_of_false List.not_mem_nil (by rintro ⟨e, he, -⟩; cases he)
  | cons e rest ih =>
    obtain ⟨k, v⟩ := e
    rw [walkEntries, List.mem_cons, List.mem_append, ih, List.exists_mem_cons_iff, Prod.mk.injEq,
      or_assoc]

/-- What the walk meets stands where the walk says. -/
theorem stands_of_mem_walk {path p : Path} {x : Item} {v : Value} (h : (p, x) ∈ walk path v) :
    ∃ segments, p.segments = path.segments ++ segments ∧ Stands v segments x := by
  induction v using Value.treeInduction generalizing path with
  | array items ih =>
    rw [walk] at h
    rcases List.mem_cons.mp h with h | h
    · cases h
      exact ⟨[], (List.append_nil _).symm, .here _⟩
    · obtain ⟨i, w, hw, h⟩ := mem_walkItems.mp h
      obtain ⟨segments, hp, hstands⟩ := ih w (List.mem_of_getElem? hw) h
      rw [Nat.zero_add] at hp
      exact ⟨.index i :: segments, hp.trans (List.append_assoc _ _ _), .item hw hstands⟩
  | object entries ih =>
    rw [walk] at h
    rcases List.mem_cons.mp h with h | h
    · cases h
      exact ⟨[], (List.append_nil _).symm, .here _⟩
    · obtain ⟨e, he, ⟨rfl, rfl⟩ | h⟩ := mem_walkEntries.mp h
      · exact ⟨[], (List.append_nil _).symm, .key he⟩
      · obtain ⟨segments, hp, hstands⟩ := ih e he h
        exact ⟨.key e.1.spoken :: segments, hp.trans (List.append_assoc _ _ _),
          .entry he hstands⟩
  | scalar | tuple | set | bytes | thing | missing =>
    cases List.mem_singleton.mp h
    exact ⟨[], (List.append_nil _).symm, .here _⟩

theorem mem_walk_here (path : Path) (v : Value) : (path, .value v) ∈ walk path v := by
  cases v <;> exact List.mem_cons_self

/-- The walk meets everything that stands somewhere. -/
theorem mem_walk_of_stands {path : Path} {segments : List Segment} {x : Item} {v : Value}
    (h : Stands v segments x) : (⟨path.segments ++ segments⟩, x) ∈ walk path v := by
  induction h generalizing path with
  | here v =>
    rw [List.append_nil]
    exact mem_walk_here path v
  | @item items i v rest x hv _ ih =>
    rw [walk]
    refine List.mem_cons_of_mem _ (mem_walkItems.mpr ⟨i, v, hv, ?_⟩)
    rw [Nat.zero_add, List.append_cons]
    exact ih
  | @key entries k v hmem =>
    rw [walk, List.append_nil]
    exact List.mem_cons_of_mem _ (mem_walkEntries.mpr ⟨_, hmem, .inl ⟨rfl, rfl⟩⟩)
  | @entry entries k v rest x hmem _ ih =>
    rw [walk, List.append_cons]
    exact List.mem_cons_of_mem _ (mem_walkEntries.mpr ⟨_, hmem, .inr ih⟩)

/-! ## The gates -/

variable [Externals]

/-- The check lets through exactly the values that a field for anything accepts, and exactly
those that are written as JSON text.  Otherwise it names the first item that offends in the
order of the document, with the place of the item. -/
theorem json_gates_agree (v : Value) :
    (∀ o path, v.check "$" = .ok () ↔ Field.any.validate o path v = .ok []) ∧
    (∀ style, v.check "$" = .ok () ↔ ∃ s, v.toJson style = .ok s) ∧
    (∀ p x, (p, x) ∈ walk .root v ↔ Stands v p.segments x) ∧
    ∀ e, v.check "$" = .error e ↔ ∃ before path item after,
      walk .root v = before ++ (path, item) :: after ∧ (∀ i ∈ before, i.2.offends = false) ∧
        item.offends = true ∧ e = item.complaint path := by
  refine ⟨fun o path => Field.validate_any_eq_nil.symm, fun style => ?_, fun p x => ?_, fun e => ?_⟩
  · constructor
    · intro h
      exact Checked.toJson h style
    · rintro ⟨s, hs⟩
      unfold toJson at hs
      split at hs
      · assumption
      · cases hs
  · constructor
    · intro h
      obtain ⟨segments, hp, hstands⟩ := stands_of_mem_walk h
      exact hp ▸ hstands
    · exact fun h => mem_walk_of_stands h
  · rw [← report_eq_error, ← check_eq_report]
    exact Iff.rfl

/-- What is inside an entry comes before the next entry, and the key null, which is reported
at its object, before the foreign thing under it. -/
example : check "$" (.object [(.text "a", .array [.null, .object [(.scalar .null, .thing)]]),
    (.text "b", .missing)]) = .error ⟨"NoneType", some "$.a.1"⟩ := rfl

end Value
end Lineage
