import Lineage.Proofs.Json.Reading
import Lineage.Proofs.Value.Edited
import Lineage.Proofs.Value.Json
import Lineage.Proofs.Value.Loose

/-
JSON text of values, read back.

A value whose numbers are integers is read back from its text as it was, in every style:
kinds, keys in their order and texts character by character.  The text of a value takes the
reader, wherever a value may begin, to the state right after that value, so that a container
is read item by item.  Objects have to name each key once, since a key that is named again
would take the place of the first.
-/

namespace Lineage
namespace Value

/-- Each number in a value is an integer. -/
inductive IntegersOnly : Value → Prop
  | null : IntegersOnly .null
  | bool (b : Bool) : IntegersOnly (.bool b)
  | int (n : Int) : IntegersOnly (.int n)
  | text (s : String) : IntegersOnly (.text s)
  | array {items : List Value} (hitems : ∀ v ∈ items, IntegersOnly v) :
      IntegersOnly (.array items)
  | object {entries : List (Key × Value)} (hvalues : ∀ e ∈ entries, IntegersOnly e.2) :
      IntegersOnly (.object entries)

end Value

namespace Json

/-! ## Layout -/

theorem separates_of_space {c : Char} (h : isSpace c = true) (rest : List Char) :
    Separates (c :: rest) := by
  refine separates_cons ?_ rest
  simp only [isSpace, Bool.or_eq_true, beq_iff_eq] at h
  rcases h with ((rfl | rfl) | rfl) | rfl <;> decide

theorem Separates.blank {cs rest : List Char} (hcs : ∀ c ∈ cs, isSpace c = true)
    (h : Separates rest) : Separates (cs ++ rest) := by
  cases cs with
  | nil => exact h
  | cons c more => exact separates_of_space (hcs c List.mem_cons_self) _

theorem newline_blank (style : Style) (depth : Nat) :
    ∀ c ∈ (style.newline depth).toList, isSpace c = true := by
  intro c hc
  unfold Style.newline at hc
  split at hc
  · cases hc
  · rw [String.toList_append] at hc
    rcases List.mem_append.mp hc with hc | hc
    · rw [List.mem_singleton.mp hc]
      rfl
    · rw [String.toList_ofList] at hc
      rw [List.eq_of_mem_replicate hc]
      rfl

/-- What follows a comma: the line break of the level, or a space. -/
def Style.gap (style : Style) (depth : Nat) : String :=
  if style.indent.isSome then style.newline depth else " "

theorem gap_blank (style : Style) (depth : Nat) :
    ∀ c ∈ (style.gap depth).toList, isSpace c = true := by
  unfold Style.gap
  split
  · exact newline_blank style depth
  · exact List.forall_mem_singleton.mpr rfl

/-- Parts behind the first one, each after a comma. -/
def later (style : Style) (depth : Nat) (parts : List String) : List Char :=
  parts.flatMap fun t => ',' :: ((style.gap depth).toList ++ t.toList)

theorem separates_later (style : Style) (depth : Nat) (parts : List String) {rest : List Char}
    (h : Separates rest) : Separates (later style depth parts ++ rest) := by
  cases parts with
  | nil => exact h
  | cons t more => exact separates_cons (by decide) _

theorem toList_enclosed_nil (style : Style) (depth : Nat) (left right : String) :
    (enclosed style depth left right []).toList = left.toList ++ right.toList :=
  String.toList_append

theorem toList_enclosed_cons (style : Style) (depth : Nat) (left right s : String)
    (parts : List String) :
    (enclosed style depth left right (s :: parts)).toList =
      left.toList ++ ((style.newline (depth + 1)).toList ++ (s.toList ++
        (later style (depth + 1) parts ++ ((style.newline depth).toList ++ right.toList)))) := by
  have hseparator : (if style.indent.isSome then "," ++ style.newline (depth + 1) else ", ") =
      "," ++ style.gap (depth + 1) := by
    unfold Style.gap
    split <;> rfl
  show (left ++ style.newline (depth + 1) ++ Text.joined (if style.indent.isSome then
    "," ++ style.newline (depth + 1) else ", ") (s :: parts) ++ style.newline depth ++
      right).toList = _
  rw [hseparator]
  simp only [String.toList_append, Text.toList_joined_cons, List.append_assoc]
  rfl

/-! ## Values -/

/-- Where a value may begin, with the containers that are open around it. -/
def Begins (a : State) (stack : List Frame) : Prop :=
  ∀ pos token, token ≠ .rightBracket → a.step pos token = State.beginValue stack pos token

theorem begins_value (stack : List Frame) : Begins (.value stack) stack := fun _ _ _ => rfl

theorem begins_itemOrEnd (stack : List Frame) :
    Begins (.itemOrEnd stack) (.array [] :: stack) := by
  intro pos token h
  cases token with
  | rightBracket => exact absurd rfl h
  | _ => rfl

/-- Where a key may begin, with the entries that the object has so far. -/
def BeginsKey (a : State) (entries : List (Key × Value)) (stack : List Frame) : Prop :=
  ∀ pos name, a.step pos (.string name) = .ok (.colon entries name stack)

/-- A text that is read as a value wherever one may begin. -/
def Spells (s : String) (v : Value) : Prop :=
  ∀ (a : State) (stack : List Frame) (rest : List Char),
    Begins a stack → Separates rest → Reads a s.toList (.after v stack) rest

theorem spells_scalar (style : Style) {s : Scalar} (h : (Value.scalar s).IntegersOnly) :
    Spells (scalar style s) (.scalar s) := by
  intro a stack rest ha hrest
  cases h with
  | null => exact (isToken_null rest).reads fun pos => ha pos _ nofun
  | bool b => exact (isToken_bool b rest).reads fun pos => ha pos _ nofun
  | int n => exact (isToken_int n hrest).reads fun pos => ha pos _ nofun
  | text t => exact (isToken_string style t rest).reads fun pos => ha pos _ nofun

/-! ## Containers -/

theorem reads_newline (style : Style) (depth : Nat) (a : State) (rest : List Char) :
    Reads a (style.newline depth).toList a rest :=
  .blank (newline_blank style depth)

/-- A comma, and what may stand before the next part. -/
theorem reads_comma (style : Style) (depth : Nat) {a b : State} {rest : List Char}
    (hstep : ∀ pos, a.step pos .comma = .ok b) :
    Reads a ([','] ++ (style.gap depth).toList) b rest :=
  (reads_mark ',' .comma rfl (fun _ => rfl) hstep _).append (.blank (gap_blank style depth))

theorem later_cons (style : Style) (depth : Nat) (t : String) (parts : List String)
    (rest : List Char) :
    later style depth (t :: parts) ++ rest =
      [','] ++ (style.gap depth).toList ++ (t.toList ++ (later style depth parts ++ rest)) := by
  rw [later, List.flatMap_cons, ← later, List.append_assoc]
  simp only [List.cons_append, List.append_assoc]
  rfl

/-- A number that is a part of a container ends where the part does. -/
theorem separates_behind (style : Style) (depth : Nat) (parts : List String) {c : Char}
    (hc : c = ']' ∨ c = '}') (rest : List Char) :
    Separates (later style (depth + 1) parts ++ ((style.newline depth).toList ++ [c]) ++ rest) := by
  rw [List.append_assoc, List.append_assoc]
  refine separates_later style _ parts (.blank (newline_blank style depth) ?_)
  rcases hc with rfl | rfl <;> exact separates_cons (by decide) rest

theorem renderItems?_cons {style : Style} {depth : Nat} {v : Value} {items : List Value}
    {parts : List String} (h : renderItems? style depth (v :: items) = some parts) :
    ∃ s ss, render? style depth v = some s ∧ renderItems? style depth items = some ss ∧
      parts = s :: ss := by
  obtain ⟨s, hs, ss, hss, hparts⟩ := by
    simpa only [renderItems?, bind, Option.bind_eq_some_iff] using h
  exact ⟨s, ss, hs, hss, (Option.some.inj hparts).symm⟩

theorem renderEntries?_cons {style : Style} {depth : Nat} {name : String} {v : Value}
    {entries : List (Key × Value)} {parts : List String}
    (h : renderEntries? style depth ((.text name, v) :: entries) = some parts) :
    ∃ s ss, render? style depth v = some s ∧ renderEntries? style depth entries = some ss ∧
      parts = (string style name ++ ": " ++ s) :: ss := by
  obtain ⟨_, hname, s, hs, ss, hss, hparts⟩ := by
    simpa only [renderEntries?, bind, Option.bind_eq_some_iff] using h
  cases hname
  exact ⟨s, ss, hs, hss, (Option.some.inj hparts).symm⟩

/-- Items behind the first one, up to the end of the array. -/
theorem reads_items (style : Style) (depth : Nat) {stack : List Frame} {rest : List Char}
    {items : List Value} {parts : List String}
    (hparts : renderItems? style (depth + 1) items = some parts)
    (hspells : ∀ v ∈ items, ∀ s, render? style (depth + 1) v = some s → Spells s v)
    (v : Value) (done : List Value) :
    Reads (.after v (.array done :: stack))
      (later style (depth + 1) parts ++ ((style.newline depth).toList ++ [']']))
      (.after (.array (done.reverse ++ v :: items)) stack) rest := by
  induction items generalizing parts v done with
  | nil =>
    cases hparts
    rw [← List.reverse_cons]
    exact (reads_newline style depth _ _).append
      (reads_mark ']' .rightBracket rfl (fun _ => rfl) (fun pos => rfl) rest)
  | cons w more ih =>
    obtain ⟨t, ts, ht, hts, rfl⟩ := renderItems?_cons hparts
    obtain ⟨hw, hmore⟩ := List.forall_mem_cons.mp hspells
    have hnext := ih hts hmore w (v :: done)
    rw [List.reverse_cons, List.append_assoc] at hnext
    rw [later_cons]
    refine (reads_comma style _ fun pos => rfl).append (.append ?_ hnext)
    refine hw t ht _ _ _ (begins_value _) ?_
    exact separates_behind style depth ts (.inl rfl) rest

theorem spells_array (style : Style) (depth : Nat) {items : List Value} {s : String}
    (hs : render? style depth (.array items) = some s)
    (hspells : ∀ v ∈ items, ∀ t, render? style (depth + 1) v = some t → Spells t v) :
    Spells s (.array items) := by
  intro a stack rest ha hrest
  rw [render?] at hs
  obtain ⟨parts, hparts, rfl⟩ := Option.map_eq_some_iff.mp hs
  have hopen : ∀ more, Reads a "[".toList (.itemOrEnd stack) more := fun more =>
    reads_mark '[' .leftBracket rfl (fun _ => rfl) (fun pos => ha pos _ nofun) more
  cases items with
  | nil =>
    cases hparts
    rw [toList_enclosed_nil]
    exact (hopen _).append
      (reads_mark ']' .rightBracket rfl (fun _ => rfl) (fun pos => rfl) rest)
  | cons v more =>
    obtain ⟨t, ts, ht, hts, rfl⟩ := renderItems?_cons hparts
    obtain ⟨hv, hmore⟩ := List.forall_mem_cons.mp hspells
    rw [toList_enclosed_cons]
    refine (hopen _).append ((reads_newline style _ _ _).append (.append ?_
      (reads_items style depth hts hmore v [])))
    refine hv t ht _ _ _ (begins_itemOrEnd stack) ?_
    exact separates_behind style depth ts (.inl rfl) rest

theorem reads_entry (style : Style) {a : State} {done : List (Key × Value)} {stack : List Frame}
    {s : String} {v : Value} (ha : BeginsKey a done stack) (hs : Spells s v) (name : String)
    {rest : List Char} (hrest : Separates rest) :
    Reads a (string style name ++ ": " ++ s).toList (.after v (.object done name :: stack))
      rest := by
  have htext : (string style name ++ ": " ++ s).toList =
      (string style name).toList ++ ([':'] ++ ([' '] ++ s.toList)) := by
    rw [String.toList_append, String.toList_append, List.append_assoc]
    rfl
  rw [htext]
  refine ((isToken_string style name _).reads fun pos => ha pos name).append ?_
  refine (reads_mark ':' .colon rfl (fun _ => rfl) (fun pos => rfl) _).append ?_
  exact (Reads.blank (List.forall_mem_singleton.mpr rfl)).append (hs _ _ _ (begins_value _) hrest)

/-- Entries behind the first one, up to the end of the object. -/
theorem reads_entries (style : Style) (depth : Nat) {stack : List Frame} {rest : List Char}
    {entries : List (Key × Value)} {parts : List String}
    (hparts : renderEntries? style (depth + 1) entries = some parts)
    (hnames : ∀ e ∈ entries, ∃ name, e.1 = .text name)
    (hspells : ∀ e ∈ entries, ∀ s, render? style (depth + 1) e.2 = some s → Spells s e.2)
    (name : String) (v : Value) (done : List (Key × Value))
    (hdistinct : Entries.Distinct (done ++ (.text name, v) :: entries)) :
    Reads (.after v (.object done name :: stack))
      (later style (depth + 1) parts ++ ((style.newline depth).toList ++ ['}']))
      (.after (.object (done ++ (.text name, v) :: entries)) stack) rest := by
  induction entries generalizing parts name v done with
  | nil =>
    cases hparts
    rw [← Entries.put_of_distinct hdistinct]
    exact (reads_newline style depth _ _).append
      (reads_mark '}' .rightBrace rfl (fun _ => rfl) (fun pos => rfl) rest)
  | cons e more ih =>
    obtain ⟨k, w⟩ := e
    obtain ⟨hname, hothers⟩ := List.forall_mem_cons.mp hnames
    obtain ⟨hw, hmore⟩ := List.forall_mem_cons.mp hspells
    obtain ⟨next, rfl⟩ : ∃ next, k = .text next := hname
    obtain ⟨t, ts, ht, hts, rfl⟩ := renderEntries?_cons hparts
    have hnext := hdistinct
    rw [List.append_cons done, ← Entries.put_of_distinct hdistinct] at hnext ⊢
    rw [later_cons]
    refine (reads_comma style _ fun pos => rfl).append
      (.append ?_ (ih hts hothers hmore next w _ hnext))
    refine reads_entry style (fun _ _ => rfl) (hw t ht) next ?_
    exact separates_behind style depth ts (.inr rfl) rest

theorem spells_object (style : Style) (depth : Nat) {entries : List (Key × Value)} {s : String}
    (hs : render? style depth (.object entries) = some s) (hdistinct : Entries.Distinct entries)
    (hnames : ∀ e ∈ entries, ∃ name, e.1 = .text name)
    (hspells : ∀ e ∈ entries, ∀ t, render? style (depth + 1) e.2 = some t → Spells t e.2) :
    Spells s (.object entries) := by
  intro a stack rest ha hrest
  rw [render?] at hs
  obtain ⟨parts, hparts, rfl⟩ := Option.map_eq_some_iff.mp hs
  have hopen : ∀ more, Reads a "\x7b".toList (.keyOrEnd stack) more := fun more =>
    reads_mark '{' .leftBrace rfl (fun _ => rfl) (fun pos => ha pos _ nofun) more
  cases entries with
  | nil =>
    cases hparts
    rw [toList_enclosed_nil]
    exact (hopen _).append
      (reads_mark '}' .rightBrace rfl (fun _ => rfl) (fun pos => rfl) rest)
  | cons e more =>
    obtain ⟨k, v⟩ := e
    obtain ⟨hname, hothers⟩ := List.forall_mem_cons.mp hnames
    obtain ⟨hv, hmore⟩ := List.forall_mem_cons.mp hspells
    obtain ⟨name, rfl⟩ : ∃ name, k = .text name := hname
    obtain ⟨t, ts, ht, hts, rfl⟩ := renderEntries?_cons hparts
    rw [toList_enclosed_cons]
    refine (hopen _).append ((reads_newline style _ _ _).append (.append ?_
      (reads_entries style depth hts hothers hmore name v [] hdistinct)))
    refine reads_entry style (fun _ _ => rfl) (hv t ht) name ?_
    exact separates_behind style depth ts (.inr rfl) rest

/-! ## The round trip -/

/-- The text of a value is read as that value wherever one may begin. -/
theorem spells_of_render? (style : Style) {v : Value} (hv : v.IsJson) (hints : v.IntegersOnly)
    (depth : Nat) {s : String} (hs : render? style depth v = some s) : Spells s v := by
  induction v using Value.treeInduction generalizing depth s with
  | scalar t =>
    cases hs
    exact spells_scalar style hints
  | array items ih =>
    cases hints with
    | array hitems =>
      exact spells_array style depth hs fun w hw t ht =>
        ih w hw (Value.isJson_array.mp hv w hw) (hitems w hw) (depth + 1) ht
  | object entries ih =>
    cases hints with
    | object hvalues =>
      obtain ⟨hdistinct, hentries⟩ := Value.isJson_object.mp hv
      exact spells_object style depth hs hdistinct (fun e he => (hentries e he).1)
        fun e he t ht => ih e he (hentries e he).2 (hvalues e he) (depth + 1) ht
  | tuple | set | bytes | thing | missing => cases hints

/-- What a reader makes of a text that is a value and nothing else. -/
theorem read_of_spells {s : String} {v : Value} (h : Spells s v) : read s = .ok v := by
  have hrun : (State.value []).run (tokens 0 0 s.toList) = .ok v := by
    have hreads := h (.value []) [] [] (begins_value []) nofun 0
    rw [List.append_nil] at hreads
    exact hreads
  unfold read parse
  split
  · next c more hs =>
    split
    · next hmark =>
      obtain rfl : c = Char.ofNat 0xFEFF := by rw [← hmark, Char.ofNat_toNat]
      rw [hs] at hrun
      cases hrun
    · exact hrun
  · exact hrun

end Json

namespace Value

theorem render?_of_toJson {style : Json.Style} {v : Value} {s : String}
    (h : v.toJson style = .ok s) : Json.render? style 0 v = some s := by
  unfold toJson at h
  split at h
  · split at h
    · next t ht =>
      cases h
      exact ht
    · cases h
  · cases h

/-- A JSON value whose numbers are integers has a text in every style, and that text is read
as the same value again. -/
theorem text_reads_back {v : Value} (hv : v.IsJson) (hints : v.IntegersOnly)
    (style : Json.Style) : ∃ s, v.toJson style = .ok s ∧ Json.read s = .ok v := by
  obtain ⟨s, hs⟩ := hv.checked.toJson style
  exact ⟨s, hs, Json.read_of_spells
    (Json.spells_of_render? style hv hints 0 (render?_of_toJson hs))⟩

/-- Characters that are escaped, one beyond the basic plane, a negative number and empty
containers, on lines of their own. -/
theorem text_reads_back_nested :
    let v : Value := .object [(.text "\"\\\n\x01", .array [.int (-10), .object [], .array []]),
      (.text "", .text "é😀")]
    v.IsJson ∧ v.IntegersOnly ∧
      ∃ s, v.toJson { indent := some 2 } = .ok s ∧ Json.read s = .ok v := by
  intro v
  have hints : v.IntegersOnly := by
    refine .object (List.forall_mem_cons.mpr ⟨.array ?_, List.forall_mem_singleton.mpr (.text _)⟩)
    exact List.forall_mem_cons.mpr ⟨.int _, List.forall_mem_cons.mpr
      ⟨.object nofun, List.forall_mem_singleton.mpr (.array nofun)⟩⟩
  have hdistinct : v.KeysDistinct := by
    refine .object (List.pairwise_pair.mpr rfl)
      (List.forall_mem_cons.mpr ⟨.array ?_, List.forall_mem_singleton.mpr (.scalar _)⟩)
    exact List.forall_mem_cons.mpr ⟨.scalar _, List.forall_mem_cons.mpr
      ⟨.object .nil nofun, List.forall_mem_singleton.mpr (.array nofun)⟩⟩
  have hv : v.IsJson := ⟨rfl, hdistinct⟩
  exact ⟨hv, hints, text_reads_back hv hints { indent := some 2 }⟩

end Value
end Lineage
