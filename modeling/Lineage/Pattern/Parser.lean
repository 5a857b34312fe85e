import Lineage.Pattern.Matcher
import Lineage.Text.Quoted

/-
Reading of patterns.

The text is first cut into pieces, single characters and characters after a
backslash.  A machine then takes the pieces from left to right.  At each place it
reads one construct (an escape, a class, a count, the head of a group) and says
how many pieces it took; open groups wait on a stack.  A backslash at the very end
is noticed as soon as it comes next.
-/

namespace Lineage
namespace Pattern

inductive Piece where
  | char (c : Char)
  | escape (c : Char)
  /-- A backslash with nothing after it. -/
  | broken
  deriving DecidableEq

namespace Piece

def width : Piece → Nat
  | char _ => 1
  | escape _ => 2
  | broken => 1

def text : Piece → String
  | char c => c.toString
  | escape c => "\\" ++ c.toString
  | broken => "\\"

end Piece

def pieces : List Char → List Piece
  | [] => []
  | ['\\'] => [.broken]
  | '\\' :: c :: rest => .escape c :: pieces rest
  | c :: rest => .char c :: pieces rest

/-- Why a text is no pattern. -/
inductive Flaw where
  /-- A mistake at a character. -/
  | at (message : String) (position : Nat)
  | general (message : String)
  /-- A count of repetitions that is too large to hold. -/
  | hugeCount
  /-- Flags that exclude each other. -/
  | clashingFlags

/-- The mistake with its place; in a text of several lines also line and
column. -/
def Flaw.message (flaw : Flaw) (source : List Char) : String :=
  match flaw with
  | .at message position =>
    let before := source.take position
    let place := s!"{message} at position {position}"
    if source.contains '\n' then
      let line := before.count '\n' + 1
      let column := (before.reverse.takeWhile (· != '\n')).length + 1
      s!"{place} (line {line}, column {column})"
    else place
  | .general message => message
  | .hugeCount => "the repetition number is too large"
  | .clashingFlags => "ASCII and UNICODE flags are incompatible"

structure Flags where
  ignoreCase : Bool := false
  multiline : Bool := false
  dotAll : Bool := false
  verbose : Bool := false
  asciiOnly : Bool := false

def Flags.caseRule (f : Flags) : CaseRule :=
  if f.ignoreCase then (if f.asciiOnly then .ascii else .unicode) else .exact

/-! ## Reading pieces -/

/-- A place in the pattern: the offset and the pieces from there on. -/
structure Cursor where
  pos : Nat
  rest : List Piece

namespace Cursor

def next? (c : Cursor) : Option Piece := c.rest.head?

/-- Move past one piece. -/
def advance (c : Cursor) : Except Flaw Cursor :=
  match c.rest with
  | [] => .ok c
  | p :: rest =>
    let pos := c.pos + p.width
    match rest with
    | .broken :: _ => .error (.at "bad escape (end of pattern)" pos)
    | rest => .ok ⟨pos, rest⟩

/-- Take one piece, if there is one. -/
def get (c : Cursor) : Except Flaw (Option Piece × Cursor) :=
  match c.rest with
  | [] => .ok (none, c)
  | p :: _ => c.advance.map fun next => (some p, next)

/-- Move past a character if it comes next. -/
def accept (c : Cursor) (x : Char) : Except Flaw (Bool × Cursor) :=
  if c.next? = some (.char x) then c.advance.map fun next => (true, next) else .ok (false, c)

/-- Take at most `limit` characters of a class. -/
def getWhile (ok : Char → Bool) : (limit : Nat) → Cursor → Except Flaw (List Char × Cursor)
  | 0, c => .ok ([], c)
  | limit + 1, c =>
    match c.next? with
    | some (.char x) =>
      if ok x then do
        let (xs, next) ← getWhile ok limit (← c.advance)
        return (x :: xs, next)
      else .ok ([], c)
    | _ => .ok ([], c)

/-- A mistake `offset` characters before the cursor. -/
def flaw (c : Cursor) (message : String) (offset : Nat := 0) : Flaw :=
  .at message (c.pos - offset)

/-- Take everything up to a closing character, which must follow; `what` is the
name for it in complaints. -/
def getUntil (close : Char) (what : String) :
    (fuel : Nat) → (taken : String) → Cursor → Except Flaw (String × Cursor)
  | 0, taken, c => .ok (taken, c)
  | fuel + 1, taken, c => do
    let (piece, next) ← c.get
    match piece with
    | none =>
      if taken = "" then .error (next.flaw ("missing " ++ what))
      else .error (next.flaw s!"missing {close}, unterminated name" taken.length)
    | some (.char x) =>
      if x = close then
        if taken = "" then .error (next.flaw ("missing " ++ what) 1) else .ok (taken, next)
      else getUntil close what fuel (taken ++ x.toString) next
    | some p => getUntil close what fuel (taken ++ p.text) next

def name (c : Cursor) (close : Char) : Except Flaw (String × Cursor) :=
  c.getUntil close "group name" (c.rest.length + 1) ""

end Cursor

/-! ## Escapes -/

def isAsciiLetter (c : Char) : Bool :=
  (decide ('a' ≤ c) && decide (c ≤ 'z')) || (decide ('A' ≤ c) && decide (c ≤ 'Z'))

def isOctal (c : Char) : Bool := decide ('0' ≤ c) && decide (c ≤ '7')

def hexDigit? (c : Char) : Option Nat :=
  if Text.isAsciiDigit c then some (c.toNat - '0'.toNat)
  else if 'a' ≤ c ∧ c ≤ 'f' then some (c.toNat - 'a'.toNat + 10)
  else if 'A' ≤ c ∧ c ≤ 'F' then some (c.toNat - 'A'.toNat + 10)
  else none

def hexNumber (cs : List Char) : Nat := cs.foldl (fun n c => n * 16 + (hexDigit? c).getD 0) 0

def octalNumber (cs : List Char) : Nat := cs.foldl (fun n c => n * 8 + (c.toNat - '0'.toNat)) 0

/-- Letters that stand for control characters. -/
def controlEscape? : Char → Option Char
  | 'a' => some (Char.ofNat 7)
  | 'f' => some (Char.ofNat 12)
  | 'n' => some '\n'
  | 'r' => some '\r'
  | 't' => some '\t'
  | 'v' => some (Char.ofNat 11)
  | '\\' => some '\\'
  | _ => none

def categoryEscape? (asciiOnly : Bool) : Char → Option ClassItem
  | 'd' => some (.category .digit false asciiOnly)
  | 'D' => some (.category .digit true asciiOnly)
  | 's' => some (.category .space false asciiOnly)
  | 'S' => some (.category .space true asciiOnly)
  | 'w' => some (.category .word false asciiOnly)
  | 'W' => some (.category .word true asciiOnly)
  | _ => none

/-- A code point given by so many digits of base sixteen; `c` is past the letter
that announces it. -/
def hexEscape (letter : Char) (count : Nat) (c : Cursor) : Except Flaw (Nat × Cursor) := do
  let (digits, next) ← c.getWhile (fun x => (hexDigit? x).isSome) count
  let text := "\\" ++ letter.toString ++ String.ofList digits
  if digits.length ≠ count then
    .error (next.flaw ("incomplete escape " ++ text) text.length)
  else if hexNumber digits > 0x10FFFF then
    .error (next.flaw ("bad escape " ++ text) text.length)
  else .ok (hexNumber digits, next)

/-- A character given by its name. -/
def namedEscape (charNamed? : String → Option Char) (c : Cursor) :
    Except Flaw (Nat × Cursor) := do
  let (opened, next) ← c.accept '{'
  if opened then
    let (name, next) ← next.getUntil '}' "character name" (next.rest.length + 1) ""
    match charNamed? name with
    | some y => .ok (y.toNat, next)
    | none =>
      .error (next.flaw ("undefined character name " ++ Text.quoted name) (name.length + 4))
  else .error (next.flaw "missing \x7b")

/-- An octal escape must stand for one of the first 256 characters. -/
def octalCode (digits : List Char) (next : Cursor) : Except Flaw (Nat × Cursor) :=
  let n := octalNumber digits
  if n > 255 then
    let text := "\\" ++ String.ofList digits
    .error (next.flaw s!"octal escape value {text} outside of range 0-0o377" text.length)
  else .ok (n, next)

/-- An escape inside a class; `c` is past it. -/
def classEscape (charNamed? : String → Option Char) (isText asciiOnly : Bool) (x : Char)
    (c : Cursor) : Except Flaw (ClassItem × Cursor) := do
  let single := fun (r : Nat × Cursor) => (ClassItem.code r.1, r.2)
  match controlEscape? x, categoryEscape? asciiOnly x with
  | some y, _ => .ok (.code y.toNat, c)
  | none, some item => .ok (item, c)
  | none, none =>
    if x = 'b' then .ok (.code 8, c)
    else if x = 'x' then (hexEscape 'x' 2 c).map single
    else if x = 'u' && isText then (hexEscape 'u' 4 c).map single
    else if x = 'U' && isText then (hexEscape 'U' 8 c).map single
    else if x = 'N' && isText then (namedEscape charNamed? c).map single
    else if isOctal x then do
      let (digits, next) ← c.getWhile isOctal 2
      (octalCode (x :: digits) next).map single
    else if Text.isAsciiDigit x || isAsciiLetter x then
      .error (c.flaw ("bad escape \\" ++ x.toString) 2)
    else .ok (.code x.toNat, c)

/-! ## The machine -/

/-- What an open group becomes when it closes. -/
inductive GroupKind where
  | plain
  | capture (group : Nat)
  | atomic
  | ahead (negated : Bool)
  /-- Also remembers which groups an enclosing condition on what lies behind could
  refer to. -/
  | behind (negated : Bool) (outer : Option Nat)
  | conditional (group : Nat)

/-- An open group: the choices that are complete, last one first, and the items of
the current one, last one first. -/
structure Frame where
  kind : GroupKind
  start : Nat
  flags : Flags
  choices : List Regex := []
  items : List Regex := []

namespace Frame

def finishChoice (f : Frame) : Regex := .ofList f.items.reverse

def body (f : Frame) : Regex := .ofChoices (f.finishChoice :: f.choices).reverse

def push (f : Frame) (r : Regex) : Frame := { f with items := r :: f.items }

end Frame

structure Machine where
  isText : Bool
  charNamed? : String → Option Char
  /-- The group that pieces now belong to, and those around it. -/
  top : Frame
  outer : List Frame := []
  /-- The number of the next group. -/
  nextGroup : Nat := 1
  names : List (String × Nat) := []
  /-- Groups that are closed, with the widths of what they match. -/
  widths : List (Nat × (Nat × Option Nat)) := []
  /-- Inside a condition on what lies behind: the groups opened before it. -/
  behindLimit : Option Nat := none
  /-- Conditions on groups by number, and where they stand. -/
  conditions : List (Nat × Nat) := []
  /-- Whether a condition on what lies behind has no fixed width. -/
  unfixed : Bool := false
  /-- Whether the whole pattern has been given flags for ASCII, and for all
  characters. -/
  asciiFlag : Bool := false
  unicodeFlag : Bool := false

namespace Machine

def add (m : Machine) (r : Regex) : Machine := { m with top := m.top.push r }

def isClosed (m : Machine) (group : Nat) : Bool := (m.widths.lookup group).isSome

def widthOf (m : Machine) (group : Nat) : Nat × Option Nat := (m.widths.lookup group).getD (0, none)

def codePoint (m : Machine) (n : Nat) : Regex := .oneOf false [.code n] m.top.flags.caseRule

def single (m : Machine) (c : Char) : Regex := m.codePoint c.toNat

/-- A condition on what lies behind may only refer to groups closed before it. -/
def checkBehind (m : Machine) (group : Nat) (c : Cursor) : Except Flaw Unit :=
  match m.behindLimit with
  | none => .ok ()
  | some limit =>
    if !m.isClosed group then .error (c.flaw "cannot refer to an open group")
    else if group ≥ limit then
      .error (c.flaw "cannot refer to group defined in the same lookbehind subpattern")
    else .ok ()

/-- A reference to a group by number, or an octal escape of three digits; `c` is
past the first digit. -/
def numberEscape (m : Machine) (x : Char) (c : Cursor) : Except Flaw (Regex × Cursor) := do
  let (more, c) ← c.getWhile Text.isAsciiDigit 1
  let digits := x :: more
  let (third, after) ← c.getWhile isOctal 1
  if more.length = 1 && digits.all isOctal && third.length = 1 then
    (octalCode (digits ++ third) after).map fun (n, next) => (m.codePoint n, next)
  else
    let group := Text.asciiNumber digits
    let width := digits.length + 1
    if group < m.nextGroup then
      if !m.isClosed group then .error (c.flaw "cannot refer to an open group" width)
      else do
        m.checkBehind group c
        return (.reference group m.top.flags.caseRule, c)
    else .error (c.flaw s!"invalid group reference {group}" (width - 1))

/-- An escape outside classes; `c` is past it. -/
def escape (m : Machine) (x : Char) (c : Cursor) : Except Flaw (Regex × Cursor) := do
  let flags := m.top.flags
  let single := fun (r : Nat × Cursor) => (m.codePoint r.1, r.2)
  match categoryEscape? flags.asciiOnly x, controlEscape? x with
  | some item, _ => .ok (.oneOf false [item] .exact, c)
  | none, some y => .ok (m.single y, c)
  | none, none =>
    if x = 'A' then .ok (.anchor .textStart, c)
    else if x = 'Z' then .ok (.anchor .textEnd, c)
    else if x = 'b' then .ok (.anchor (.wordEdge false flags.asciiOnly), c)
    else if x = 'B' then .ok (.anchor (.wordEdge true flags.asciiOnly), c)
    else if x = 'x' then (hexEscape 'x' 2 c).map single
    else if x = 'u' && m.isText then (hexEscape 'u' 4 c).map single
    else if x = 'U' && m.isText then (hexEscape 'U' 8 c).map single
    else if x = 'N' && m.isText then (namedEscape m.charNamed? c).map single
    else if x = '0' then do
      let (digits, next) ← c.getWhile isOctal 2
      return (m.codePoint (octalNumber digits), next)
    else if Text.isAsciiDigit x then m.numberEscape x c
    else if isAsciiLetter x then .error (c.flaw ("bad escape \\" ++ x.toString) 2)
    else .ok (m.single x, c)

/-- One member of a class: a character as it stands, or an escape. -/
def classMember (m : Machine) (p : Piece) (c : Cursor) : Except Flaw (ClassItem × Cursor) :=
  match p with
  | .escape x => classEscape m.charNamed? m.isText m.top.flags.asciiOnly x c
  | .char x => .ok (.code x.toNat, c)
  | .broken => .error (c.flaw "bad escape (end of pattern)" 1)

/-- The members of a class up to its closing bracket, which is a member itself
when it comes first; `start` is where the class opened. -/
def classMembers (m : Machine) (start : Nat) :
    (fuel : Nat) → (found : List ClassItem) → Cursor → Except Flaw (List ClassItem × Cursor)
  | 0, found, c => .ok (found.reverse, c)
  | fuel + 1, found, c => do
    let unterminated := Flaw.at "unterminated character set" start
    let (piece, c) ← c.get
    match piece with
    | none => .error unterminated
    | some this =>
      if this = .char ']' && !found.isEmpty then .ok (found.reverse, c)
      else do
        let (low, c) ← m.classMember this c
        let (dash, c) ← c.accept '-'
        if dash then
          let (piece, c) ← c.get
          match piece with
          | none => .error unterminated
          | some (.char ']') => .ok ((.code '-'.toNat :: low :: found).reverse, c)
          | some that => do
            let (high, c) ← m.classMember that c
            let bad := Flaw.at s!"bad character range {this.text}-{that.text}"
              (c.pos - (this.text.length + 1 + that.text.length))
            match low, high with
            | .code a, .code b =>
              if b < a then .error bad
              else classMembers m start fuel (.range a b :: found) c
            | _, _ => .error bad
        else classMembers m start fuel (low :: found) c

/-- A class; `c` is past its opening bracket. -/
def characterClass (m : Machine) (start : Nat) (c : Cursor) : Except Flaw (Machine × Cursor) := do
  let (negated, c) ← c.accept '^'
  let (items, c) ← m.classMembers start (c.rest.length + 1) [] c
  return (m.add (.oneOf negated items m.top.flags.caseRule), c)

/-- A brace with counts: the least and the greatest.  A brace that holds no counts
is none. -/
def counts? (c : Cursor) : Except Flaw (Option (Nat × Option Nat) × Cursor) := do
  let here := c.pos
  let (low, c) ← c.getWhile Text.isAsciiDigit (c.rest.length + 1)
  let (comma, c) ← c.accept ','
  let (high, c) ← if comma then c.getWhile Text.isAsciiDigit (c.rest.length + 1) else .ok (low, c)
  let (closed, c) ← c.accept '}'
  if !closed then return (none, c)
  else
    let least := Text.asciiNumber low
    let most := if high.isEmpty then none else some (Text.asciiNumber high)
    let limit := 4294967295
    if least ≥ limit || most.any (· ≥ limit) then .error .hugeCount
    else if most.any (· < least) then .error (.at "min repeat greater than max repeat" here)
    else return (some (least, most), c)

/-- Repeat the last item; `start` is where the repetition is written and `c` is
past it. -/
def repeatLast (m : Machine) (start : Nat) (least : Nat) (most : Option Nat) (c : Cursor) :
    Except Flaw (Machine × Cursor) := do
  match m.top.items with
  | [] => .error (.at "nothing to repeat" start)
  | item :: rest =>
    if item.isAnchor then .error (.at "nothing to repeat" start)
    else if item.isRepetition then .error (.at "multiple repeat" start)
    else do
      let (sparing, c) ← c.accept '?'
      let (greedy, c) ← if sparing then .ok (false, c) else c.accept '+'
      let appetite := if sparing then .lazy else if greedy then .possessive else .greedy
      let top := { m.top with items := .repetition least most appetite item :: rest }
      return ({ m with top := top }, c)

/-- Open a group. -/
def openGroup (m : Machine) (kind : GroupKind) (start : Nat) (flags : Flags) : Machine :=
  { m with top := { kind := kind, start := start, flags := flags }, outer := m.top :: m.outer }

/-- Open a group that captures, with its name if it has one; `c` is past its
head. -/
def openCapture (m : Machine) (name : Option String) (start : Nat) (c : Cursor) :
    Except Flaw Machine :=
  let group := m.nextGroup
  let opened := { m.openGroup (.capture group) start m.top.flags with nextGroup := group + 1 }
  match name with
  | none => .ok opened
  | some name =>
    match m.names.lookup name with
    | some old =>
      let problem :=
        s!"redefinition of group name {Text.quoted name} as group {group}; was group {old}"
      .error (c.flaw problem (name.length + 1))
    | none => .ok { opened with names := (name, group) :: m.names }

/-- Whether a text can name a group. -/
def isName (s : String) : Bool :=
  match s.toList with
  | [] => false
  | c :: rest => (Text.isWord c && !Text.isDecimal c) && rest.all Text.isWord

def checkName (name : String) (c : Cursor) : Except Flaw Unit :=
  if isName name then .ok ()
  else .error (c.flaw ("bad character in group name " ++ Text.quoted name) (name.length + 1))

/-- Skip a comment up to its closing parenthesis. -/
def skipComment (start : Nat) : (fuel : Nat) → Cursor → Except Flaw Cursor
  | 0, c => .ok c
  | fuel + 1, c => do
    match c.next? with
    | none => .error (.at "missing ), unterminated comment" start)
    | some p =>
      let next ← c.advance
      if p = .char ')' then return next else skipComment start fuel next

def isFlag (c : Char) : Bool := ['i', 'L', 'm', 's', 'x', 'a', 'u'].contains c

/-- Flags that say which characters count as letters; at most one of them can be
set. -/
def isKindFlag (c : Char) : Bool := ['a', 'u', 'L'].contains c

def setFlag (on : Bool) (x : Char) (f : Flags) : Flags :=
  match x with
  | 'i' => { f with ignoreCase := on }
  | 'm' => { f with multiline := on }
  | 's' => { f with dotAll := on }
  | 'x' => { f with verbose := on }
  | 'a' => { f with asciiOnly := on }
  | 'u' => { f with asciiOnly := !on }
  | _ => f

def setFlags (on : Bool) (letters : List Char) (f : Flags) : Flags :=
  letters.foldl (fun f x => setFlag on x f) f

/-- A complaint about a piece among flags. -/
def notAFlag (missing : String) (p : Piece) (c : Cursor) : Flaw :=
  match p with
  | .char x =>
    c.flaw (if Text.isAlphanumeric x && !Text.isDecimal x then "unknown flag" else missing)
      p.text.length
  | p => c.flaw missing p.text.length

/-- Flags that are set, up to what ends them. -/
def flagsOn (isText : Bool) : (fuel : Nat) → (x : Char) → (found : List Char) → Cursor →
    Except Flaw (List Char × Char × Cursor)
  | 0, x, found, c => .ok (found, x, c)
  | fuel + 1, x, found, c => do
    if isText && x = 'L' then
      .error (c.flaw "bad inline flags: cannot use 'L' flag with a str pattern")
    else if !isText && x = 'u' then
      .error (c.flaw "bad inline flags: cannot use 'u' flag with a bytes pattern")
    else if isKindFlag x && found.any (fun y => isKindFlag y && y != x) then
      .error (c.flaw "bad inline flags: flags 'a', 'u' and 'L' are incompatible")
    else
      let (piece, c) ← c.get
      match piece with
      | none => .error (c.flaw "missing -, : or )")
      | some (.char y) =>
        if y = ')' || y = '-' || y = ':' then return (x :: found, y, c)
        else if isFlag y then flagsOn isText fuel y (x :: found) c
        else .error (notAFlag "missing -, : or )" (.char y) c)
      | some p => .error (notAFlag "missing -, : or )" p c)

/-- Flags that are cleared, up to the colon. -/
def flagsOff : (fuel : Nat) → (x : Char) → (found : List Char) → Cursor →
    Except Flaw (List Char × Cursor)
  | 0, _, found, c => .ok (found, c)
  | fuel + 1, x, found, c => do
    if isKindFlag x then
      .error (c.flaw "bad inline flags: cannot turn off flags 'a', 'u' and 'L'")
    else
      let (piece, c) ← c.get
      match piece with
      | none => .error (c.flaw "missing :")
      | some (.char ':') => return (x :: found, c)
      | some (.char y) =>
        if isFlag y then flagsOff fuel y (x :: found) c
        else .error (notAFlag "missing :" (.char y) c)
      | some p => .error (notAFlag "missing :" p c)

/-- A group that begins with flags: for itself, or for the whole pattern when
nothing but the closing parenthesis follows; `c` is past the first letter. -/
def flagGroup (m : Machine) (start : Nat) (first : Char) (c : Cursor) :
    Except Flaw (Machine × Cursor) := do
  let fuel := c.rest.length + 1
  let (on, stop, c) ← if first = '-' then .ok ([], '-', c) else flagsOn m.isText fuel first [] c
  if stop = ')' then
    if !m.outer.isEmpty || !m.top.choices.isEmpty || !m.top.items.isEmpty then
      .error (.at "global flags not at the start of the expression" start)
    else
      let top := { m.top with flags := setFlags true on m.top.flags }
      return ({ m with
        top := top, asciiFlag := m.asciiFlag || on.contains 'a',
        unicodeFlag := m.unicodeFlag || on.contains 'u' }, c)
  else if stop = '-' then
    let (piece, c) ← c.get
    match piece with
    | none => .error (c.flaw "missing flag")
    | some (.char y) =>
      if isFlag y then
        let (off, c) ← flagsOff fuel y [] c
        if on.any off.contains then
          .error (c.flaw "bad inline flags: flag turned on and off" 1)
        else
          return (m.openGroup .plain start (setFlags false off (setFlags true on m.top.flags)), c)
      else .error (notAFlag "missing flag" (.char y) c)
    | some p => .error (notAFlag "missing flag" p c)
  else return (m.openGroup .plain start (setFlags true on m.top.flags), c)

/-- A group that depends on whether another one has matched; `c` is past the
second parenthesis. -/
def conditionalGroup (m : Machine) (start : Nat) (c : Cursor) :
    Except Flaw (Machine × Cursor) := do
  let (name, c) ← c.name ')'
  let back := name.length + 1
  let (group, m) ←
    if isName name then
      match m.names.lookup name with
      | some group => .ok (group, m)
      | none => .error (c.flaw ("unknown group name " ++ Text.quoted name) back)
    else if name.toList.all Text.isAsciiDigit then
      let group := Text.asciiNumber name.toList
      if group = 0 then .error (c.flaw "bad group number" back)
      else if group ≥ 2147483647 then .error (c.flaw s!"invalid group reference {group}" back)
      else if (m.conditions.lookup group).isSome then .ok (group, m)
      else .ok (group, { m with conditions := m.conditions ++ [(group, c.pos - back)] })
    else .error (c.flaw ("bad character in group name " ++ Text.quoted name) back)
  m.checkBehind group c
  return (m.openGroup (.conditional group) start m.top.flags, c)

/-- A named group or a reference by name; `c` is past the letter `P`. -/
def namedGroup (m : Machine) (start : Nat) (c : Cursor) : Except Flaw (Machine × Cursor) := do
  let (opens, c) ← c.accept '<'
  if opens then
    let (name, c) ← c.name '>'
    checkName name c
    return (← m.openCapture (some name) start c, c)
  else
    let (refers, c) ← c.accept '='
    if refers then
      let (name, c) ← c.name ')'
      checkName name c
      let back := name.length + 1
      match m.names.lookup name with
      | none => .error (c.flaw ("unknown group name " ++ Text.quoted name) back)
      | some group =>
        if !m.isClosed group then .error (c.flaw "cannot refer to an open group" back)
        else do
          m.checkBehind group c
          return (m.add (.reference group m.top.flags.caseRule), c)
    else
      let (piece, c) ← c.get
      match piece with
      | none => .error (c.flaw "unexpected end of pattern")
      | some p => .error (c.flaw ("unknown extension ?P" ++ p.text) (p.text.length + 2))

/-- A condition on what lies behind; `c` is past the opening angle. -/
def behindGroup (m : Machine) (start : Nat) (c : Cursor) : Except Flaw (Machine × Cursor) := do
  let (piece, c) ← c.get
  match piece with
  | none => .error (c.flaw "unexpected end of pattern")
  | some p =>
    if p = .char '=' || p = .char '!' then
      let limit := m.behindLimit.getD m.nextGroup
      let opened := m.openGroup (.behind (p = .char '!') m.behindLimit) start m.top.flags
      return ({ opened with behindLimit := some limit }, c)
    else .error (c.flaw ("unknown extension ?<" ++ p.text) (p.text.length + 2))

/-- A parenthesis opens a group of one kind or another; `c` is past it. -/
def openParenthesis (m : Machine) (start : Nat) (c : Cursor) :
    Except Flaw (Machine × Cursor) := do
  let (extended, c) ← c.accept '?'
  if !extended then return (← m.openCapture none start c, c)
  else
    let (piece, c) ← c.get
    let flags := m.top.flags
    match piece with
    | none => .error (c.flaw "unexpected end of pattern")
    | some (.char 'P') => m.namedGroup start c
    | some (.char ':') => return (m.openGroup .plain start flags, c)
    | some (.char '#') => return (m, ← skipComment start (c.rest.length + 1) c)
    | some (.char '=') => return (m.openGroup (.ahead false) start flags, c)
    | some (.char '!') => return (m.openGroup (.ahead true) start flags, c)
    | some (.char '<') => m.behindGroup start c
    | some (.char '(') => m.conditionalGroup start c
    | some (.char '>') => return (m.openGroup .atomic start flags, c)
    | some (.char x) =>
      if isFlag x || x = '-' then m.flagGroup start x c
      else .error (c.flaw ("unknown extension ?" ++ x.toString) 2)
    | some p => .error (c.flaw ("unknown extension ?" ++ p.text) (p.text.length + 1))

/-- Close the innermost group; `pos` is where its parenthesis stands. -/
def close (m : Machine) (pos : Nat) : Except Flaw Machine :=
  match m.outer with
  | [] => .error (.at "unbalanced parenthesis" pos)
  | next :: outer =>
    let inner := m.top
    let body := inner.body
    let back := { m with top := next, outer := outer }
    let width := body.width m.widthOf
    match inner.kind with
    | .plain => .ok (back.add (.sequence .empty body))
    | .capture group =>
      .ok { back.add (.capture group body) with widths := (group, width) :: m.widths }
    | .atomic => .ok (back.add (.atomic body))
    | .ahead negated => .ok (back.add (.ahead negated body))
    | .behind negated limit =>
      .ok { back.add (.behind negated width.1 body) with
            behindLimit := limit, unfixed := m.unfixed || width.2 != some width.1 }
    | .conditional group =>
      match inner.choices with
      | yes :: _ => .ok (back.add (.conditional group yes inner.finishChoice))
      | [] => .ok (back.add (.conditional group inner.finishChoice .empty))

/-- A bar begins the next choice; `pos` is where it stands. -/
def bar (m : Machine) (pos : Nat) : Except Flaw Machine :=
  match m.top.kind, m.top.choices with
  | .conditional _, _ :: _ =>
    .error (.at "conditional backref with more than two branches" pos)
  | _, choices =>
    .ok { m with top := { m.top with choices := m.top.finishChoice :: choices, items := [] } }

/-- Skip a line of commentary. -/
def skipLine : (fuel : Nat) → Cursor → Except Flaw Cursor
  | 0, c => .ok c
  | fuel + 1, c => do
    let (piece, next) ← c.get
    match piece with
    | none | some (.char '\n') => return next
    | some _ => skipLine fuel next

/-- Read the construct at a piece; `here` is past it. -/
def construct (m : Machine) (pos : Nat) (p : Piece) (here : Cursor) :
    Except Flaw (Machine × Cursor) := do
  let flags := m.top.flags
  match p with
  | .broken => .error (.at "bad escape (end of pattern)" pos)
  | .escape x =>
    let (r, c) ← m.escape x here
    return (m.add r, c)
  | .char x =>
    if flags.verbose && asciiSpace x then return (m, here)
    else if flags.verbose && x = '#' then return (m, ← skipLine (here.rest.length + 1) here)
    else
      match x with
      | '[' => m.characterClass pos here
      | '(' => m.openParenthesis pos here
      | '*' => m.repeatLast pos 0 none here
      | '+' => m.repeatLast pos 1 none here
      | '?' => m.repeatLast pos 0 (some 1) here
      | '{' =>
        if here.next? = some (.char '}') then return (m.add (m.single '{'), here)
        else
          match ← counts? here with
          | (some (least, most), c) => m.repeatLast pos least most c
          | (none, _) => return (m.add (m.single '{'), here)
      | '.' => return (m.add (.anyChar flags.dotAll), here)
      | '^' => return (m.add (.anchor (if flags.multiline then .lineStart else .textStart)), here)
      | '$' => return (m.add (.anchor (if flags.multiline then .lineEnd else .finalLineEnd)), here)
      | x => return (m.add (m.single x), here)

/-- Read what a piece begins.  A bar and a closing parenthesis belong to the group
around them. -/
def step (m : Machine) (pos : Nat) (p : Piece) (rest : List Piece) :
    Except Flaw (Machine × Cursor) := do
  match p with
  | .char '|' => return (← m.bar pos, ← Cursor.advance ⟨pos, p :: rest⟩)
  | .char ')' => return (← m.close pos, ← Cursor.advance ⟨pos, p :: rest⟩)
  | p => m.construct pos p (← Cursor.advance ⟨pos, p :: rest⟩)

/-- The pattern that the machine has read when no pieces are left. -/
def finish (m : Machine) : Except Flaw Regex :=
  match m.outer with
  | _ :: _ => .error (.at "missing ), unterminated subpattern" m.top.start)
  | [] =>
    match m.conditions.find? fun entry => entry.1 ≥ m.nextGroup with
    | some (group, pos) => .error (.at s!"invalid group reference {group}" pos)
    | none =>
      if m.asciiFlag && m.unicodeFlag then .error .clashingFlags
      else if m.unfixed then .error (.general "look-behind requires fixed-width pattern")
      else .ok m.top.body

/-- Take the pieces from left to right; `skip` of them belong to the construct
before. -/
def run (m : Machine) (skip pos : Nat) : List Piece → Except Flaw Regex
  | [] => m.finish
  | p :: rest =>
    match skip with
    | skip + 1 => m.run skip (pos + p.width) rest
    | 0 => do
      let (next, c) ← m.step pos p rest
      next.run (rest.length - c.rest.length) (pos + p.width) rest

end Machine

/-- The pattern that a text writes, where `charNamed?` knows the names of characters.
Octets are read as the first 256 characters, with ASCII classes. -/
def parse (charNamed? : String → Option Char) (isText : Bool) (source : List Char) :
    Except Flaw Regex :=
  let flags : Flags := { asciiOnly := !isText }
  let top : Frame := { kind := .plain, start := 0, flags := flags }
  let m : Machine := { isText := isText, charNamed? := charNamed?, top := top }
  match pieces source with
  | .broken :: _ => .error (.at "bad escape (end of pattern)" 0)
  | ps => m.run 0 0 ps

end Pattern
end Lineage
