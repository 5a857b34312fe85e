import Lineage.Externals
import Lineage.Pattern.Parser
import Lineage.Text.Mark
import Lineage.Text.Printable
import Lineage.Text.Split

/-
Texts of e-mail addresses.

An address may stand alone or between angles after a name.  Its local part is
dot-separated runs of letters, digits and some signs, its domain at least two
labels of letters, digits and inner hyphens that end in a letter.
-/

namespace Lineage
namespace Email

/-- A name of words or in quotes, or none, and an address between angles, which
is the third group. -/
def namedForm : String :=
  "\\s*(?:((?:[\\w.!#$%&'*+\\-/=?^_`\x7b|\x7d~]+\\s+)*[\\w.!#$%&'*+\\-/=?^_`\x7b|\x7d~]+)" ++
    "|\"((?:[^\"]|\")+)\")?\\s*<(.+)>\\s*"

/-- The address in a text: what stands between angles after a name, else all. -/
def address (s : String) : List Char :=
  let cs := s.toList
  match Pattern.parse (fun _ => none) true namedForm.toList with
  | .error _ => cs
  | .ok r =>
    let text := cs.toArray
    let found := r.run text 0 [] fun pos captures =>
      if pos = text.size then some (pos, captures) else none
    match found with
    | some (_, captures) =>
      match captures.find? 3 with
      | some (i, j) => (cs.drop i).take (j - i)
      | none => cs
    | none => cs

def isAsciiAlphanumeric (c : Char) : Bool := Pattern.isAsciiLetter c || Text.isAsciiDigit c

/-- Signs that a local part may hold. -/
def signs : List Char := "!#$%&'*+-/=?^_`\x7b|\x7d~".toList

def isLocalChar (c : Char) : Bool :=
  if c.toNat < 128 then isAsciiAlphanumeric c || signs.contains c else Text.isPrintable c

/-- Runs between dots are not empty, and no mark comes first. -/
def isLocalPart (cs : List Char) : Bool :=
  (Text.splitAt '.' cs).all (fun run => !run.isEmpty && run.all isLocalChar) &&
    !cs.head?.any Text.isMark

def isDomainChar (c : Char) : Bool :=
  c == '-' ||
    (if c.toNat < 128 then isAsciiAlphanumeric c else Text.isAlphanumeric c || Text.isMark c)

/-- A label has one to 63 characters and hyphens only inside, not both at the third
and at the fourth place. -/
def isLabel (label : List Char) : Bool :=
  !label.isEmpty && label.length ≤ 63 && label.all isDomainChar &&
    label.head? != some '-' && label.getLast? != some '-' &&
    (label.drop 2).take 2 != ['-', '-']

/-- Last labels of domains that are for special use. -/
def reservedLabels : List (List Char) :=
  ["arpa".toList, "invalid".toList, "local".toList, "localhost".toList, "onion".toList,
    "test".toList]

def isDomain (cs : List Char) : Bool :=
  let labels := Text.splitAt '.' cs
  labels.length ≥ 2 && labels.all isLabel && cs.length ≤ 253 &&
    cs.getLast?.any Pattern.isAsciiLetter &&
    !labels.getLast?.any fun last => reservedLabels.contains (last.map Text.asciiLower)

/-- No text has a line break or more than 2048 characters, and no address more
than 254 octets. -/
def isEmail (s : String) : Bool :=
  if s.toList.any (fun c => c == '\n' || c == '\r') || s.length > 2048 then false
  else
    let whole := Text.strip (address s)
    match Text.splitAt '@' whole with
    | [before, domain] =>
      isLocalPart before && isDomain domain && (String.ofList whole).utf8ByteSize ≤ 254
    | _ => false

/-- What the program runs with: these addresses, of which the domains are taken as they are
written and not transcribed, and characters without names. -/
instance externals : Externals where
  isEmail := isEmail
  charNamed? _ := none

end Email
end Lineage
