import Lineage.Schema
import Lineage.Field.Description
import Lineage.Sample.Draw

/-
Sample values that conform to a field.

Where a field leaves a choice, the generator draws: whether something optional is
there, how many items an array has, which variant of a union stands, a number from a
range, and texts that suit the name which a value is stored under.  Numbers under a
telling name keep to the range that such numbers have.  Custom checks have no samples.

Without a source of choices the sample is the least: what may be absent is left out or
null, an array is as short as it may be, a number is the lower end of its range, and of
a union the first variant stands.
-/

namespace Lineage

variable [Externals]

namespace Sample

variable {σ : Type}

/-! ## Names -/

/-- A name in small letters, as far as telling parts of names can show: among the other
letters only the Kelvin sign has a small letter of these. -/
def lowered (name : Option String) : List Char :=
  (name.getD "").toList.map fun c => if c = '\u212A' then 'k' else Text.asciiLower c

/-- Parts of names and the texts that suit them. -/
def topicsByName : List (List String × Topic) :=
  [(["email"], .email), (["first_name"], .firstName), (["last_name"], .lastName),
    (["username"], .username), (["name", "full_name"], .fullName), (["title"], .title),
    (["description", "content", "body"], .paragraph), (["bio", "summary"], .sentence),
    (["url", "link"], .url), (["phone", "mobile"], .phone),
    (["address", "street"], .streetAddress), (["city"], .city), (["country"], .country),
    (["zip", "postal"], .postcode), (["company", "organization"], .company),
    (["job", "position", "role"], .job), (["date", "day"], .date), (["id", "uuid"], .uuid)]

/-- The topic for a name: that of the first part which it is, or which occurs in it and
has more than two letters. -/
def topicFor (name : Option String) : Option Topic :=
  let named := topicsByName.find? fun row =>
    row.1.any fun part =>
      part.toList = lowered name ||
        (part.length > 2 && DefinitionError.occurs part.toList (lowered name))
  named.map Prod.snd

/-- A range of numbers, and whether they are whole. -/
structure NumberRange where
  low : Number
  high : Number
  whole : Bool

def wholeRange (low high : Int) : NumberRange := ⟨.int low, .int high, true⟩

/-- Parts of names and the ranges that numbers of such names have. -/
def rangesByName : List (List String × NumberRange) :=
  [(["age"], wholeRange 18 80),
    (["price", "cost", "amount"],
      ⟨.float (Double.ofDecimal false 1 0), .float (Double.ofDecimal false 99999 (-2)), false⟩),
    (["quantity", "count", "stock"], wholeRange 0 1000),
    (["rating", "score"], ⟨.int 0, .int 5, false⟩),
    (["year"], wholeRange 1970 2030)]

def anyRange : NumberRange := ⟨.int 0, .int 100, false⟩

/-- The range for a name: that of the first part which occurs in it. -/
def rangeFor (name : Option String) : NumberRange :=
  let named := rangesByName.find? fun row =>
    row.1.any fun part => DefinitionError.occurs part.toList (lowered name)
  (named.map Prod.snd).getD anyRange

/-! ## Bounds -/

/-- A bound as a count of characters. -/
def countOf (bound : Option Number) : Outcome (Option Nat) :=
  match bound with
  | none => .ok none
  | some (.int n) => .ok (some n.toNat)
  | some (.float _) => .error Error.badType

/-- What a number is rounded to, where there is such an integer: an infinity is too
large for one, and NaN is no number at all. -/
def wholeBound (n : Number) (rounded : Option Int) : Outcome Int :=
  match rounded with
  | some k => .ok k
  | none =>
    if n.same n then .error (.fault .overflow) else .error (.fault (.badValue ""))

/-- A bound as a whole number. -/
def wholeCount (n : Number) : Outcome Int := do
  let k ← wholeBound n n.floor?
  if n.isIntegral then return k else .error (.fault (.badValue ""))

def addInt (n : Number) (k : Int) : Outcome Number :=
  match n.add? (.int k) with
  | some sum => .ok sum
  | none => .error (.fault .overflow)

/-- The lower end of a range, raised to a bound. -/
def raised (low : Number) : Option Number → Number
  | some n => low.maxOf n
  | none => low

/-- The upper end of a range, lowered to a bound. -/
def capped (high : Number) : Option Number → Number
  | some n => high.minOf n
  | none => high

def lowerOr (min : Option Number) (high : Number) : Outcome Number :=
  match min with
  | some n => .ok n
  | none => addInt high (-100)

def upperOr (max : Option Number) (low : Number) : Outcome Number :=
  match max with
  | some n => .ok n
  | none => addInt low 100

/-- A range cut to bounds.  If nothing is left, the bounds alone count, and one that
is missing lies a hundred away from the other. -/
def narrowed (r : NumberRange) (min max : Option Number) : Outcome (Number × Number) :=
  let low := raised r.low min
  let high := capped r.high max
  if high.lt low then do
    let low ← lowerOr min high
    let high ← upperOr max low
    return (low, high)
  else .ok (low, high)

/-! ## Texts -/

def textOfFormat (src : Source σ) : Option Format → Draw σ (List String)
  | some .email => do return [← src.drawText .email]
  | some .uuid => do return [← src.drawText .uuid]
  | none => return []

def textOfTopic (src : Source σ) : Option Topic → Draw σ (List String)
  | some topic => do return [← src.drawText topic]
  | none => return []

/-- What a text may be, in order of preference. -/
def candidates (src : Source σ) (format : Option Format) (name : Option String) :
    Draw σ (List String) := do
  let formatted ← textOfFormat src format
  let named ← textOfTopic src (topicFor name)
  let word ← src.drawText .word
  let capitalized ← src.drawText .capitalizedWord
  let number ← src.drawBetween 0 99999
  let letters ← src.drawLetters 6
  return formatted ++ named ++ [word, capitalized, toString number, String.ofList letters]

/-- Cut a text to the greatest length or fill it up to the least. -/
def fit (src : Source σ) (minLen maxLen : Option Number) (s : String) : Draw σ String := do
  let most ← countOf maxLen
  let cut :=
    match most with
    | some n => s.toList.take n
    | none => s.toList
  if minLen.any (Number.lt (.int cut.length)) then
    let least ← countOf minLen
    let more ← src.drawLetters (least.getD 0 - cut.length)
    return String.ofList (cut ++ more)
  else return String.ofList cut

/-- The first candidate that conforms once it is cut to length. -/
def firstFitting (src : Source σ) (f : Field) (minLen maxLen : Option Number) :
    List String → Draw σ Value
  | [] => throw (.definition (.noSampleText f.describe))
  | s :: rest => do
    let fitted ← fit src minLen maxLen s
    let violations ← f.check {} (.text fitted)
    if violations.isEmpty then return .text fitted
    else firstFitting src f minLen maxLen rest

/-! ## Numbers -/

/-- A number of two decimals, moved into the range if rounding left it. -/
def fractional (src : Source σ) (low high : Number) : Draw σ Value := do
  let d ← src.drawUniform low high
  return .number ((Number.maxOf (.float (d.roundPlaces 2)) low).minOf high)

def drawNumber (src : Source σ) (min max : Option Number) (integral : Bool)
    (name : Option String) : Draw σ Value := do
  let r := rangeFor name
  let (low, high) ← narrowed r min max
  if r.whole || integral then
    let first ← wholeBound low low.ceil?
    let last ← wholeBound high high.floor?
    if first ≤ last then
      let k ← src.drawBetween first last
      return .int k
    else if integral then
      throw (.definition (.noInteger (Number.boundText min) (Number.boundText max)))
    else fractional src low high
  else fractional src low high

/-! ## Containers -/

/-- The most items that are drawn: without an upper bound three more than there have to
be. -/
def mostItems (least : Number) : Option Number → Outcome Number
  | some most => .ok most
  | none => addInt least 3

def itemCount (src : Source σ) : Option Number → Option Number → Draw σ Nat
  | none, _ => throw Error.badType
  | some least, maxItems => do
    let most ← mostItems least maxItems
    let first ← wholeCount least
    let last ← wholeCount (least.maxOf most)
    let n ← src.drawBetween first last
    return n.toNat

/-- Whether a name is left out; one that is required never is. -/
def omits (src : Source σ) (required : Bool) : Draw σ Bool :=
  if required then return false else src.drawChance 3

/-- As many values as asked for. -/
def repeated {α : Type} (draw : Draw σ α) : Nat → Draw σ (List α)
  | 0 => return []
  | n + 1 => do
    let v ← draw
    let rest ← repeated draw n
    return v :: rest

end Sample

namespace Field

open Sample

section Generate

variable {σ : Type} (src : Source σ)

mutual

/-- A value that conforms to a field; the name is the one it is stored under. -/
def generate (name : Option String) : Field → Draw σ Value
  | .string minLen maxLen pattern format => do
    let texts ← candidates src format name
    firstFitting src (.string minLen maxLen pattern format) minLen maxLen texts
  | .number min max integerOnly => drawNumber src min max integerOnly.truthy name
  | .boolean => do
    let k ← src.drawUpTo 1
    return .bool (k = 0)
  | .null => return .null
  | .any => do
    let s ← src.drawText .word
    return .text s
  | .literal v => return .scalar v
  | .array element minItems maxItems => do
    let count ← itemCount src minItems maxItems
    let items ← repeated (generate name element) count
    return .array items
  | .tuple items => do
    let items ← generateEach name items
    return .array items
  | .object members => do
    let entries ← generateMembers members
    return .object entries
  | .optional inner => do
    if ← src.drawChance 2 then return .null else generate name inner
  | .defaulted inner v => do
    if ← src.drawChance 2 then return v else generate name inner
  | .union variants _ => do
    let index ← src.drawUpTo (variants.length - 1)
    generateVariant name index variants
  | .custom _ name => throw (.definition (.noSampleOfCustom name.spoken))

def generateEach (name : Option String) : List Field → Draw σ (List Value)
  | [] => return []
  | f :: rest => do
    let v ← generate name f
    let vs ← generateEach name rest
    return v :: vs

/-- Values for the names that are required, and for some of the others. -/
def generateMembers : List (Member Field) → Draw σ (List (Key × Value))
  | [] => return []
  | ⟨name, required, f⟩ :: rest => do
    let omitted ← omits src required
    if omitted then generateMembers rest
    else do
      let v ← generate (some name) f
      let entries ← generateMembers rest
      return (.text name, v) :: entries

/-- A value for the variant at an index. -/
def generateVariant (name : Option String) : Nat → List Field → Draw σ Value
  | _, [] => throw (.fault .noIndex)
  | 0, f :: _ => generate name f
  | index + 1, _ :: rest => generateVariant name index rest

end

end Generate

end Field

namespace FieldArg

def generate {σ : Type} (src : Sample.Source σ) (name : Option String) (f : FieldArg) :
    Sample.Draw σ Value :=
  match f with
  | field f => f.generate src name
  | other v => throw (.definition (.unknownField v.typeName))

end FieldArg

/-! ## Least samples -/

namespace Sample

def Topic.example : Topic → String
  | email => "sample@example.com"
  | uuid => "00000000-0000-0000-0000-000000000000"
  | capitalizedWord => "Sample"
  | _ => "sample"

/-- The source that gives the least of everything: of fractions the least above zero. -/
def least : Source Unit where
  upTo _ s := (0, s)
  fraction s := (1, s)
  text topic s := (topic.example, s)

/-- What a computation gives that draws the least of everything. -/
def ofLeast {α : Type} (draw : Draw Unit α) : Outcome α := do
  let (a, _) ← draw ()
  return a

/-- A sample document with entries of the caller's: defaults, and over them what is
asked for this time. -/
def document {σ : Type} (src : Source σ) (f : FieldArg)
    (defaults overrides : List (Key × Value)) : Draw σ Value := do
  let v ← f.generate src none
  match v with
  | .object entries => return .object (Entries.putAll overrides (Entries.putAll defaults entries))
  | v => return v

def documents (f : FieldArg) (defaults overrides : List (Key × Value)) (count : Nat) :
    Outcome (List Value) :=
  ofLeast (repeated (document least f defaults overrides) count)

end Sample

namespace Field

def sample (name : Option String) (f : Field) : Outcome Value :=
  Sample.ofLeast (f.generate Sample.least name)

end Field

namespace FieldArg

def sample (name : Option String) (f : FieldArg) : Outcome Value :=
  Sample.ofLeast (f.generate Sample.least name)

/-- Several samples. -/
def samples (f : FieldArg) (count : Nat) : Outcome (List Value) :=
  Sample.ofLeast (Sample.repeated (f.generate Sample.least none) count)

end FieldArg
end Lineage
