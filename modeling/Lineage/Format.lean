import Lineage.Externals
import Lineage.Format.Uuid

/-
Well-known forms of texts that a text field can ask for.
-/

namespace Lineage

inductive Format where
  | email
  | uuid
  deriving DecidableEq

namespace Format

def name : Format → String
  | email => "email"
  | uuid => "uuid"

def ofName? (s : String) : Option Format :=
  if s = "email" then some email else if s = "uuid" then some uuid else none

variable [Externals]

def matchesText : Format → String → Bool
  | email, s => Externals.isEmail s
  | uuid, s => Uuid.isUuid s

end Format
end Lineage
