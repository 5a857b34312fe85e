import Lineage.Value.Entries

/-
What a value yields when it is gone through: items of a container, keys of an
object, characters of a text, octets as numbers.
-/

namespace Lineage
namespace Value

def items? : Value → Option (List Value)
  | text s => some (s.toList.map fun c => text c.toString)
  | array items => some items
  | tuple items => some items
  | set items => some (Key.toValues items)
  | object entries => some (entries.map fun e => e.1.toValue)
  | bytes s => some (s.toUTF8.toList.map fun b => int b.toNat)
  | _ => none

/-- How many items a container or characters a text has. -/
def size? : Value → Option Nat
  | text s => some s.length
  | array items => some items.length
  | object entries => some entries.length
  | _ => none

end Value
end Lineage
