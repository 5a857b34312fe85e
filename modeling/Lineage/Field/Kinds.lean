import Lineage.Field

/-
The kinds of values that a field can possibly accept.
-/

namespace Lineage
namespace Field

mutual

/-- Whether a field can accept values of a kind.  Of custom checks nothing is
known. -/
def mayAccept (kind : Kind) : Field → Bool
  | .string _ _ _ _ => kind == .string
  | .number _ _ _ => kind == .number
  | .boolean => kind == .boolean
  | .null => kind == .null
  | .any => true
  | .literal value => kind == value.kind
  | .array _ _ _ => kind == .array
  | .tuple _ => kind == .array
  | .object _ => kind == .object
  | .optional inner => kind == .null || mayAccept kind inner
  | .defaulted inner _ => mayAccept kind inner
  | .union variants _ => anyMayAccept kind variants
  | .custom _ _ => true

def anyMayAccept (kind : Kind) : List Field → Bool
  | [] => false
  | f :: rest => mayAccept kind f || anyMayAccept kind rest

end

/-- All kinds that a field can accept. -/
def acceptedKinds (f : Field) : List Kind := Kind.all.filter fun k => f.mayAccept k

end Field
end Lineage
