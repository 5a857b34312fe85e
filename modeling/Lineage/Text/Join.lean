/-
Texts put together and cut.
-/

namespace Lineage
namespace Text

/-- The texts in order with `separator` between neighbours. -/
def joined (separator : String) : List String → String
  | [] => ""
  | s :: rest => rest.foldl (fun text t => text ++ separator ++ t) s

/-- A text longer than `limit` loses its end to three dots, which count.  A limit
below three leaves all but that many characters fewer. -/
def shortened (limit : Int) (s : String) : String :=
  let size : Int := s.length
  if size > limit then
    let kept := if limit ≥ 3 then limit - 3 else size + (limit - 3)
    String.ofList (s.toList.take kept.toNat) ++ "..."
  else s

/-- Digits of `n` in base sixteen, at least `width` of them. -/
def hex (width n : Nat) : String :=
  let digits := Nat.toDigits 16 n
  String.ofList (List.replicate (width - digits.length) '0' ++ digits)

end Text
end Lineage
