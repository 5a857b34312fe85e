/-
What is asked of libraries that are not part of the program.

Whether a text is an e-mail address is for a library to say, and the names of characters
are those of the Unicode standard.  Fields and all that is done with them take the answers
as they come.
-/

namespace Lineage

/-- The answers that the program takes from elsewhere. -/
class Externals where
  isEmail : String → Bool
  charNamed? : String → Option Char

end Lineage
