/-!
# Letter case

Names are compared without regard to the case of the letters A to Z. No other letter has a case
here: `Char.toUpper` and `Char.toLower` change those letters alone.
-/

namespace MacroAssembler.Text

/-- The text in capital letters. -/
def upper (s : String) : String := String.ofList (s.toList.map Char.toUpper)

/-- The text in small letters. -/
def lower (s : String) : String := String.ofList (s.toList.map Char.toLower)

/-- The texts differ at most in the case of letters. -/
def sameLetters (s t : String) : Bool := upper s == upper t

/-- A character that names are written with: a letter, a digit, or one of four signs. -/
def isNameChar (c : Char) : Bool :=
  c.isAlphanum || c == '@' || c == '#' || c == '$' || c == '_'

/-- The number of bytes a text takes in UTF-8. -/
def byteLength : List Char → Nat
  | [] => 0
  | c :: rest => c.utf8Size + byteLength rest

end MacroAssembler.Text
