/-!
# Blanks

The characters with the Unicode property White_Space, and the two operations on a text that
depend on them: cutting blanks off both ends, and splitting into words.
-/

namespace MacroAssembler.Text

/-- The character is white space: the control characters from tab to carriage return, the next
line control, and the separators of Unicode. -/
def isBlank (c : Char) : Bool :=
  let n := c.toNat
  (9 ≤ n && n ≤ 13) || n == 0x20 || n == 0x85 || n == 0xA0 || n == 0x1680
    || (0x2000 ≤ n && n ≤ 0x200A) || n == 0x2028 || n == 0x2029 || n == 0x202F || n == 0x205F
    || n == 0x3000

/-- The text without the blanks at its start. -/
def trimStart (cs : List Char) : List Char := cs.dropWhile isBlank

/-- The text without the blanks at either end. -/
def trim (cs : List Char) : List Char := (trimStart (trimStart cs).reverse).reverse

/-- The words of a text whose first word has begun with `current`, given in reverse. -/
def wordsFrom (current : List Char) : List Char → List (List Char)
  | [] => if current.isEmpty then [] else [current.reverse]
  | c :: rest =>
      if isBlank c then
        if current.isEmpty then wordsFrom [] rest else current.reverse :: wordsFrom [] rest
      else wordsFrom (c :: current) rest

/-- The stretches of a text between blanks. -/
def words (cs : List Char) : List (List Char) := wordsFrom [] cs

end MacroAssembler.Text
