import MacroAssembler.Text.Numeral

/-!
# Documents

A document is a scalar, a sequence in brackets, or a mapping in braces. Scalars are quoted texts
with escapes, or plain words, numbers among them, which stay as they are written. A text is cut
into tokens first; the tokens are then read by a machine that keeps the collections which are
still open.
-/

namespace MacroAssembler.Console

/-- A scalar, whether it was written in quotation marks, and how many characters it took as it
was written, with the quotation marks and the escapes. -/
structure Scalar where
  text : String
  isQuoted : Bool
  width : Nat
  deriving DecidableEq

/-- The most characters that a key may take. -/
def keyLimit : Nat := 1024

/-- A scalar that takes more characters is not looked at as a key. -/
def Scalar.canBeKey (s : Scalar) : Bool := s.width ≤ keyLimit

/-- A document. The entries of a mapping stay in the order in which they are written. -/
inductive Node where
  | scalar (s : Scalar)
  | sequence (items : List Node)
  | mapping (entries : List (String × Node))

/-- What a text is made of. -/
inductive Token where
  | scalar (s : Scalar)
  | openSequence
  | closeSequence
  | openMapping
  | closeMapping
  | comma
  | colon
  deriving DecidableEq

namespace Token

/-- The token that is one sign. -/
def ofSign? : Char → Option Token
  | '[' => some openSequence
  | ']' => some closeSequence
  | '\x7b' => some openMapping
  | '\x7d' => some closeMapping
  | ',' => some comma
  | ':' => some colon
  | _ => none

/-- The white space between tokens. -/
def isSeparator (c : Char) : Bool := c = ' ' || c = '\t' || c = '\n' || c = '\r'

/-- The character that a letter after a backslash stands for. -/
def escaped? : Char → Option Char
  | '"' => some '"'
  | '\\' => some '\\'
  | '/' => some '/'
  | 'b' => some (Char.ofNat 8)
  | 'f' => some (Char.ofNat 12)
  | 'n' => some '\n'
  | 'r' => some '\r'
  | 't' => some '\t'
  | _ => none

/-- The first of two numbers of 16 bits that together stand for one character. -/
def isHighHalf (n : Nat) : Bool := 0xD800 ≤ n && n < 0xDC00

/-- The second of two numbers of 16 bits that together stand for one character. -/
def isLowHalf (n : Nat) : Bool := 0xDC00 ≤ n && n < 0xE000

/-- The character beyond the first 65536 that two halves stand for. -/
def ofHalves (high low : Nat) : Char :=
  Char.ofNat (0x10000 + (high - 0xD800) * 0x400 + (low - 0xDC00))

/-- The number of four hexadecimal digits. -/
def fourDigits? (a b c d : Char) : Option Nat := Numeral.digits? 16 [a, b, c, d]

mutual
/-- The tokens of a text. -/
def ofChars : List Char → Option (List Token)
  | [] => some []
  | c :: rest =>
      if isSeparator c then ofChars rest
      else if c = '"' then quoted 1 [] rest
      else
        match ofSign? c with
        | some t => (ofChars rest).map (t :: ·)
        | none => plain [c] rest

/-- The tokens from inside a plain scalar, whose characters so far are given in reverse. -/
def plain (read : List Char) : List Char → Option (List Token)
  | [] => some [scalar ⟨String.ofList read.reverse, false, read.length⟩]
  | c :: rest =>
      let s := scalar ⟨String.ofList read.reverse, false, read.length⟩
      if isSeparator c then (ofChars rest).map (s :: ·)
      else
        match ofSign? c with
        | some t => (ofChars rest).map fun ts => s :: t :: ts
        | none => plain (c :: read) rest

/-- The tokens from inside a quoted scalar, which takes so many characters so far; those that it
stands for are given in reverse. -/
def quoted (width : Nat) (read : List Char) : List Char → Option (List Token)
  | [] => none
  | '"' :: rest =>
      (ofChars rest).map (scalar ⟨String.ofList read.reverse, true, width + 1⟩ :: ·)
  | '\\' :: 'u' :: a :: b :: c :: d :: rest => do
      let n ← fourDigits? a b c d
      if isHighHalf n then
        match rest with
        | '\\' :: 'u' :: a :: b :: c :: d :: rest =>
            let low ← (fourDigits? a b c d).filter isLowHalf
            quoted (width + 12) (ofHalves n low :: read) rest
        | _ => none
      else if isLowHalf n then none
      else quoted (width + 6) (Char.ofNat n :: read) rest
  | '\\' :: c :: rest => do
      let c ← escaped? c
      quoted (width + 2) (c :: read) rest
  | c :: rest => quoted (width + 1) (c :: read) rest
end

end Token

namespace Node

/-- A collection that is not closed yet, with what it holds so far. -/
inductive Opened where
  | sequence (items : List Node)
  /-- The value of the key comes next. -/
  | mapping (entries : List (String × Node)) (key : String)

mutual
/-- The document whose next node starts here, inside the open collections. -/
def start (stack : List Opened) : List Token → Option Node
  | .scalar s :: rest => proceed (.scalar s) stack rest
  | .openSequence :: .closeSequence :: rest => proceed (.sequence []) stack rest
  | .openSequence :: rest => start (.sequence [] :: stack) rest
  | .openMapping :: .closeMapping :: rest => proceed (.mapping []) stack rest
  | .openMapping :: .scalar key :: .colon :: rest =>
      if key.canBeKey then start (.mapping [] key.text :: stack) rest else none
  | _ => none

/-- The document after a node that is complete. -/
def proceed (n : Node) : List Opened → List Token → Option Node
  | [], [] => some n
  | .sequence items :: stack, .comma :: rest => start (.sequence (items ++ [n]) :: stack) rest
  | .sequence items :: stack, .closeSequence :: rest =>
      proceed (.sequence (items ++ [n])) stack rest
  | .mapping entries key :: stack, .comma :: .scalar next :: .colon :: rest =>
      if next.canBeKey then start (.mapping (entries ++ [(key, n)]) next.text :: stack) rest
      else none
  | .mapping entries key :: stack, .closeMapping :: rest =>
      proceed (.mapping (entries ++ [(key, n)])) stack rest
  | _, _ => none
end

/-- The document that a text is. -/
def ofText? (s : String) : Option Node := (Token.ofChars s.toList).bind (start [])

end Node

end MacroAssembler.Console
