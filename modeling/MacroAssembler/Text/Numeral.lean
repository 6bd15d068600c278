/-!
# Numerals

Reading and writing whole numbers in positional notation. A numeral may carry a sign; it is read
only if all of it is digits and its value fits the range that the reader states.
-/

namespace MacroAssembler.Numeral

/-- The value of a digit: the decimal digits, then the letters in either case. -/
def digitValue (c : Char) : Nat :=
  if '0' ≤ c ∧ c ≤ '9' then c.toNat - '0'.toNat
  else if 'a' ≤ c ∧ c ≤ 'z' then c.toNat - 'a'.toNat + 10
  else if 'A' ≤ c ∧ c ≤ 'Z' then c.toNat - 'A'.toNat + 10
  else 36

/-- The character is a digit of the base. -/
def isDigitOf (base : Nat) (c : Char) : Bool := digitValue c < base

/-- The number that a row of digits denotes, continued from a number read before. -/
def valueFrom (base : Nat) : Nat → List Char → Nat
  | n, [] => n
  | n, c :: rest => valueFrom base (n * base + digitValue c) rest

/-- The number that a row of digits denotes. -/
def valueOf (base : Nat) (cs : List Char) : Nat := valueFrom base 0 cs

/-- The number a nonempty row of digits denotes. -/
def digits? (base : Nat) (cs : List Char) : Option Nat :=
  if cs ≠ [] ∧ cs.all (isDigitOf base) then some (valueOf base cs) else none

/-- The number below `limit` that a text denotes: digits, after a plus sign or none. -/
def natural? (base limit : Nat) (cs : List Char) : Option Nat :=
  let body := match cs with
    | '+' :: rest => rest
    | _ => cs
  (digits? base body).filter (· < limit)

/-- The pattern of 32 bits that a text denotes, as a signed number. -/
def pattern? (base : Nat) (cs : List Char) : Option Int32 :=
  (natural? base UInt32.size cs).map Int32.ofNat

/-- The signed number of 32 bits that a text denotes: decimal digits, after a sign or none. -/
def integer? (cs : List Char) : Option Int32 :=
  match cs with
  | '-' :: rest => ((digits? 10 rest).filter (· ≤ 0x80000000)).map fun n => Int32.ofInt (-(n : Int))
  | '+' :: rest => ((digits? 10 rest).filter (· < 0x80000000)).map Int32.ofNat
  | rest => ((digits? 10 rest).filter (· < 0x80000000)).map Int32.ofNat

/-- The numeral of a number in a base up to sixteen, with capital letters. -/
def write (base n : Nat) : List Char := (Nat.toDigits base n).map Char.toUpper

/-- The text with zeros in front, up to the width. -/
def pad (width : Nat) (cs : List Char) : List Char :=
  List.replicate (width - cs.length) '0' ++ cs

/-- A signed number in decimal, with a minus sign if it is negative. -/
def decimal (i : Int32) : String := toString i.toInt

/-- A signed number in decimal, with its sign in any case. -/
def signed (i : Int32) : String := if i < 0 then decimal i else "+" ++ decimal i

/-- The bits of a number, at least `width` of them. -/
def binary (width : Nat) (i : Int32) : String :=
  String.ofList (pad width (write 2 i.toUInt32.toNat))

/-- The hexadecimal digits of the bits of a number, at least `width` of them. -/
def hexadecimal (width : Nat) (i : Int32) : String :=
  String.ofList (pad width (write 16 i.toUInt32.toNat))

end MacroAssembler.Numeral
