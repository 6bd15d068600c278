import MacroAssembler.Conditional.Value
import MacroAssembler.Text.Letters

/-!
# Functions of conditional assembly

The built-in functions: their names, how many arguments they take, and the kind of their result.
-/

namespace MacroAssembler.Conditional

/-- The built-in functions. -/
inductive Function where
  | b2a | c2a | d2a | dclen | find | index | isbin | isdec | ishex | issym
  | a2b | a2c | a2d | a2x | b2c | b2d | b2x | byte | c2b | c2d | c2x | d2b | d2c | d2x
  | dcval | dequote | double | esym | lower | signed | sysattra | sysattrp | upper
  | x2b | x2c | x2d
  deriving DecidableEq

namespace Function

/-- All functions. -/
def all : List Function :=
  [b2a, c2a, d2a, dclen, find, index, isbin, isdec, ishex, issym, a2b, a2c, a2d, a2x, b2c, b2d,
    b2x, byte, c2b, c2d, c2x, d2b, d2c, d2x, dcval, dequote, double, esym, lower, signed,
    sysattra, sysattrp, upper, x2b, x2c, x2d]

/-- The name of a function. -/
def name : Function → String
  | b2a => "B2A"
  | c2a => "C2A"
  | d2a => "D2A"
  | dclen => "DCLEN"
  | find => "FIND"
  | index => "INDEX"
  | isbin => "ISBIN"
  | isdec => "ISDEC"
  | ishex => "ISHEX"
  | issym => "ISSYM"
  | a2b => "A2B"
  | a2c => "A2C"
  | a2d => "A2D"
  | a2x => "A2X"
  | b2c => "B2C"
  | b2d => "B2D"
  | b2x => "B2X"
  | byte => "BYTE"
  | c2b => "C2B"
  | c2d => "C2D"
  | c2x => "C2X"
  | d2b => "D2B"
  | d2c => "D2C"
  | d2x => "D2X"
  | dcval => "DCVAL"
  | dequote => "DEQUOTE"
  | double => "DOUBLE"
  | esym => "ESYM"
  | lower => "LOWER"
  | signed => "SIGNED"
  | sysattra => "SYSATTRA"
  | sysattrp => "SYSATTRP"
  | upper => "UPPER"
  | x2b => "X2B"
  | x2c => "X2C"
  | x2d => "X2D"

/-- The searches take a text and what is searched for, all other functions one argument. -/
def arity : Function → Nat
  | find | index => 2
  | _ => 1

/-- The kind of the result. -/
def result : Function → Domain
  | b2a | c2a | d2a | dclen | find | index => .arithmetic
  | isbin | isdec | ishex | issym => .boolean
  | _ => .character

/-- The function depends on the symbols of the program or on a code page, and so has no value
in an expression that stands alone. -/
def needsProgram : Function → Bool
  | c2a | c2b | c2d | c2x | a2c | b2c | d2c | x2c | issym | esym | dcval | sysattra
  | sysattrp => true
  | _ => false

/-- The function with a name, in capital or small letters. -/
def ofName? (s : String) : Option Function := all.find? fun f => Text.sameLetters f.name s

end Function

end MacroAssembler.Conditional
