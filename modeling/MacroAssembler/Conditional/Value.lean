/-!
# Values of conditional assembly

Conditional assembly computes with three kinds of values: signed numbers of 32 bits, truth
values, and texts.
-/

namespace MacroAssembler.Conditional

/-- The kinds of values, and of the expressions that compute them. -/
inductive Domain where
  | arithmetic
  | boolean
  | character
  deriving DecidableEq

/-- The letter of the kind. -/
def Domain.letter : Domain → String
  | arithmetic => "A"
  | boolean => "B"
  | character => "C"

/-- A value. -/
inductive Value where
  | arithmetic (i : Int32)
  | boolean (b : Bool)
  | character (s : String)
  deriving DecidableEq

namespace Value

/-- The kind of a value. -/
def domain : Value → Domain
  | arithmetic _ => .arithmetic
  | boolean _ => .boolean
  | character _ => .character

/-- The text that stands for a value where it is substituted. -/
def text : Value → String
  | arithmetic i => toString i.toInt
  | boolean true => "1"
  | boolean false => "0"
  | character s => s

end Value

end MacroAssembler.Conditional
