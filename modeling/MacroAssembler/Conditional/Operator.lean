import MacroAssembler.Conditional.Value
import MacroAssembler.Text.Blank
import MacroAssembler.Text.Letters

/-!
# Operators of conditional assembly

Each domain has an operator table of its own, and an expression of one domain never consults the
table of another. A higher priority binds tighter, and operators of one priority associate to the
left. A word that the table does not hold is no operator of the domain.
-/

namespace MacroAssembler.Conditional

/-- The operators. -/
inductive Operator where
  | sla | sll | sra | srl | find | index
  | andNot | orNot | xorNot | eq | ne | le | lt | ge | gt
  | and | or | xor | not
  | byte | double | lower | signed | upper
  deriving DecidableEq

namespace Operator

/-- All operators. -/
def all : List Operator :=
  [sla, sll, sra, srl, find, index, andNot, orNot, xorNot, eq, ne, le, lt, ge, gt, and, or, xor,
    not, byte, double, lower, signed, upper]

/-- The operator as it is written. -/
def text : Operator → String
  | sla => "SLA"
  | sll => "SLL"
  | sra => "SRA"
  | srl => "SRL"
  | find => "FIND"
  | index => "INDEX"
  | andNot => "AND NOT"
  | orNot => "OR NOT"
  | xorNot => "XOR NOT"
  | eq => "EQ"
  | ne => "NE"
  | le => "LE"
  | lt => "LT"
  | ge => "GE"
  | gt => "GT"
  | and => "AND"
  | or => "OR"
  | xor => "XOR"
  | not => "NOT"
  | byte => "BYTE"
  | double => "DOUBLE"
  | lower => "LOWER"
  | signed => "SIGNED"
  | upper => "UPPER"

end Operator

/-- How many operands an operator takes. -/
inductive Arity where
  | unary
  | binary
  deriving DecidableEq

/-- A row of an operator table. -/
structure OperatorEntry where
  op : Operator
  arity : Arity
  priority : Nat
  deriving DecidableEq

namespace OperatorEntry

/-- The words of the operator, with one blank between them. -/
def lexeme (e : OperatorEntry) : String := e.op.text

/-- The operator is written with more than one word. -/
def multipleWords (e : OperatorEntry) : Bool := e.lexeme.toList.contains ' '

end OperatorEntry

namespace Domain

/-- The operator table of a domain. Texts are joined by writing them side by side, so that their
table holds conversions only. -/
def operators : Domain → List OperatorEntry
  | arithmetic =>
      [⟨.not, .unary, 7⟩,
        ⟨.sla, .binary, 6⟩, ⟨.sll, .binary, 6⟩, ⟨.sra, .binary, 6⟩, ⟨.srl, .binary, 6⟩,
        ⟨.find, .binary, 6⟩, ⟨.index, .binary, 6⟩,
        ⟨.eq, .binary, 3⟩, ⟨.ne, .binary, 3⟩, ⟨.le, .binary, 3⟩, ⟨.lt, .binary, 3⟩,
        ⟨.ge, .binary, 3⟩, ⟨.gt, .binary, 3⟩,
        ⟨.and, .binary, 2⟩, ⟨.andNot, .binary, 2⟩,
        ⟨.or, .binary, 1⟩, ⟨.orNot, .binary, 1⟩, ⟨.xor, .binary, 1⟩, ⟨.xorNot, .binary, 1⟩]
  | boolean =>
      [⟨.eq, .binary, 4⟩, ⟨.ne, .binary, 4⟩, ⟨.le, .binary, 4⟩, ⟨.lt, .binary, 4⟩,
        ⟨.ge, .binary, 4⟩, ⟨.gt, .binary, 4⟩,
        ⟨.not, .unary, 3⟩,
        ⟨.and, .binary, 2⟩, ⟨.andNot, .binary, 2⟩,
        ⟨.or, .binary, 1⟩, ⟨.orNot, .binary, 1⟩, ⟨.xor, .binary, 1⟩, ⟨.xorNot, .binary, 1⟩]
  | character =>
      [⟨.byte, .unary, 1⟩, ⟨.double, .unary, 1⟩, ⟨.lower, .unary, 1⟩, ⟨.signed, .unary, 1⟩,
        ⟨.upper, .unary, 1⟩]

/-- A word, or several, in capital letters with one blank between them. -/
def canonical (s : String) : String :=
  Text.upper (String.ofList ([' '].intercalate (Text.words s.toList)))

/-- The row of an operator in the table of a domain. -/
def entry? (d : Domain) (word : String) : Option OperatorEntry :=
  d.operators.find? fun e => e.lexeme == canonical word

/-- The row of a unary operator. -/
def unary? (d : Domain) (word : String) : Option OperatorEntry :=
  (d.entry? word).filter fun e => e.arity == .unary

/-- The row of a binary operator. -/
def binary? (d : Domain) (word : String) : Option OperatorEntry :=
  (d.entry? word).filter fun e => e.arity == .binary

/-- The words form an operator of more than one word. -/
def multipleWords (d : Domain) (words : String) : Bool :=
  (d.entry? words).any OperatorEntry.multipleWords

end Domain

end MacroAssembler.Conditional
