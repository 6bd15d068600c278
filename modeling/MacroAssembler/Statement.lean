import MacroAssembler.Conditional.Expr
import MacroAssembler.Symbol.Expr

/-!
# Statements

A statement has a name field, an operation field and an operand field. The form of the operands
depends on the operation, so that a statement first carries its operand field as text, and later
a list of operands.
-/

namespace MacroAssembler

open Conditional (VariableSymbol Concatenation)

/-- The name field. -/
inductive Label where
  | empty
  | ordinary (name : NameId) (range : Range)
  | sequence (name : NameId) (range : Range)
  | reference (v : VariableSymbol)
  | concatenation (c : Concatenation) (range : Range)

/-- Where the name field stands, unless it is empty. -/
def Label.range? : Label → Option Range
  | empty => none
  | ordinary _ r => some r
  | sequence _ r => some r
  | reference v => some v.range
  | concatenation _ r => some r

/-- The operation field. -/
inductive Operation where
  | empty (range : Range)
  | ordinary (name : NameId) (range : Range)
  /-- The operation is known only after substitution. -/
  | concatenation (c : Concatenation) (range : Range)

/-- What an operation code belongs to. -/
inductive OpcodeKind where
  | undefined
  | conditional
  | machine
  | assembler
  | definedMacro
  deriving DecidableEq

/-- The operation code, as far as it has been looked up. -/
structure Opcode where
  name : Option NameId := none
  kind : OpcodeKind := .undefined
  deriving DecidableEq

/-- An operand of a machine instruction. -/
inductive MachineOperand where
  | expr (e : OrdinaryExpr NameId)
  /-- A displacement with one or two registers: `D(X,B)`, `D(L,B)`, `D(B)`, `D(,B)`. -/
  | address (displacement : OrdinaryExpr NameId) (first second : Option (OrdinaryExpr NameId))
  deriving DecidableEq

/-- The expressions of an operand, in the order of reading. -/
def MachineOperand.exprs : MachineOperand → List (OrdinaryExpr NameId)
  | expr e => [e]
  | address displacement first second => displacement :: (first.toList ++ second.toList)

/-- An operand. -/
inductive Operand where
  | empty (range : Range)
  | machine (m : MachineOperand) (range : Range)
  /-- The operand of an instruction to the assembler. -/
  | expr (e : OrdinaryExpr NameId) (range : Range)
  /-- The operand of a macro call or of a macro prototype. -/
  | concatenation (c : Concatenation) (range : Range)

namespace Operand

/-- Where an operand stands. -/
def range : Operand → Range
  | empty r => r
  | machine _ r => r
  | expr _ r => r
  | concatenation _ r => r

/-- The expression that an operand consists of. -/
def expr? : Operand → Option (OrdinaryExpr NameId)
  | expr e _ => some e
  | machine (.expr e) _ => some e
  | _ => none

/-- The expressions of an operand of a machine instruction. -/
def machineExprs : Operand → List (OrdinaryExpr NameId)
  | machine m _ => m.exprs
  | _ => []

end Operand

/-- The operand field: text, or operands once its form is known. -/
inductive OperandField where
  | text (field : String) (range : Range)
  | operands (list : List Operand)

/-- A statement with its operands in the given form. -/
structure Statement (Operands : Type) where
  label : Label
  operation : Operation
  opcode : Opcode
  operands : Operands
  range : Range

/-- The forms in which an operand field can be read. -/
inductive OperandForm where
  | machine
  | assembler
  | macroOperands
  | conditional
  /-- The field stays text until the statement is expanded. -/
  | deferred
  | unknown
  deriving DecidableEq

/-- Which reader a statement is meant for: open code, or a macro definition. -/
inductive ReaderKind where
  | openCode
  | definition
  deriving DecidableEq

/-- How a statement is to be read: by which reader, in which form, whether it has operands at
all, and with which operation code. -/
structure Reading where
  reader : ReaderKind
  form : OperandForm
  hasOperands : Bool := true
  opcode : Opcode := {}
  deriving DecidableEq

end MacroAssembler
