import MacroAssembler.Diagnostic
import MacroAssembler.Instruction
import MacroAssembler.Statement
import MacroAssembler.Symbol.Table

/-!
# Checking operands

The operands of a machine instruction are checked against the formats that the instruction
expects, with the symbols as they are known at the time of the check. The check of an operand ends
at its first fault, so that each operand has at most one diagnostic.
-/

namespace MacroAssembler.OperandCheck

/-- The value of an expression; one without a value is a fault at the place of the expression. -/
def value (t : SymbolTable) (e : OrdinaryExpr NameId) : Except Diagnostic SymbolValue :=
  match t.evaluate e with
  | .ok v => .ok v
  | .error _ => .error { code := .invalidExpression, range := e.range }

/-- The expression is a number between two limits; a number outside them is a fault of the given
kind. -/
def within (t : SymbolTable) (low high : Int) (code : DiagnosticCode) (e : OrdinaryExpr NameId) :
    Except Diagnostic Unit := do
  match ← value t e with
  | .absolute i =>
      if low ≤ i.toInt ∧ i.toInt ≤ high then return ()
      else .error ⟨code, [toString i.toInt], e.range⟩
  | _ => .error { code := .operandKind, range := e.range }

/-- The expression is the number of a register. -/
def register (t : SymbolTable) (e : OrdinaryExpr NameId) : Except Diagnostic Unit :=
  within t 0 15 .registerOutOfRange e

/-- The expression, if there is one, is the number of a register. -/
def registerOrNone (t : SymbolTable) : Option (OrdinaryExpr NameId) → Except Diagnostic Unit
  | some e => register t e
  | none => .ok ()

/-- The expression is a displacement. -/
def displacement (t : SymbolTable) (e : OrdinaryExpr NameId) : Except Diagnostic Unit :=
  within t 0 4095 .displacementOutOfRange e

/-- The expression fits a number of bits. -/
def immediate (t : SymbolTable) (bits : Nat) (isSigned : Bool) (e : OrdinaryExpr NameId) :
    Except Diagnostic Unit :=
  if isSigned then within t (-Int.pow 2 (bits - 1)) (Int.pow 2 (bits - 1) - 1)
    .immediateOutOfRange e
  else within t 0 (Int.pow 2 bits - 1) .immediateOutOfRange e

/-- The expression is a place in the program, or an even number. -/
def relative (t : SymbolTable) (e : OrdinaryExpr NameId) : Except Diagnostic Unit := do
  match ← value t e with
  | .relocatable _ => return ()
  | .absolute i =>
      if i % 2 = 0 then return () else .error { code := .operandKind, range := e.range }
  | .undefined => .error { code := .operandKind, range := e.range }

/-- The expression is a place in the program, whose base register is found later, or a
displacement. -/
def plainAddress (t : SymbolTable) (e : OrdinaryExpr NameId) : Except Diagnostic Unit := do
  match ← value t e with
  | .relocatable _ => return ()
  | _ => displacement t e

/-- The operand has the form and the values that the format asks for. -/
def operand (t : SymbolTable) (format : OperandFormat) (o : Operand) : Except Diagnostic Unit :=
  match o with
  | .machine m range =>
      match format, m with
      | .register, .expr e => register t e
      | .mask, .expr e => within t 0 15 .immediateOutOfRange e
      | .immediate bits isSigned, .expr e => immediate t bits isSigned e
      | .relative, .expr e => relative t e
      | .indexedAddress, .expr e => plainAddress t e
      | .baseAddress, .expr e => plainAddress t e
      | .lengthAddress, .expr e => plainAddress t e
      | .indexedAddress, .address d first second => do
          displacement t d
          registerOrNone t first
          registerOrNone t second
      | .baseAddress, .address d first none => do
          displacement t d
          registerOrNone t first
      | .lengthAddress, .address d first second => do
          displacement t d
          if let some length := first then within t 1 256 .lengthOutOfRange length
          registerOrNone t second
      | _, _ => .error { code := .operandKind, range }
  | o => .error { code := .operandKind, range := o.range }

/-- The diagnostics of the operands of a statement at a range. A statement without operands is
read as one empty operand. -/
def operands (t : SymbolTable) (os : List Operand) (formats : List OperandFormat) (range : Range) :
    List Diagnostic :=
  let os := match os, formats with
    | [.empty _], [] => []
    | os, _ => os
  if os.length ≠ formats.length then
    [⟨.operandCount, [toString formats.length, toString os.length], range⟩]
  else
    (os.zip formats).filterMap fun (o, format) =>
      match operand t format o with
      | .ok () => none
      | .error d => some d

end MacroAssembler.OperandCheck
