import MacroAssembler.Assembly.State
import MacroAssembler.Instruction

/-!
# Instructions to the assembler

EQU gives a symbol the value of an expression, and DS reserves storage. Both may use symbols that
are not defined yet: the value, or the length of the storage, then waits for them. The other
instructions have no effect on the layout.
-/

namespace MacroAssembler.Assembly

/-- The label of a statement that defines one, and the complaint about a label that is defined
already. -/
def freshLabel (a : Assembly) (s : Statement (List Operand)) :
    Option (NameId × Range) × List Diagnostic :=
  match s.label with
  | .ordinary name range =>
      if a.defines name then (none, [a.redefinition name range]) else (some (name, range), [])
  | _ => (none, [])

/-- The expression of an operand, counted from 0. -/
def operandExpr? (s : Statement (List Operand)) (n : Nat) : Option (OrdinaryExpr NameId) :=
  s.operands[n]?.bind Operand.expr?

/-- The value of an expression that is a number and not negative. -/
def lengthOf? (a : Assembly) (e : OrdinaryExpr NameId) : Option Int32 :=
  match a.layout.table.evaluate e with
  | .ok (.absolute length) => if 0 ≤ length then some length else none
  | _ => none

/-- Define a symbol, or complain that it is defined already. -/
def defineSymbol (a : Assembly) (name : NameId) (range : Range) (value : SymbolValue)
    (attributes : SymbolAttributes) : Except Diagnostic Assembly :=
  match a.layout.define ⟨name, value, attributes, a.location⟩ with
  | .ok layout => .ok (a.change fun _ => layout)
  | .error e => .error (e.diagnostic a.names range)

/-- Give a symbol the value of an expression, now or when it has one. -/
def equate (a : Assembly) (s : Statement (List Operand)) (name : NameId) (range : Range)
    (e : OrdinaryExpr NameId) : List Diagnostic × Assembly :=
  let length := (operandExpr? s 1).bind a.lengthOf? |>.map fun i => i.toInt.toNat
  if a.isSettled e then
    match a.layout.table.evaluate e with
    | .error _ => ([{ code := .invalidExpression, range := e.range }], a)
    | .ok value =>
        match a.defineSymbol name range value (.equate length) with
        | .ok a => ([], a)
        | .error d => ([d], a)
  else
    let a := a.report (.valuePostponed (a.names.nameOf name))
    match a.defineSymbol name range .undefined (.equate length) with
    | .ok a => ([], a.change (·.await ⟨some (.symbol name), [.expr e], none, s.range⟩))
    | .error d => ([d], a)

/-- Process an EQU statement, which needs a label and a value. -/
def processEquate (a : Assembly) (s : Statement (List Operand)) : List Diagnostic × Assembly :=
  match a.freshLabel s with
  | (none, faults) =>
      match s.label with
      | .empty => (faults ++ [{ code := .equWithoutLabel, range := s.range }], a)
      | _ => (faults, a)
  | (some (name, range), faults) =>
      match operandExpr? s 0 with
      | none => (faults ++ [{ code := .invalidExpression, range := s.range }], a)
      | some e =>
          let (more, a) := a.equate s name range e
          (faults ++ more, a)

/-- Reserve as many bytes as an expression says, now or when it has a value. The answer is the
place where they start, and their number if it is known. -/
def reserveStorage (a : Assembly) (s : Statement (List Operand)) (e : OrdinaryExpr NameId) :
    Address × Option Nat × List Diagnostic × Assembly :=
  if a.isSettled e then
    match a.lengthOf? e with
    | some length =>
        let (place, a) := a.request (·.reserve length .none)
        (place, some length.toInt.toNat, [], a)
    | none =>
        let (place, a) := a.request (·.align .none)
        (place, none, [{ code := .invalidStorageLength, range := e.range }], a)
  else
    let (place, a) := a.request (·.reserveLater e .none s.range)
    (place, none, [], a)

/-- Process a DS statement, which needs a length and may have a label. -/
def processReserve (a : Assembly) (s : Statement (List Operand)) : List Diagnostic × Assembly :=
  let (label, faults) := a.freshLabel s
  match operandExpr? s 0 with
  | none => (faults ++ [{ code := .invalidStorageLength, range := s.range }], a)
  | some e =>
      let (place, length, lengthFaults, a) := a.reserveStorage s e
      match label with
      | none => (faults ++ lengthFaults, a)
      | some (name, range) =>
          let (labelFaults, a) := a.defineLabel name range place (.storage length)
          (faults ++ lengthFaults ++ labelFaults, a)

/-- Process an instruction to the assembler. -/
def processDirective (a : Assembly) (s : Statement OperandField) : List Diagnostic × Assembly :=
  let (s, faults, a) := a.read s .assembler
  let name := (s.opcode.name.map a.names.nameOf).getD ""
  match Instruction.assembler? name with
  | some ⟨_, .equate⟩ =>
      let (more, a) := a.processEquate s
      (faults ++ more, a)
  | some ⟨_, .reserve⟩ =>
      let (more, a) := a.processReserve s
      (faults ++ more, a)
  | some ⟨_, .copy⟩ => (faults, a.report (.copySkipped s.range))
  | _ => (faults, a.report (.directiveIgnored name s.range))

end MacroAssembler.Assembly
