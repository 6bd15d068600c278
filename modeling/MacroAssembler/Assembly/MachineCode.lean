import MacroAssembler.Assembly.OperandCheck
import MacroAssembler.Assembly.State

/-!
# Machine instructions

A machine instruction defines its label, takes room in the section, and has its operands checked.
If an operand needs symbols or lengths that are not known yet, the check is postponed until the
layout releases it.
-/

namespace MacroAssembler.Assembly

/-- The machine instruction of a statement and the operands it expects. -/
def encoded (a : Assembly) (s : Statement (List Operand)) :
    Except Fault (MachineInstruction × List OperandFormat) :=
  match s.opcode.name with
  | none => .error (.noOperationCode s.range)
  | some id =>
      match Instruction.encoded? (a.names.nameOf id) with
      | some found => .ok found
      | none => .error (.unknownInstruction (a.names.nameOf id))

/-- How the operation of a machine statement is read; an operation that is none has no form. -/
def machineReading (a : Assembly) (operation : Operation) : Reading :=
  match operation with
  | .ordinary id _ =>
      if (Instruction.encoded? (a.names.nameOf id)).isSome then
        { reader := .openCode, form := .machine, opcode := ⟨some id, .machine⟩ }
      else { reader := .openCode, form := .unknown, opcode := ⟨some id, .undefined⟩ }
  | _ => { reader := .openCode, form := .unknown }

/-- The diagnostics of the operands of a machine statement, with the symbols as they are now. -/
def checkOperands (a : Assembly) (s : Statement (List Operand)) (formats : List OperandFormat) :
    List Diagnostic :=
  OperandCheck.operands a.layout.table s.operands formats s.range

/-- Define the label of a machine statement at the next halfword. -/
def defineMachineLabel (a : Assembly) (s : Statement (List Operand)) (i : MachineInstruction) :
    List Diagnostic × Assembly :=
  match s.label with
  | .ordinary name range =>
      if a.defines name then ([a.redefinition name range], a)
      else
        let (place, a) := a.request (·.align .halfword)
        a.defineLabel name range place (.machine i.bytes)
  | _ => ([], a)

/-- Check the operands of a machine statement, now or when they can be evaluated. -/
def checkOrPostpone (a : Assembly) (s : Statement (List Operand)) (i : MachineInstruction)
    (formats : List OperandFormat) : List Diagnostic × Assembly :=
  let waiting := (s.operands.flatMap Operand.machineExprs).filter fun e => !a.isSettled e
  if waiting.isEmpty then (a.checkOperands s formats, a)
  else
    let a := a.report (.checkPostponed i.name s.range waiting.length)
    ([], a.change (·.await ⟨none, waiting.map .expr, some ⟨s, a.stack⟩, s.range⟩))

/-- Process a machine statement. -/
def processMachine (a : Assembly) (s : Statement OperandField) :
    Except Fault (List Diagnostic × Assembly) := do
  let (s, syntaxFaults, a) := a.read s .machine
  let (i, formats) ← a.encoded s
  let (labelFaults, a) := a.defineMachineLabel s i
  let (operandFaults, a) := a.checkOrPostpone s i formats
  let (_, a) := a.request (·.reserve (Int32.ofNat i.bytes) .none)
  return (syntaxFaults ++ labelFaults ++ operandFaults, a)

/-- Check a machine statement whose check was postponed. -/
def replayMachine (a : Assembly) (p : Postponed) : Except Fault (List Diagnostic × Assembly) := do
  let (_, formats) ← a.encoded p.statement
  let a := a.report (.checkReplayed p.statement.range)
  return (a.checkOperands p.statement formats, a)

end MacroAssembler.Assembly
