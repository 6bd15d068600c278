import MacroAssembler.Assembly.Directives
import MacroAssembler.Assembly.MachineCode

/-!
# Open code

The statements outside macro definitions. The operation code decides what becomes of a statement:
a macro that is defined is called, and takes precedence over an instruction of its name; machine
instructions and instructions to the assembler are processed; MACRO asks for a definition to be
started.
-/

namespace MacroAssembler

/-- What a statement asks of the session. -/
inductive Notice where
  | definitionStarted (location : Location)
  | definitionFinished (d : MacroDefinition)
  | macroCalled (c : MacroCall)

/-- Where statements come from: the expansion of a macro, a copied member, or open code. -/
inductive Provider where
  | expansion
  | copy
  | openCode
  deriving DecidableEq

/-- The diagnostics of open code that were not fetched yet, by the part that raised them. -/
structure OpenCode where
  own : List Diagnostic := []
  machine : List Diagnostic := []
  directives : List Diagnostic := []

namespace Assembly

/-- How the operation of a statement in open code is read. -/
def openReading (a : Assembly) (operation : Operation) : Reading :=
  match operation with
  | .empty _ => { reader := .openCode, form := .unknown }
  | .concatenation _ _ => { reader := .openCode, form := .deferred }
  | .ordinary id _ =>
      if a.library.binds id then
        { reader := .openCode, form := .macroOperands, opcode := ⟨some id, .definedMacro⟩ }
      else
        let name := a.names.nameOf id
        match Instruction.kind? name with
        | some .conditional =>
            { reader := .openCode
              form := .conditional
              hasOperands := !(Instruction.conditional? name).any (·.operandless)
              opcode := ⟨some id, .conditional⟩ }
        | some .machine => a.machineReading operation
        | some .mnemonic => a.machineReading operation
        | some .assembler =>
            { reader := .openCode, form := .assembler, opcode := ⟨some id, .assembler⟩ }
        | none => { reader := .openCode, form := .unknown, opcode := ⟨some id, .undefined⟩ }

/-- Process an instruction of conditional assembly. Only MACRO has an effect here. -/
def processConditional (a : Assembly) (s : Statement OperandField) : Assembly × List Notice :=
  let name := Text.upper ((s.opcode.name.map a.names.nameOf).getD "")
  if name = "MACRO" then (a, [.definitionStarted a.location])
  else (a.report (.conditionalSkipped name s.range), [])

/-- The name field of a call as an argument. -/
def labelData (a : Assembly) (label : Label) : MacroData × Assembly :=
  let rendered : Option (Except UnknownName String) := match label with
    | .empty => none
    | .sequence _ _ => none
    | .ordinary name _ => some (.ok (a.names.nameOf name))
    | .reference v => some (v.render a.names)
    | .concatenation c _ => some (Conditional.Concatenation.render a.names c)
  match rendered with
  | none => (.omitted, a)
  | some (.ok text) => (.single text, a)
  | some (.error e) => (.omitted, a.report (.labelNotRendered e))

/-- The value of an operand of a call. -/
def operandData (a : Assembly) (c : Conditional.Concatenation) : MacroData × Assembly :=
  match Conditional.Concatenation.data a.names c with
  | .ok d => (d, a)
  | .error e => (.omitted, a.report (.operandNotRendered e))

/-- The argument that an operand of a call gives: a keyword argument if a name and an equals sign
come first. An operand of another form gives none. -/
def argument? (a : Assembly) (o : Operand) : Option (Argument × Range) × Assembly :=
  match o with
  | .empty range => (some (.positional .omitted, range), a)
  | .concatenation c range =>
      match Conditional.Concatenation.clean c with
      | .text key :: .equals :: value =>
          if key.toList.all Text.isNameChar then
            let (name, a) := a.learn (Text.upper key)
            let (d, a) := a.operandData value
            (some (.keyword name d, range), a)
          else
            let (d, a) := a.operandData (.text key :: .equals :: value)
            (some (.positional d, range), a)
      | c =>
          let (d, a) := a.operandData c
          (some (.positional d, range), a)
  | o => (none, a.report (.operandIgnored o.range))

/-- The arguments that the operands of a call give. -/
def arguments (a : Assembly) : List Operand → List (Argument × Range) × Assembly
  | [] => ([], a)
  | o :: rest =>
      let (first, a) := a.argument? o
      let (others, a) := a.arguments rest
      (first.toList ++ others, a)

/-- Process a macro call: bind its arguments, and hand the call on. -/
def processCall (a : Assembly) (s : Statement OperandField) :
    Except Fault (List Diagnostic × Assembly × List Notice) :=
  let (s, faults, a) := a.read s .macroOperands
  match s.opcode.name.bind fun id => (a.library.get? id).map (id, ·) with
  | none => .error (.undefinedMacro s.range)
  | some (id, d) =>
      let (label, a) := a.labelData s.label
      let (args, a) := a.arguments s.operands
      let (call, more) := d.call id label args a.names
      let a := a.reportAll ((d.surplus call).map .surplusArgument)
      let a := a.report (.macroCalled (a.names.nameOf id) s.range (call.syslist.length - 1))
      .ok (faults ++ more, a, [.macroCalled call])

/-- Process a statement whose operation code is unknown. -/
def processUndefined (a : Assembly) (operation : Operation) : List Diagnostic × Assembly :=
  match operation with
  | .ordinary id range => ([⟨.undefinedOperationCode, [a.names.nameOf id], range⟩], a)
  | .empty range => ([⟨.undefinedOperationCode, [""], range⟩], a)
  | .concatenation _ range => ([], a.report (.operationNotExpanded range))

end Assembly

namespace OpenCode

/-- Process a statement of open code. -/
def process (o : OpenCode) (a : Assembly) (s : Statement OperandField) :
    Except Fault (OpenCode × Assembly × List Notice) :=
  match s.opcode.kind with
  | .conditional =>
      let (a, notices) := a.processConditional s
      .ok (o, a, notices)
  | .machine => do
      let (faults, a) ← a.processMachine s
      return ({ o with machine := o.machine ++ faults }, a, [])
  | .assembler =>
      let (faults, a) := a.processDirective s
      .ok ({ o with directives := o.directives ++ faults }, a, [])
  | .definedMacro => do
      let (faults, a, notices) ← a.processCall s
      return ({ o with own := o.own ++ faults }, a, notices)
  | .undefined =>
      let (faults, a) := a.processUndefined s.operation
      .ok ({ o with own := o.own ++ faults }, a, [])

/-- Process a statement that the layout has released. Only machine statements are postponed. -/
def replay (o : OpenCode) (a : Assembly) (p : Postponed) : Except Fault (OpenCode × Assembly) :=
  match p.statement.opcode.kind with
  | .machine => do
      let (faults, a) ← a.replayMachine p
      return ({ o with machine := o.machine ++ faults }, a)
  | kind => .ok (o, a.report (.replayRefused p.statement.range kind))

/-- Process statements that the layout has released, in order. -/
def replayAll (o : OpenCode) (a : Assembly) : List Postponed → Except Fault (OpenCode × Assembly)
  | [] => .ok (o, a)
  | p :: rest => do
      let (o, a) ← o.replay a p
      o.replayAll a rest

/-- Open code ends when its own statements do. -/
def endsWith (p : Provider) : Bool := p == .openCode

/-- Fetch the diagnostics. -/
def collect (o : OpenCode) : List Diagnostic × OpenCode :=
  (o.own ++ o.machine ++ o.directives, {})

end OpenCode

end MacroAssembler
