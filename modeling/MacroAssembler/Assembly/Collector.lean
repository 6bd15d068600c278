import MacroAssembler.Assembly.OpenCode

/-!
# Collecting macro definitions

The statements from MACRO to the MEND that closes it. The first of them is the prototype, the
others are the body. Pairs of MACRO and MEND inside the body belong to it. A definition is handed
on exactly once, when the collector is ended, whether it was closed or not.
-/

namespace MacroAssembler

open Conditional (VariableSymbol Concatenation)

/-- The state of a definition that is being collected. -/
structure Collector where
  definition : MacroDefinition
  /-- The number of MACRO statements that are open. -/
  depth : Nat := 1
  /-- The place in the body of the statement that is added next. -/
  line : Nat := 0
  /-- The next statement is the prototype. -/
  expectsPrototype : Bool := true
  finished : Bool := false
  delivered : Bool := false
  diagnostics : List Diagnostic := []

namespace Collector

/-- The name of a macro whose prototype has no operation field. -/
def missingName : String := "ASPACE"

/-- Start to collect the definition that a MACRO statement opens. -/
def start (a : Assembly) (location : Location) : Collector × Assembly :=
  ({ definition := { location } }, a.report (.definitionStarted location.position))

/-- Note diagnostics. -/
def complain (c : Collector) (ds : List Diagnostic) : Collector :=
  { c with diagnostics := c.diagnostics ++ ds }

/-- Fetch the diagnostics. -/
def collect (c : Collector) : List Diagnostic × Collector :=
  (c.diagnostics, { c with diagnostics := [] })

/-! ## The prototype -/

/-- The operation code of the prototype, which names the macro. -/
def prototypeReading (c : Collector) (a : Assembly) (operation : Operation) :
    Reading × Collector × Assembly :=
  let reading (id : NameId) : Reading :=
    { reader := .definition, form := .macroOperands, opcode := ⟨some id, .definedMacro⟩ }
  match operation with
  | .ordinary id _ => (reading id, c, a)
  | .empty range =>
      let (id, a) := a.learn missingName
      (reading id, c.complain [{ code := .missingMacroName, range }], a)
  | .concatenation chain _ =>
      match Concatenation.render a.names chain with
      | .ok text =>
          let (id, a) := a.learn text
          (reading id, c, a)
      | .error e =>
          let (id, a) := (a.report (.operationNotRendered e)).learn missingName
          (reading id, c, a)

/-- The name that a variable symbol declares, given the names declared before; a name can be
declared once, and only by a reference that is written and has no subscript. -/
def declare (v : VariableSymbol) (range : Range) (declared : List NameId) :
    Except Diagnostic NameId :=
  match v.plainName? with
  | none => .error { code := .invalidPrototypeVariable, range := v.range }
  | some name =>
      if name ∈ declared then .error ⟨.duplicateSymbolicParameter, ["Symbolic parameter"], range⟩
      else .ok name

/-- The default of a keyword parameter. -/
def defaultData (a : Assembly) (c : Concatenation) : MacroData × Assembly :=
  match Concatenation.data a.names c with
  | .ok d => (d, a)
  | .error e => (.omitted, a.report (.defaultNotRendered e))

/-- The parameter that an operand of the prototype declares, given the names declared before. An
operand that declares none still takes its place. -/
def readParameter (a : Assembly) (declared : List NameId) (o : Operand) :
    Parameter × List Diagnostic × Assembly :=
  match o with
  | .empty _ => (.placeholder, [], a)
  | .concatenation c range =>
      match Concatenation.clean c with
      | [] => (.placeholder, [], a)
      | [.reference v] =>
          match declare v range declared with
          | .ok name => (.positional name, [], a)
          | .error d => (.placeholder, [d], a)
      | .reference v :: .equals :: value =>
          match declare v range declared with
          | .ok name =>
              let (d, a) := defaultData a value
              (.keyword name d, [], a)
          | .error d => (.placeholder, [d], a)
      | _ => (.placeholder, [{ code := .invalidPrototypeOperand, range }], a)
  | o => (.placeholder, [{ code := .invalidPrototypeOperand, range := o.range }], a)

/-- The parameters that the operands of the prototype declare, one for each. -/
def readParameters (a : Assembly) (declared : List NameId) :
    List Operand → List Parameter × List Diagnostic × Assembly
  | [] => ([], [], a)
  | o :: rest =>
      let (param, faults, a) := readParameter a declared o
      let (params, more, a) := readParameters a (declared ++ param.name?.toList) rest
      (param :: params, faults ++ more, a)

/-- The parameter that takes the name field of calls. -/
def labelParameter (label : Label) : Option NameId × List Diagnostic :=
  match label with
  | .empty => (none, [])
  | .reference v =>
      match v.plainName? with
      | some name => (some name, [])
      | none => (none, [{ code := .invalidPrototypeVariable, range := v.range }])
  | label => (none, [{ code := .illegalPrototypeLabel, range := label.range?.getD {} }])

/-- Read the prototype. -/
def readPrototype (c : Collector) (a : Assembly) (s : Statement OperandField) :
    Collector × Assembly :=
  let (s, faults, a) := a.read s .macroOperands
  let (label, labelFaults) := labelParameter s.label
  let (params, paramFaults, a) := readParameters a label.toList s.operands
  let name := (s.opcode.name.map a.names.nameOf).getD ""
  ({ c with
      expectsPrototype := false
      definition := { c.definition with prototype := ⟨s.opcode.name, label, params⟩ }
      diagnostics := c.diagnostics ++ faults ++ labelFaults ++ paramFaults },
    a.report (.prototypeRead name params.length))

/-! ## The body -/

/-- How the operation of a statement of the body is read. Conditional assembly is recognised, all
else stays text. -/
def bodyReading (a : Assembly) (operation : Operation) : Reading :=
  match operation with
  | .ordinary id _ =>
      match Instruction.conditional? (a.names.nameOf id) with
      | some i =>
          { reader := .definition
            form := .conditional
            hasOperands := !i.operandless
            opcode := ⟨some id, .conditional⟩ }
      | none => { reader := .definition, form := .deferred }
  | _ => { reader := .definition, form := .deferred }

/-- How the operation of the next statement is read. -/
def reading (c : Collector) (a : Assembly) (operation : Operation) :
    Reading × Collector × Assembly :=
  if c.expectsPrototype then c.prototypeReading a operation
  else (bodyReading a operation, c, a)

/-- Mark the next statement of the body with a sequence symbol. The first mark of a name counts,
and a later one is a fault. -/
def mark (c : Collector) (a : Assembly) (label : Label) : Collector :=
  match label with
  | .sequence name range =>
      if c.definition.marks.binds name then
        c.complain [⟨.duplicateSequenceSymbol, [a.names.nameOf name], range⟩]
      else
        let here : SequenceMark := ⟨a.location, c.line⟩
        { c with definition := { c.definition with marks := c.definition.marks.set name here } }
  | _ => c

/-- Add a statement to the body, and count it. -/
def append (c : Collector) (s : Statement OperandField) : Collector :=
  { c with
    definition := { c.definition with body := c.definition.body ++ [s] }
    line := c.line + 1 }

/-- The name in the operation field, in capital letters. -/
def operationName (a : Assembly) : Operation → Option String
  | .ordinary id _ => some (Text.upper (a.names.nameOf id))
  | _ => none

/-- Read a statement of the body. MACRO opens a definition inside this one, and MEND closes the
innermost. -/
def readBody (c : Collector) (a : Assembly) (s : Statement OperandField) : Collector × Assembly :=
  let c := c.mark a s.label
  match operationName a s.operation with
  | some "MACRO" =>
      let c := { c with depth := c.depth + 1 }
      (c.append s, a.report (.definitionNested c.depth))
  | some "MEND" =>
      let c := { c with depth := c.depth - 1 }
      if c.depth = 0 then ({ c with finished := true }, a.report (.definitionClosed s.range))
      else (c.append s, a)
  | _ => (c.append s, a)

/-- Process a statement of the definition. -/
def process (c : Collector) (a : Assembly) (s : Statement OperandField) :
    Except Fault (Collector × Assembly) :=
  if c.finished then .error (.finishedDefinition s.range)
  else if c.expectsPrototype then .ok (c.readPrototype a s)
  else .ok (c.readBody a s)

/-! ## The end -/

/-- A definition goes on behind a copied member, and ends with any other source of statements. -/
def endsWith : Provider → Bool
  | .copy => false
  | _ => true

/-- End the collector and hand the definition on, unless that has been done. A definition that is
not closed is a fault at the current place. -/
def finish (c : Collector) (a : Assembly) : Collector × List Notice :=
  if c.delivered then (c, [])
  else
    let name := (c.definition.prototype.name.map a.names.nameOf).getD ""
    let faults : List Diagnostic :=
      if c.finished then []
      else [⟨.unterminatedMacro, [name], .point a.location.position⟩]
    ({ c.complain faults with definition := {}, finished := true, delivered := true },
      [.definitionFinished c.definition])

end Collector

end MacroAssembler
