import MacroAssembler.Field.Concatenation

/-!
# Reading statements

A source statement is given by its three fields as text. Its name field and its operation field
are read at once; its operand field is kept as text, and read when the form of its operands is
known. Fields lie side by side in the columns of a line, with one column between them.
-/

namespace MacroAssembler

open Conditional (Concatenation)

/-- A statement as it comes from a source: three fields, and the line if it is stated. -/
structure SourceStatement where
  label : String := ""
  operation : String := ""
  operands : String := ""
  line : Option Nat := none
  deriving DecidableEq, Inhabited

namespace Field

/-- The name field that a piece spells: a sequence symbol after a dot, a concatenation if there
is an ampersand in it, or an ordinary symbol. -/
def readLabel (names : NameTable) (text : String) (range : Range) : Label × NameTable :=
  match text.toList with
  | [] => (.empty, names)
  | '.' :: rest =>
      let (name, names) := names.insert (Text.upper (String.ofList rest))
      (.sequence name range, names)
  | cs =>
      if cs.contains '&' then
        match readConcatenation names ⟨range.start, cs⟩ with
        | ([.reference v], names) => (.reference v, names)
        | (c, names) => (.concatenation c range, names)
      else
        let (name, names) := names.insert (Text.upper text)
        (.ordinary name range, names)

/-- The operation field that a piece spells. -/
def readOperation (names : NameTable) (text : String) (range : Range) : Operation × NameTable :=
  if text.isEmpty then (.empty range, names)
  else if text.toList.contains '&' then
    let (c, names) := readConcatenation names ⟨range.start, text.toList⟩
    (.concatenation c range, names)
  else
    let (name, names) := names.insert (Text.upper text)
    (.ordinary name range, names)

/-- One operand, or the diagnostic of a piece that is none. -/
def readOperand (form : OperandForm) (names : NameTable) (p : Piece) :
    Except Diagnostic Operand × NameTable :=
  if p.text = [] then (.ok (.empty p.range), names)
  else match form with
    | .machine =>
        match internMachineOperand names p with
        | (.ok m, names) => (.ok (.machine m p.range), names)
        | (.error d, names) => (.error d, names)
    | .assembler =>
        match internExpr names p with
        | (.ok e, names) => (.ok (.expr e p.range), names)
        | (.error d, names) => (.error d, names)
    | .macroOperands =>
        let (c, names) := readConcatenation names p
        (.ok (.concatenation c p.range), names)
    | _ => (.ok (.empty p.range), names)

/-- The operands that pieces spell, one for each, and the diagnostics of those that are none; such
an operand is left empty. -/
def readOperands (form : OperandForm) (names : NameTable) :
    List Piece → List Operand × List Diagnostic × NameTable
  | [] => ([], [], names)
  | p :: rest =>
      let (operand, names) := readOperand form names p
      let (operands, diagnostics, names) := readOperands form names rest
      match operand with
      | .ok operand => (operand :: operands, diagnostics, names)
      | .error d => (.empty p.range :: operands, d :: diagnostics, names)

/-- The operands of a field. -/
def readField (form : OperandForm) (names : NameTable) (text : String) (start : Position) :
    List Operand × List Diagnostic × NameTable :=
  readOperands form names (pieces ⟨start, text.toList⟩)

end Field

/-- The statement with its operand field read in a form; operands that are read already stay as
they are. -/
def Statement.read (s : Statement OperandField) (form : OperandForm) (names : NameTable) :
    Statement (List Operand) × List Diagnostic × NameTable :=
  match s.operands with
  | .operands list => ({ s with operands := list }, [], names)
  | .text field range =>
      let (list, diagnostics, names) := Field.readField form names field range.start
      ({ s with operands := list }, diagnostics, names)

/-- The statement that fields make up on a line. The line stated in the fields comes first. Each
field takes as many columns as its text has bytes. -/
def SourceStatement.toStatement (s : SourceStatement) (line : Nat) (names : NameTable) :
    Statement OperandField × NameTable :=
  let line := s.line.getD line
  let labelStop := Text.byteLength s.label.toList
  let operationStart := labelStop + 1
  let operationStop := operationStart + Text.byteLength s.operation.toList
  let operandStart := operationStop + 1
  let operandStop := operandStart + Text.byteLength s.operands.toList
  let (label, names) := Field.readLabel names s.label (.onLine line 0 labelStop)
  let (operation, names) :=
    Field.readOperation names s.operation (.onLine line operationStart operationStop)
  ({ label, operation, opcode := {}
     operands := .text s.operands (.onLine line operandStart operandStop)
     range := .onLine line 0 operandStop }, names)

end MacroAssembler
