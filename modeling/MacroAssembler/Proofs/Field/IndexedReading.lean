import MacroAssembler.Field.Reading
import MacroAssembler.Proofs.Field.IndexedConcatenation

/-!
# Reading statements by number

The readers of fields on top of the readers that go by number. They look at nothing outside of the
text of a field, and give what the readers of the assembler give: for a statement that comes from a
source (`toStatementAt_eq`), and for its operands when their form is known (`readAt_eq`).
-/

namespace MacroAssembler

open Conditional (Concatenation)

namespace Field

/-- The concatenation that a piece spells. -/
def readConcatenationAt (names : NameTable) (p : Piece) : Option (Concatenation × NameTable) :=
  fragmentsAt p.start p.text names (2 * p.text.length + 1) p.text.length 0

/-- The name field that a piece spells. -/
def readLabelAt (names : NameTable) (text : String) (range : Range) : Option (Label × NameTable) :=
  match text.toList with
  | [] => return (.empty, names)
  | '.' :: rest =>
      let (name, names) := names.insert (Text.upper (String.ofList rest))
      return (.sequence name range, names)
  | cs =>
      if cs.contains '&' then do
        match ← readConcatenationAt names ⟨range.start, cs⟩ with
        | ([.reference v], names) => return (.reference v, names)
        | (c, names) => return (.concatenation c range, names)
      else
        let (name, names) := names.insert (Text.upper text)
        return (.ordinary name range, names)

/-- The operation field that a piece spells. -/
def readOperationAt (names : NameTable) (text : String) (range : Range) :
    Option (Operation × NameTable) :=
  if text.isEmpty then return (.empty range, names)
  else if text.toList.contains '&' then do
    let (c, names) ← readConcatenationAt names ⟨range.start, text.toList⟩
    return (.concatenation c range, names)
  else
    let (name, names) := names.insert (Text.upper text)
    return (.ordinary name range, names)

/-- One operand, or the diagnostic of a piece that is none. -/
def readOperandAt (form : OperandForm) (names : NameTable) (p : Piece) :
    Option (Except Diagnostic Operand × NameTable) :=
  if p.text = [] then return (.ok (.empty p.range), names)
  else match form with
    | .machine => do
        match ← internMachineOperandAt names p with
        | (.ok m, names) => return (.ok (.machine m p.range), names)
        | (.error d, names) => return (.error d, names)
    | .assembler => do
        match ← internExprAt names p with
        | (.ok e, names) => return (.ok (.expr e p.range), names)
        | (.error d, names) => return (.error d, names)
    | .macroOperands => do
        let (c, names) ← readConcatenationAt names p
        return (.ok (.concatenation c p.range), names)
    | _ => return (.ok (.empty p.range), names)

/-- The operands that pieces of a field spell, given their texts and their numbers in it. -/
def readOperandsAt (form : OperandForm) (names : NameTable) (start : Position) :
    List (Nat × List Char) → Option (List Operand × List Diagnostic × NameTable)
  | [] => return ([], [], names)
  | (n, text) :: rest => do
      let p : Piece := ⟨start.right n, text⟩
      let (operand, names) ← readOperandAt form names p
      let (operands, diagnostics, names) ← readOperandsAt form names start rest
      match operand with
      | .ok operand => return (operand :: operands, diagnostics, names)
      | .error d => return (.empty p.range :: operands, d :: diagnostics, names)

/-- The operands of a field. -/
def readFieldAt (form : OperandForm) (names : NameTable) (text : String) (start : Position) :
    Option (List Operand × List Diagnostic × NameTable) := do
  readOperandsAt form names start (← split text.toList)

/-! ## Agreement -/

theorem readConcatenationAt_eq (names : NameTable) (p : Piece) :
    readConcatenationAt names p = some (readConcatenation names p) := by
  have hstands : Stands p.text 0 p.text.length p.text :=
    ⟨⟨[], [], by simp, rfl, nofun⟩, (Nat.zero_add _).symm⟩
  exact fragmentsAt_eq p.start names hstands (Nat.lt_succ_self _)

theorem readLabelAt_eq (names : NameTable) (text : String) (range : Range) :
    readLabelAt names text range = some (readLabel names text range) := by
  have hwritten (cs : List Char) : (do
      match ← readConcatenationAt names ⟨range.start, cs⟩ with
      | ([.reference v], names) => return (Label.reference v, names)
      | (c, names) => return (Label.concatenation c range, names)) =
        some (match readConcatenation names ⟨range.start, cs⟩ with
          | ([.reference v], names) => (Label.reference v, names)
          | (c, names) => (Label.concatenation c range, names)) := by
    rw [readConcatenationAt_eq, Option.bind_eq_bind, Option.bind_some]
    split <;> rfl
  unfold readLabelAt readLabel
  generalize text.toList = cs
  split
  · rfl
  · rfl
  · simp only [hwritten]
    split <;> rfl

theorem readOperationAt_eq (names : NameTable) (text : String) (range : Range) :
    readOperationAt names text range = some (readOperation names text range) := by
  unfold readOperationAt readOperation
  split
  · rfl
  · split
    · rw [readConcatenationAt_eq]
      rfl
    · rfl

theorem readOperandAt_eq (form : OperandForm) (names : NameTable) (p : Piece) :
    readOperandAt form names p = some (readOperand form names p) := by
  unfold readOperandAt readOperand
  split
  · rfl
  · cases form with
    | machine =>
        dsimp only
        rw [internMachineOperandAt_eq, Option.bind_eq_bind, Option.bind_some]
        generalize internMachineOperand names p = read
        obtain ⟨d | m, names⟩ := read <;> rfl
    | assembler =>
        dsimp only
        rw [internExprAt_eq, Option.bind_eq_bind, Option.bind_some]
        generalize internExpr names p = read
        obtain ⟨d | e, names⟩ := read <;> rfl
    | macroOperands =>
        dsimp only
        rw [readConcatenationAt_eq]
        rfl
    | _ => rfl

theorem readOperandsAt_eq (form : OperandForm) (names : NameTable) (start : Position)
    (ps : List (Nat × List Char)) :
    readOperandsAt form names start ps =
      some (readOperands form names (ps.map fun p => ⟨start.right p.1, p.2⟩)) := by
  induction ps generalizing names with
  | nil => rfl
  | cons p rest ih =>
      obtain ⟨n, text⟩ := p
      rw [readOperandsAt, List.map_cons, readOperands]
      simp only [readOperandAt_eq, ih, Option.bind_eq_bind, Option.bind_some]
      generalize readOperand form names ⟨start.right n, text⟩ = read
      obtain ⟨d | operand, names⟩ := read <;> rfl

/-- A field is read by number. -/
theorem readFieldAt_eq (form : OperandForm) (names : NameTable) (text : String) (start : Position) :
    readFieldAt form names text start = some (readField form names text start) := by
  rw [readFieldAt, split_eq, Option.bind_eq_bind, Option.bind_some, readOperandsAt_eq, ← pieces_eq,
    readField]

end Field

/-- The statement that fields make up on a line, read by number. -/
def SourceStatement.toStatementAt (s : SourceStatement) (line : Nat) (names : NameTable) :
    Option (Statement OperandField × NameTable) := do
  let line := s.line.getD line
  let labelStop := Text.byteLength s.label.toList
  let operationStart := labelStop + 1
  let operationStop := operationStart + Text.byteLength s.operation.toList
  let operandStart := operationStop + 1
  let operandStop := operandStart + Text.byteLength s.operands.toList
  let (label, names) ← Field.readLabelAt names s.label (.onLine line 0 labelStop)
  let (operation, names) ←
    Field.readOperationAt names s.operation (.onLine line operationStart operationStop)
  return ({ label, operation, opcode := {}
            operands := .text s.operands (.onLine line operandStart operandStop)
            range := .onLine line 0 operandStop }, names)

/-- The statement with its operand field read by number in a form. -/
def Statement.readAt (s : Statement OperandField) (form : OperandForm) (names : NameTable) :
    Option (Statement (List Operand) × List Diagnostic × NameTable) :=
  match s.operands with
  | .operands list => return ({ s with operands := list }, [], names)
  | .text field range => do
      let (list, diagnostics, names) ← Field.readFieldAt form names field range.start
      return ({ s with operands := list }, diagnostics, names)

/-- A statement of a source is read by number. -/
theorem SourceStatement.toStatementAt_eq (s : SourceStatement) (line : Nat) (names : NameTable) :
    s.toStatementAt line names = some (s.toStatement line names) := by
  unfold toStatementAt
  simp only [Field.readLabelAt_eq, Field.readOperationAt_eq, Option.bind_eq_bind, Option.bind_some]
  rfl

/-- The operands of a statement are read by number. -/
theorem Statement.readAt_eq (s : Statement OperandField) (form : OperandForm) (names : NameTable) :
    s.readAt form names = some (s.read form names) := by
  unfold readAt read
  cases s.operands with
  | operands list => rfl
  | text field range =>
      dsimp only
      rw [Field.readFieldAt_eq]
      rfl

end MacroAssembler
