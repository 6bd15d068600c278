import MacroAssembler.Assembly.Directives
import MacroAssembler.Proofs.Field.Growth
import MacroAssembler.Proofs.Field.Places
import MacroAssembler.Proofs.Field.Slices

/-!
# What the fields of a source statement say

The operation code, the ordinary symbol in the name field and the expression of the first operand,
as they can be read off the source text alone. A statement that is made of the text carries the
numbers of these names (`SourceStatement.label_toStatement`, `SourceStatement.operandExpr_read`).
-/

namespace MacroAssembler

namespace SourceStatement

/-- The operation code in capital letters, if there is one and it needs no substitution. -/
def code? (s : SourceStatement) : Option String :=
  if s.operation.isEmpty ∨ s.operation.toList.contains '&' then none
  else some (Text.upper s.operation)

/-- The ordinary symbol in the name field, in capital letters. -/
def symbol? (s : SourceStatement) : Option String :=
  match s.label.toList with
  | [] => none
  | '.' :: _ => none
  | cs => if cs.contains '&' then none else some (Text.upper s.label)

/-- The texts of the operands. -/
def operandTexts (s : SourceStatement) : List (List Char) :=
  (Field.pieces ⟨{}, s.operands.toList⟩).map (·.text)

/-- The expression of the first operand. -/
def operand? (s : SourceStatement) : Option (OrdinaryExpr String) :=
  match s.operandTexts with
  | [] => none
  | text :: _ => if text = [] then none else (Field.readExpr ⟨{}, text⟩).toOption

/-- What a statement does to the layout. -/
inductive Action where
  /-- A machine instruction of so many bytes. -/
  | machine (bytes : Nat)
  | equate
  | reserve
  | other
  deriving DecidableEq

/-- What an operation code does to the layout. -/
def actionOf (code : String) : Action :=
  match Instruction.kind? code with
  | some .machine | some .mnemonic =>
      match Instruction.encoded? code with
      | some (i, _) => .machine i.bytes
      | none => .other
  | some .assembler =>
      match Instruction.assembler? code with
      | some ⟨_, .equate⟩ => .equate
      | some ⟨_, .reserve⟩ => .reserve
      | _ => .other
  | _ => .other

/-- What the statement does to the layout. -/
def action (s : SourceStatement) : Action := (s.code?.map actionOf).getD .other

/-- What the tables say of EQU. -/
theorem lookup_equ : Instruction.kind? "EQU" = some .assembler ∧
    Instruction.assembler? "EQU" = some ⟨"EQU", .equate⟩ := by decide +kernel

/-- What the tables say of DS. -/
theorem lookup_ds : Instruction.kind? "DS" = some .assembler ∧
    Instruction.assembler? "DS" = some ⟨"DS", .reserve⟩ := by decide +kernel

/-- What the tables say of LR. -/
theorem lookup_lr : Instruction.kind? "LR" = some .machine ∧
    Instruction.encoded? "LR" = some (⟨"LR", .RR, 16, [.register, .register]⟩,
      [.register, .register]) := by decide +kernel

variable {s : SourceStatement}

/-- A statement that does something to the layout has a code. -/
theorem code_of_action (h : s.action ≠ .other) :
    ∃ code, s.code? = some code ∧ s.action = actionOf code := by
  unfold action at h ⊢
  cases hcode : s.code? with
  | none => simp [hcode] at h
  | some code => exact ⟨code, rfl, rfl⟩

/-- The code of a statement that acts as a machine instruction. -/
theorem code_of_machine {bytes : Nat} (h : s.action = .machine bytes) :
    ∃ code i formats, s.code? = some code ∧
      (Instruction.kind? code = some .machine ∨ Instruction.kind? code = some .mnemonic) ∧
      Instruction.encoded? code = some (i, formats) ∧ i.bytes = bytes := by
  obtain ⟨code, hcode, haction⟩ := code_of_action (s := s) (by simp [h])
  rw [h] at haction
  unfold actionOf at haction
  rcases hkind : Instruction.kind? code with _ | ⟨_ | _ | _ | _⟩ <;> simp only [hkind] at haction
  case machine | mnemonic =>
    rcases hfound : Instruction.encoded? code with _ | ⟨i, formats⟩ <;>
      simp [hfound] at haction
    exact ⟨code, i, formats, hcode, by simp [hkind], hfound, haction.symm⟩
  case assembler => split at haction <;> simp at haction
  all_goals simp at haction

/-- The code of a statement that acts as an EQU or a DS. -/
theorem code_of_directive (h : s.action = .equate ∨ s.action = .reserve) :
    ∃ code i, s.code? = some code ∧ Instruction.kind? code = some .assembler ∧
      Instruction.assembler? code = some i ∧ (s.action = .equate → i.action = .equate) ∧
      (s.action = .reserve → i.action = .reserve) := by
  obtain ⟨code, hcode, haction⟩ := code_of_action (s := s) (by rcases h with h | h <;> simp [h])
  rw [haction] at h ⊢
  unfold actionOf at h ⊢
  rcases hkind : Instruction.kind? code with _ | ⟨_ | _ | _ | _⟩ <;> simp only [hkind] at h ⊢
  case assembler =>
    rcases hfound : Instruction.assembler? code with _ | ⟨name, _ | _ | _ | _⟩ <;>
      simp [hfound] at h
    all_goals exact ⟨code, _, hcode, hkind, hfound, by simp, by simp⟩
  case machine | mnemonic => split at h <;> simp at h
  all_goals simp at h

end SourceStatement

namespace Field

variable {s : SourceStatement} {t : NameTable} {range : Range}

/-- A text without a dot in front and without an ampersand is read as an ordinary symbol. -/
theorem readLabel_of_plain {text : String} (hnil : text.toList = [] → False)
    (hdot : ∀ rest, text.toList = '.' :: rest → False)
    (hplain : ¬ text.toList.contains '&' = true) :
    readLabel t text range = (.ordinary (t.insert (Text.upper text)).1 range,
      (t.insert (Text.upper text)).2) := by
  unfold readLabel
  cases hcs : text.toList with
  | nil => exact absurd hcs hnil
  | cons c cs =>
      rw [hcs] at hplain
      split
      · exact absurd ‹_› (by simp)
      · exact absurd (hcs.trans ‹_›) (hdot _)
      · rw [if_neg hplain]

/-- A name field that is an ordinary symbol is read as one. -/
theorem readLabel_of_symbol {name : String} (h : s.symbol? = some name) :
    ∃ id, (readLabel t s.label range).1 = .ordinary id range ∧
      (readLabel t s.label range).2.find? name = some id := by
  unfold SourceStatement.symbol? at h
  split at h
  · simp at h
  · simp at h
  · rename_i hnil hdot
    split at h
    · simp at h
    · rename_i hplain
      cases h
      rw [readLabel_of_plain hnil hdot hplain]
      exact ⟨_, rfl, t.find?_insert _⟩

/-- A name field is read as an ordinary symbol only if it is one. -/
theorem readLabel_of_no_symbol (h : s.symbol? = none) (id : NameId) (range' : Range) :
    (readLabel t s.label range).1 ≠ .ordinary id range' := by
  unfold SourceStatement.symbol? at h
  unfold readLabel
  split
  · simp
  · simp
  · rename_i hnil hdot
    split
    · split <;> simp
    · rename_i hplain
      split at h
      · exact absurd ‹_› hnil
      · exact absurd ‹_› (hdot _)
      · exact absurd (by simpa using h) hplain

/-- An operation field that is a name is read as one. -/
theorem readOperation_of_code {code : String} (h : s.code? = some code) :
    ∃ id, (readOperation t s.operation range).1 = .ordinary id range ∧
      (readOperation t s.operation range).2.find? code = some id := by
  unfold SourceStatement.code? at h
  unfold readOperation
  split at h
  · simp at h
  · rename_i hplain
    rw [not_or] at hplain
    cases h
    rw [if_neg hplain.1, if_neg hplain.2]
    exact ⟨_, rfl, t.find?_insert _⟩

/-- An operation field is read as a name only if it is one. -/
theorem readOperation_of_no_code (h : s.code? = none) (id : NameId) (range' : Range) :
    (readOperation t s.operation range).1 ≠ .ordinary id range' := by
  unfold SourceStatement.code? at h
  unfold readOperation
  split
  · simp
  · split
    · simp
    · simp_all

end Field

namespace SourceStatement

variable {s : SourceStatement} (line : Nat) (t : NameTable)

/-- The name field of a statement is the ordinary symbol of its text. -/
theorem label_toStatement {name : String} (h : s.symbol? = some name) :
    ∃ id range, (s.toStatement line t).1.label = .ordinary id range ∧
      (s.toStatement line t).2.find? name = some id := by
  obtain ⟨id, hid, hfind⟩ := Field.readLabel_of_symbol h
  exact ⟨id, _, hid, (Field.readOperation_grows _ _ _).find? hfind⟩

/-- Without a symbol in its text a statement has no ordinary label. -/
theorem label_toStatement_of_none (h : s.symbol? = none) (id : NameId) (range : Range) :
    (s.toStatement line t).1.label ≠ .ordinary id range :=
  Field.readLabel_of_no_symbol h id range

/-- The operation of a statement is the code of its text. -/
theorem operation_toStatement {code : String} (h : s.code? = some code) :
    ∃ id range, (s.toStatement line t).1.operation = .ordinary id range ∧
      (s.toStatement line t).2.find? code = some id := by
  obtain ⟨id, hid, hfind⟩ := Field.readOperation_of_code h
  exact ⟨id, _, hid, hfind⟩

/-- Without a code in its text a statement has no operation. -/
theorem operation_toStatement_of_none (h : s.code? = none) (id : NameId) (range : Range) :
    (s.toStatement line t).1.operation ≠ .ordinary id range :=
  Field.readOperation_of_no_code h id range

end SourceStatement

/-! ## The first operand -/

namespace Field

/-- The texts of the pieces of a field do not depend on where it starts. -/
theorem texts_pieces (start start' : Position) (cs : List Char) :
    (pieces ⟨start, cs⟩).map (·.text) = (pieces ⟨start', cs⟩).map (·.text) := by
  unfold pieces
  dsimp only
  split
  · rfl
  · rw [texts_locate, texts_locate]

/-- The expression that the source text gives for the first operand is read, with numbers for its
names. -/
theorem readField_of_operand {s : SourceStatement} {e : OrdinaryExpr String}
    (h : s.operand? = some e) (t : NameTable) (start : Position) :
    ∃ e', (readField .assembler t s.operands start).1[0]?.bind Operand.expr? = some e' ∧
      e.Numbered (readField .assembler t s.operands start).2.2 e' := by
  unfold SourceStatement.operand? SourceStatement.operandTexts at h
  rw [texts_pieces {} start] at h
  unfold readField
  cases hps : pieces ⟨start, s.operands.toList⟩ with
  | nil => simp [hps] at h
  | cons p ps =>
      simp only [hps, List.map_cons] at h
      split at h
      · simp at h
      · rename_i hne
        have hsame := readExpr_withoutPlaces (p := p) (q := ⟨{}, p.text⟩) rfl
        cases horigin : readExpr ⟨{}, p.text⟩ with
        | error names => simp [horigin, Except.toOption] at h
        | ok e₀ =>
            obtain rfl : e₀ = e := by simpa [horigin, Except.toOption] using h
            rw [horigin] at hsame
            cases hread : readExpr p with
            | error => simp [hread, Except.map] at hsame
            | ok e' =>
                simp only [hread, Except.map, Except.ok.injEq] at hsame
                have hoperand : readOperand .assembler t p =
                    (.ok (.expr (e'.intern t).1 p.range), (e'.intern t).2) := by
                  simp [readOperand, hne, internExpr, hread]
                refine ⟨(e'.intern t).1, by simp [readOperands, hoperand, Operand.expr?], ?_⟩
                simp only [readOperands, hoperand]
                exact (OrdinaryExpr.numbered_intern hsame t).grows
                  (readOperands_spec .assembler _ ps).1

/-- If the source text gives no expression for the first operand, none is read. -/
theorem readField_of_no_operand {s : SourceStatement} (h : s.operand? = none) (t : NameTable)
    (start : Position) :
    (readField .assembler t s.operands start).1[0]?.bind Operand.expr? = none := by
  unfold SourceStatement.operand? SourceStatement.operandTexts at h
  rw [texts_pieces {} start] at h
  unfold readField
  cases hps : pieces ⟨start, s.operands.toList⟩ with
  | nil => simp [readOperands]
  | cons p ps =>
      simp only [hps, List.map_cons] at h
      by_cases hempty : p.text = []
      · simp [readOperands, readOperand, hempty, Operand.expr?]
      · rw [if_neg hempty] at h
        have hsame := readExpr_withoutPlaces (p := p) (q := ⟨{}, p.text⟩) rfl
        cases horigin : readExpr ⟨{}, p.text⟩ with
        | ok e => simp [horigin, Except.toOption] at h
        | error names =>
            rw [horigin] at hsame
            cases hread : readExpr p with
            | ok => simp [hread, Except.map] at hsame
            | error names' =>
                simp [readOperands, readOperand, hempty, internExpr, hread, Operand.expr?]

end Field

end MacroAssembler
