import MacroAssembler.Proofs.Field.Apart

/-!
# Operands and the columns of a line

The fields of a statement are laid out by the bytes that they take, and the pieces of its operand
field by their characters. So an operand stands as many columns behind its place on the line as the
fields in front of it have bytes more than characters (`ranges_read_toStatement`), and at its place
exactly if there are no such bytes (`operands_in_columns_iff`).
-/

namespace MacroAssembler

namespace SourceStatement

open MacroAssembler.Field (numberedPieces slice?)

variable (s : SourceStatement) (line : Nat) (t names : NameTable) (form : OperandForm)

/-- The line that the fields make up, with a blank between them. -/
def sourceLine : List Char :=
  s.label.toList ++ ' ' :: (s.operation.toList ++ ' ' :: s.operands.toList)

/-- The number of characters in front of the operand field. -/
def operandColumn : Nat := s.label.toList.length + 1 + s.operation.toList.length + 1

/-- The columns of the line that the pieces of the operand field take, `shift` columns to the
right. -/
def operandRanges (shift : Nat) : List Range :=
  (numberedPieces s.operands.toList).map fun q =>
    .onLine line (s.operandColumn + shift + q.1) (s.operandColumn + shift + q.1 + q.2.length)

/-- The bytes that the fields in front of the operands take beyond one for each character. -/
def excess : Nat :=
  (Text.byteLength s.label.toList - s.label.toList.length) +
    (Text.byteLength s.operation.toList - s.operation.toList.length)

/-- The pieces of the operand field stand in the line where their columns say. -/
theorem slice_sourceLine {q : Nat × List Char} (h : q ∈ numberedPieces s.operands.toList) :
    slice? s.sourceLine (s.operandColumn + q.1) (s.operandColumn + q.1 + q.2.length) =
    some q.2 := by
  obtain ⟨before, behind, hfield, hbefore, -⟩ := Field.exists_of_mem_numberedPieces h
  have hline : s.sourceLine = (s.label.toList ++ ' ' :: (s.operation.toList ++ ' ' :: before)) ++
      (q.2 ++ behind) := by
    simp [sourceLine, hfield]
  have hcolumn : s.operandColumn + q.1 =
      (s.label.toList ++ ' ' :: (s.operation.toList ++ ' ' :: before)).length := by
    simp only [operandColumn, ← hbefore, List.length_append, List.length_cons]
    omega
  rw [hline]
  exact Field.slice?_append _ q.2 behind hcolumn (by rw [hcolumn])

theorem excess_eq_zero_iff :
    s.excess = 0 ↔ ∀ c ∈ s.label.toList ++ s.operation.toList, c.utf8Size = 1 := by
  have hlabel := Text.length_le_byteLength s.label.toList
  have hoperation := Text.length_le_byteLength s.operation.toList
  rw [List.forall_mem_append, ← Text.byteLength_eq_length_iff,
    ← Text.byteLength_eq_length_iff, excess]
  omega

/-- The operands stand behind their columns by the excess. -/
theorem ranges_read_toStatement :
    ((s.toStatement line t).1.read form names).1.operands.map Operand.range =
      s.operandRanges (s.line.getD line) s.excess := by
  have hstart : Text.byteLength s.label.toList + 1 + Text.byteLength s.operation.toList + 1 =
      s.operandColumn + s.excess := by
    have hlabel := Text.length_le_byteLength s.label.toList
    have hoperation := Text.length_le_byteLength s.operation.toList
    unfold operandColumn excess
    omega
  change (Field.readField form names s.operands
    ⟨s.line.getD line, Text.byteLength s.label.toList + 1 + Text.byteLength s.operation.toList + 1⟩
    ).1.map Operand.range = _
  rw [hstart, (Field.readApart_readField form names s.operands _).ranges_eq, Field.pieces_eq,
    List.map_map]
  rfl

/-- Ranges that are shifted are other ranges, if there are any. -/
theorem operandRanges_eq_iff {shift : Nat} :
    s.operandRanges line shift = s.operandRanges line 0 ↔ s.operands = "" ∨ shift = 0 := by
  have hempty : numberedPieces s.operands.toList = [] ↔ s.operands = "" := by
    rw [← String.toList_eq_nil_iff, numberedPieces]
    split
    · simp_all
    · rename_i hne
      obtain ⟨text, texts, hcut⟩ :=
        List.exists_cons_of_ne_nil (Field.cut_ne_nil 0 false s.operands.toList)
      simp [hne, hcut, Field.number]
  rw [← hempty, operandRanges, operandRanges, List.map_inj_left]
  constructor
  · intro h
    cases hpieces : numberedPieces s.operands.toList with
    | nil => exact .inl rfl
    | cons q qs =>
        have hcolumn := congrArg (fun r => r.start.column) (h q (by simp [hpieces]))
        simp only [Range.onLine] at hcolumn
        exact .inr (by omega)
  · rintro (h | rfl)
    · simp [h]
    · exact fun _ _ => rfl

/-- The operands of a statement stand where they stand in the line, exactly if there are none, or if
every character in front of them is a single byte. Otherwise they all stand too far to the right,
by the bytes that the name field and the operation field have beyond their characters. -/
theorem operands_in_columns_iff :
    (∀ q ∈ numberedPieces s.operands.toList,
      slice? s.sourceLine (s.operandColumn + q.1) (s.operandColumn + q.1 + q.2.length) = some q.2) ∧
    ((s.toStatement line t).1.read form names).1.operands.map Operand.range =
      s.operandRanges (s.line.getD line) s.excess ∧
    (((s.toStatement line t).1.read form names).1.operands.map Operand.range =
        s.operandRanges (s.line.getD line) 0 ↔
      s.operands = "" ∨ ∀ c ∈ s.label.toList ++ s.operation.toList, c.utf8Size = 1) := by
  have hranges := s.ranges_read_toStatement line t names form
  refine ⟨fun q => s.slice_sourceLine, hranges, ?_⟩
  rw [hranges, operandRanges_eq_iff, excess_eq_zero_iff]

/-- A name field with a letter of two bytes. -/
def accentedLabel : SourceStatement := { label := "Ä", operation := "LR", operands := "1,99" }

/-- In `Ä LR 1,99` both operands are located one column too far to the right. -/
theorem accentedLabel_out_of_columns :
    ((accentedLabel.toStatement 0 {}).1.read .machine {}).1.operands.map Operand.range =
        [.onLine 0 6 7, .onLine 0 8 10] ∧
      slice? accentedLabel.sourceLine 5 6 = some ['1'] ∧
      slice? accentedLabel.sourceLine 7 9 = some ['9', '9'] ∧
      ((accentedLabel.toStatement 0 {}).1.read .machine {}).1.operands.map Operand.range ≠
        accentedLabel.operandRanges 0 0 := by
  rw [ranges_read_toStatement]
  decide +kernel

end SourceStatement

end MacroAssembler
