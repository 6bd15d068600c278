import MacroAssembler.Assembly.OpenCode
import Mathlib.Data.List.Basic
import MacroAssembler.Proofs.Assembly.Misfits

/-!
# Checks of machine statements

The checks that are made when a statement is processed, and when postponed statements are processed
again. A check evaluates the expressions of the operands, and looks at nothing else
(`OperandCheck.operands_congr`).
-/

namespace MacroAssembler

/-! ## What a check looks at -/

namespace OperandCheck

variable {t t' : SymbolTable}

theorem value_congr {e : OrdinaryExpr NameId} (h : t'.evaluate e = t.evaluate e) :
    value t' e = value t e := by
  unfold value
  rw [h]

theorem within_congr {e : OrdinaryExpr NameId} (h : t'.evaluate e = t.evaluate e) (low high : Int)
    (code : DiagnosticCode) : within t' low high code e = within t low high code e := by
  unfold within
  rw [value_congr h]

theorem registerOrNone_congr {e : Option (OrdinaryExpr NameId)}
    (h : ∀ x ∈ e, t'.evaluate x = t.evaluate x) : registerOrNone t' e = registerOrNone t e := by
  cases e with
  | none => rfl
  | some e => exact within_congr (h e rfl) _ _ _

theorem plainAddress_congr {e : OrdinaryExpr NameId} (h : t'.evaluate e = t.evaluate e) :
    plainAddress t' e = plainAddress t e := by
  unfold plainAddress displacement
  rw [value_congr h, within_congr h]

/-- The check of an operand looks at the values of its expressions only. -/
theorem operand_congr (format : OperandFormat) {o : Operand}
    (h : ∀ e ∈ o.machineExprs, t'.evaluate e = t.evaluate e) :
    operand t' format o = operand t format o := by
  cases o with
  | empty | expr | concatenation => rfl
  | machine m range =>
      cases m with
      | expr e =>
          have he : t'.evaluate e = t.evaluate e :=
            h e (by simp [Operand.machineExprs, MachineOperand.exprs])
          cases format <;>
            simp only [operand, register, immediate, relative, within_congr he, value_congr he,
              plainAddress_congr he]
      | address d first second =>
          simp only [Operand.machineExprs, MachineOperand.exprs, List.mem_cons, List.mem_append,
            Option.mem_toList, forall_eq_or_imp] at h
          obtain ⟨hd, hregisters⟩ := h
          have hfirst := fun x hx => hregisters x (.inl hx)
          have hsecond := fun x hx => hregisters x (.inr hx)
          cases format with
          | lengthAddress =>
              simp only [operand, displacement, within_congr hd, registerOrNone_congr hsecond]
              cases first with
              | none => rfl
              | some length => simp only [within_congr (hfirst length rfl)]
          | baseAddress =>
              cases second <;>
                simp only [operand, displacement, within_congr hd, registerOrNone_congr hfirst]
          | _ =>
              simp only [operand, displacement, within_congr hd, registerOrNone_congr hfirst,
                registerOrNone_congr hsecond]

/-- The check of the operands of a statement looks at the values of their expressions only. -/
theorem operands_congr {os : List Operand} (formats : List OperandFormat) (range : Range)
    (h : ∀ e ∈ os.flatMap Operand.machineExprs, t'.evaluate e = t.evaluate e) :
    operands t' os formats range = operands t os formats range := by
  unfold operands
  split
  · simp
  · dsimp only
    congr 1
    refine List.filterMap_congr fun ⟨o, format⟩ hp => ?_
    have ho : o ∈ os := (List.of_mem_zip hp).1
    dsimp only
    rw [operand_congr format fun e he => h e (List.mem_flatMap.2 ⟨o, ho, he⟩)]

end OperandCheck

/-! ## Checks -/

/-- A check of a machine statement: the formats that its operands were held against, and what was
found. -/
structure Check where
  statement : Statement (List Operand)
  formats : List OperandFormat
  diagnostics : List Diagnostic

/-- The expressions that a check of the statement evaluates. -/
def Statement.checked (s : Statement (List Operand)) : List (OrdinaryExpr NameId) :=
  s.operands.flatMap Operand.machineExprs

namespace Assembly

/-- The check of a machine statement, with the symbols as they are now. -/
def check? (a : Assembly) (s : Statement (List Operand)) : Option Check :=
  match a.encoded s with
  | .ok (_, formats) => some ⟨s, formats, a.checkOperands s formats⟩
  | .error _ => none

/-- The check that is made when a postponed statement is processed again. -/
def replay? (a : Assembly) (p : Postponed) : Option Check :=
  if p.statement.opcode.kind = .machine then a.check? p.statement else none

/-- The checks that are made when postponed statements are processed again. -/
def replays (a : Assembly) (ps : List Postponed) : List Check := ps.filterMap a.replay?

/-- Replayed checks find faults of their kinds. -/
theorem replays_among (a : Assembly) (ps : List Postponed) :
    Among OperandCheck.codes ((a.replays ps).flatMap (·.diagnostics)) := by
  intro d hd
  obtain ⟨c, hc, hd⟩ := List.mem_flatMap.1 hd
  obtain ⟨p, -, hp⟩ := List.mem_filterMap.1 hc
  unfold replay? at hp
  split at hp
  · unfold check? at hp
    split at hp <;> cases hp
    exact OperandCheck.operands_among d hd
  · cases hp

/-- The check that is made when a machine statement is processed, unless it is postponed. -/
def checkNow? (a : Assembly) (s : Statement OperandField) : Option Check :=
  let (s, _, a) := a.read s .machine
  match a.encoded s with
  | .error _ => none
  | .ok (i, formats) =>
      let a := (a.defineMachineLabel s i).2
      if s.checked.all a.isSettled then some ⟨s, formats, a.checkOperands s formats⟩ else none

/-- What a machine statement is blamed for apart from its check: for operands that cannot be read,
and for a label that is defined already. -/
def machineRemarks (a : Assembly) (s : Statement OperandField) : List Diagnostic :=
  let (s, faults, a) := a.read s .machine
  match a.encoded s with
  | .error _ => []
  | .ok (i, _) => faults ++ (a.defineMachineLabel s i).1

/-- A check that is made at once finds faults of its kinds. -/
theorem checkNow_among (a : Assembly) (s : Statement OperandField) :
    Among OperandCheck.codes ((a.checkNow? s).toList.flatMap (·.diagnostics)) := by
  unfold checkNow?
  dsimp only
  split
  · simp
  · split
    · simpa [checkOperands] using OperandCheck.operands_among
    · simp

/-- Nothing is left to wait for if the check evaluates settled expressions only. -/
theorem isEmpty_waiting (a : Assembly) (s : Statement (List Operand)) :
    ((s.operands.flatMap Operand.machineExprs).filter fun e => !a.isSettled e).isEmpty =
      s.checked.all a.isSettled := by
  rw [Bool.eq_iff_iff]
  simp only [List.isEmpty_iff, List.filter_eq_nil_iff, List.all_eq_true]
  simp [Statement.checked, -List.mem_flatMap]

/-- A statement is checked, or its check is postponed. -/
theorem faults_checkOrPostpone (a : Assembly) (s : Statement (List Operand))
    (i : MachineInstruction) (formats : List OperandFormat) :
    (a.checkOrPostpone s i formats).1 =
      if s.checked.all a.isSettled then a.checkOperands s formats else [] := by
  unfold checkOrPostpone
  simp only [isEmpty_waiting]
  split <;> rfl

end Assembly

end MacroAssembler
