import MacroAssembler.Assembly.Collector
import MacroAssembler.Proofs.Field.Growth

/-!
# Diagnostics of operand checks

The kinds of faults that a check of operands can find (`OperandCheck.operands_among`). No other part
of the assembler finds misfits, so those in a list of diagnostics show which checks it tells of
(`Tells`).
-/

namespace MacroAssembler

/-! ## Checks that can fail -/

/-- If a check fails, its diagnostic has one of the given codes. -/
def FailsAmong {α : Type} (codes : List DiagnosticCode) (x : Except Diagnostic α) : Prop :=
  ∀ d, x = .error d → d.code ∈ codes

namespace FailsAmong

variable {α β : Type} {codes : List DiagnosticCode}

@[simp] theorem ok (a : α) : FailsAmong codes (.ok a) := by simp [FailsAmong]

@[simp] theorem pure (a : α) : FailsAmong codes (Pure.pure a) := ok a

@[simp] theorem error {d : Diagnostic} :
    FailsAmong codes (.error d : Except Diagnostic α) ↔ d.code ∈ codes := by
  simp [FailsAmong]

/-- Two checks, one after the other. -/
theorem bind {x : Except Diagnostic α} {f : α → Except Diagnostic β} (hx : FailsAmong codes x)
    (hf : ∀ a, FailsAmong codes (f a)) : FailsAmong codes (x >>= f) := by
  cases x with
  | ok a => exact hf a
  | error d => exact error.2 (error.1 hx)

end FailsAmong

namespace OperandCheck

/-- What can be wrong with an operand that is given for a format. -/
def misfits : List DiagnosticCode :=
  [.operandCount, .registerOutOfRange, .displacementOutOfRange, .immediateOutOfRange,
    .lengthOutOfRange, .operandKind]

/-- What a check of operands can find: misfits, and expressions without a value. -/
def codes : List DiagnosticCode := .invalidExpression :: misfits

variable {t : SymbolTable}

theorem value_among (e : OrdinaryExpr NameId) : FailsAmong codes (value t e) := by
  unfold value
  split <;> simp [codes]

/-- A limit is complained of in the way that it says. -/
theorem within_among {low high : Int} {code : DiagnosticCode} (e : OrdinaryExpr NameId)
    (hcode : code ∈ codes) : FailsAmong codes (within t low high code e) := by
  refine (value_among e).bind fun v => ?_
  split
  · split <;> simp [hcode]
  · simp [codes, misfits]

theorem registerOrNone_among (e : Option (OrdinaryExpr NameId)) :
    FailsAmong codes (registerOrNone t e) := by
  cases e with
  | none => simp [registerOrNone]
  | some e => exact within_among e (by simp [codes, misfits])

theorem displacement_among (e : OrdinaryExpr NameId) : FailsAmong codes (displacement t e) :=
  within_among e (by simp [codes, misfits])

theorem immediate_among (bits : Nat) (isSigned : Bool) (e : OrdinaryExpr NameId) :
    FailsAmong codes (immediate t bits isSigned e) := by
  unfold immediate
  split <;> exact within_among e (by simp [codes, misfits])

theorem relative_among (e : OrdinaryExpr NameId) : FailsAmong codes (relative t e) := by
  refine (value_among e).bind fun v => ?_
  split
  · simp
  · split <;> simp [codes, misfits]
  · simp [codes, misfits]

theorem plainAddress_among (e : OrdinaryExpr NameId) : FailsAmong codes (plainAddress t e) := by
  refine (value_among e).bind fun v => ?_
  split
  · simp
  · exact displacement_among e

/-- The check of an operand finds faults of these kinds. -/
theorem operand_among (format : OperandFormat) (o : Operand) :
    FailsAmong codes (operand t format o) := by
  unfold operand
  split
  · split
    · exact within_among _ (by simp [codes, misfits])
    · exact within_among _ (by simp [codes, misfits])
    · exact immediate_among _ _ _
    · exact relative_among _
    · exact plainAddress_among _
    · exact plainAddress_among _
    · exact plainAddress_among _
    · exact (displacement_among _).bind fun _ =>
        (registerOrNone_among _).bind fun _ => registerOrNone_among _
    · exact (displacement_among _).bind fun _ => registerOrNone_among _
    · refine (displacement_among _).bind fun _ => ?_
      split
      · exact (within_among _ (by simp [codes, misfits])).bind fun _ => registerOrNone_among _
      · exact registerOrNone_among _
    · simp [codes, misfits]
  · simp [codes, misfits]

/-- The checks of the operands of a statement find faults of these kinds. -/
theorem operands_among {os : List Operand} {formats : List OperandFormat} {range : Range} :
    Among codes (operands t os formats range) := by
  unfold operands
  -- whether an empty operand has been dropped before does not matter
  extract_lets given
  clear_value given
  split
  · simp [codes, misfits]
  · intro d hd
    obtain ⟨⟨o, format⟩, -, ho⟩ := List.mem_filterMap.1 hd
    dsimp only at ho
    split at ho
    · simp at ho
    · rename_i heq
      cases ho
      exact operand_among format o _ heq

end OperandCheck

/-! ## Misfits among other diagnostics -/

/-- The diagnostic tells of a misfit. -/
def Diagnostic.isMisfit (d : Diagnostic) : Bool := d.code ∈ OperandCheck.misfits

/-- The faults stand in a list of diagnostics, in their order, and it tells of no other misfits. -/
structure Tells (faults ds : List Diagnostic) : Prop where
  sublist : faults.Sublist ds
  misfits : ds.filter Diagnostic.isMisfit = faults.filter Diagnostic.isMisfit

namespace Tells

variable {codes : List DiagnosticCode} {faults faults' ds ds' : List Diagnostic}

theorem refl (ds : List Diagnostic) : Tells ds ds := ⟨.refl ds, rfl⟩

theorem append (h : Tells faults ds) (h' : Tells faults' ds') :
    Tells (faults ++ faults') (ds ++ ds') :=
  ⟨h.sublist.append h'.sublist,
    by rw [List.filter_append, List.filter_append, h.misfits, h'.misfits]⟩

/-- Codes that tell of no misfit. -/
theorem of_among (h : Among codes ds) (hcodes : ∀ c ∈ codes, c ∉ OperandCheck.misfits) :
    Tells [] ds := by
  refine ⟨List.nil_sublist ds, List.filter_eq_nil_iff.2 fun d hd => ?_⟩
  simpa [Diagnostic.isMisfit] using hcodes _ (h d hd)

/-- Diagnostics that tell of no misfit can stand before. -/
theorem prepend (h : Tells [] ds) (h' : Tells faults ds') : Tells faults (ds ++ ds') :=
  h.append h'

/-- Diagnostics that tell of no misfit can stand behind. -/
theorem append_nil (h : Tells faults ds) (h' : Tells [] ds') : Tells faults (ds ++ ds') := by
  simpa using h.append h'

end Tells

end MacroAssembler
