import Mathlib.Algebra.Group.Int.Even
import Mathlib.Algebra.Order.Ring.Int
import Mathlib.Tactic.Positivity
import Mathlib.Tactic.Zify
import MacroAssembler.Assembly.OperandCheck
import MacroAssembler.Proofs.Symbol.Evaluation

/-!
# Operands that conform to their formats

Which operands an instruction can encode (`Conforms`), with one rule for each way in which an
operand conforms to a format. The check of an operand accepts exactly these (`operand_decides`), and
of any other it tells what is wrong with it (`Blames`). The check of a statement therefore has one
diagnostic for each operand that does not conform, in their order (`operands_report`).
-/

namespace MacroAssembler.OperandCheck

/-! ## What conforms, and what is wrong otherwise -/

/-- The value of the expression is a number with the property. -/
def IsNumber (t : SymbolTable) (p : Int → Prop) (e : OrdinaryExpr NameId) : Prop :=
  ∃ i : Int32, t.Evaluates e (.absolute i) ∧ p i.toInt

/-- The value of the expression is a place in the program. -/
def IsPlace (t : SymbolTable) (e : OrdinaryExpr NameId) : Prop :=
  ∃ a, t.Evaluates e (.relocatable a)

/-- The number is what some pattern of bits of the width stands for. -/
def FitsBits (bits : Nat) (isSigned : Bool) (i : Int) : Prop :=
  ∃ b : BitVec bits, i = if isSigned then b.toInt else b.toNat

/-- The number is one from `low` to `high`. -/
def Within (low high i : Int) : Prop := low ≤ i ∧ i ≤ high

/-- The operand can be encoded in the format. -/
inductive Conforms (t : SymbolTable) : OperandFormat → Operand → Prop where
  | register {e range} : IsNumber t (Within 0 15) e →
      Conforms t .register (.machine (.expr e) range)
  | mask {e range} : IsNumber t (Within 0 15) e → Conforms t .mask (.machine (.expr e) range)
  | immediate {bits isSigned e range} : IsNumber t (FitsBits bits isSigned) e →
      Conforms t (.immediate bits isSigned) (.machine (.expr e) range)
  | relativePlace {e range} : IsPlace t e → Conforms t .relative (.machine (.expr e) range)
  | relativeNumber {e range} : IsNumber t Even e → Conforms t .relative (.machine (.expr e) range)
  | place {format e range} : format ∈ [.indexedAddress, .baseAddress, .lengthAddress] →
      IsPlace t e → Conforms t format (.machine (.expr e) range)
  | number {format e range} : format ∈ [.indexedAddress, .baseAddress, .lengthAddress] →
      IsNumber t (Within 0 4095) e → Conforms t format (.machine (.expr e) range)
  | indexedAddress {displacement index base range} : IsNumber t (Within 0 4095) displacement →
      (∀ e ∈ index, IsNumber t (Within 0 15) e) → (∀ e ∈ base, IsNumber t (Within 0 15) e) →
      Conforms t .indexedAddress (.machine (.address displacement index base) range)
  | baseAddress {displacement base range} : IsNumber t (Within 0 4095) displacement →
      (∀ e ∈ base, IsNumber t (Within 0 15) e) →
      Conforms t .baseAddress (.machine (.address displacement base none) range)
  | lengthAddress {displacement length base range} : IsNumber t (Within 0 4095) displacement →
      (∀ e ∈ length, IsNumber t (Within 1 256) e) → (∀ e ∈ base, IsNumber t (Within 0 15) e) →
      Conforms t .lengthAddress (.machine (.address displacement length base) range)

/-- The limits that a number can break. -/
def limits : List DiagnosticCode :=
  [.registerOutOfRange, .displacementOutOfRange, .immediateOutOfRange, .lengthOutOfRange]

/-- The diagnostic tells something that is wrong with the operand: its form, so that it does not
conform whatever the symbols are, or one of its expressions, which has no value, a value of another
kind, or is a number outside the limits. -/
inductive Blames (t : SymbolTable) (format : OperandFormat) (o : Operand) : Diagnostic → Prop where
  | form : (∀ t, ¬ Conforms t format o) →
      Blames t format o { code := .operandKind, range := o.range }
  | noValue {e} : e ∈ o.machineExprs → (∀ v, ¬ t.Evaluates e v) →
      Blames t format o { code := .invalidExpression, range := e.range }
  | kind {e v} : e ∈ o.machineExprs → t.Evaluates e v →
      Blames t format o { code := .operandKind, range := e.range }
  | limit {e i code} : e ∈ o.machineExprs → t.Evaluates e (.absolute i) → code ∈ limits →
      Blames t format o ⟨code, [toString i.toInt], e.range⟩

/-- The check passes if the condition holds, and otherwise fails with a diagnostic that is
allowed. -/
def Decides (allowed : Diagnostic → Prop) (condition : Prop) : Except Diagnostic Unit → Prop
  | .ok () => condition
  | .error d => ¬ condition ∧ allowed d

namespace Decides

variable {allowed : Diagnostic → Prop} {p q : Prop} {x y : Except Diagnostic Unit}

theorem error {d : Diagnostic} (hp : ¬ p) (hd : allowed d) : Decides allowed p (.error d) :=
  ⟨hp, hd⟩

theorem congr (h : Decides allowed p x) (hiff : q ↔ p) : Decides allowed q x := by
  rwa [propext hiff]

/-- The second check is made if the first has passed. -/
theorem bind (hx : Decides allowed p x) (hy : Decides allowed q y) :
    Decides allowed (p ∧ q) (x >>= fun _ => y) := by
  cases x with
  | ok =>
      change Decides allowed (p ∧ q) y
      exact hy.congr (and_iff_right hx)
  | error d => exact ⟨fun h => hx.1 h.1, hx.2⟩

end Decides

/-! ## The checks of expressions -/

variable {t : SymbolTable} {format : OperandFormat} {o : Operand} {e : OrdinaryExpr NameId}

/-- An expression has one value at most. -/
theorem evaluates_unique {v w : SymbolValue} (hv : t.Evaluates e v) (hw : t.Evaluates e w) :
    v = w := by
  rw [← SymbolTable.evaluate_eq_ok_iff] at hv hw
  exact Except.ok.inj (hv.symm.trans hw)

/-- What is asked of a number is not fulfilled by another number. -/
theorem isNumber_iff {p : Int → Prop} {i : Int32} (hvalue : t.Evaluates e (.absolute i)) :
    IsNumber t p e ↔ p i.toInt := by
  refine ⟨?_, fun h => ⟨i, hvalue, h⟩⟩
  rintro ⟨j, hj, hp⟩
  cases evaluates_unique hvalue hj
  exact hp

/-- The check of an expression looks at its value. -/
theorem Decides.of_value {p : Prop} {check : SymbolValue → Except Diagnostic Unit}
    (he : e ∈ o.machineExprs) (hp : p → ∃ v, t.Evaluates e v)
    (hcheck : ∀ v, t.Evaluates e v → Decides (Blames t format o) p (check v)) :
    Decides (Blames t format o) p (value t e >>= check) := by
  unfold value
  cases hvalue : t.evaluate e with
  | ok v => exact hcheck v (SymbolTable.evaluate_eq_ok_iff.1 hvalue)
  | error fault =>
      have hnone (v : SymbolValue) : ¬ t.Evaluates e v := by
        intro hv
        rw [← SymbolTable.evaluate_eq_ok_iff, hvalue] at hv
        cases hv
      exact ⟨fun h => (hp h).elim hnone, .noValue he hnone⟩

theorem within_decides {low high : Int} {code : DiagnosticCode} (he : e ∈ o.machineExprs)
    (hcode : code ∈ limits) :
    Decides (Blames t format o) (IsNumber t (Within low high) e) (within t low high code e) := by
  refine .of_value he (fun ⟨i, hi, _⟩ => ⟨_, hi⟩) fun v hv => ?_
  cases v with
  | absolute i =>
      rw [isNumber_iff hv]
      dsimp only
      split
      · rename_i hin
        exact hin
      · rename_i hout
        exact ⟨hout, .limit he hv hcode⟩
  | relocatable | undefined =>
      refine ⟨?_, .kind he hv⟩
      rintro ⟨i, hi, -⟩
      cases evaluates_unique hv hi

theorem registerOrNone_decides {register : Option (OrdinaryExpr NameId)}
    (h : ∀ e ∈ register, e ∈ o.machineExprs) :
    Decides (Blames t format o) (∀ e ∈ register, IsNumber t (Within 0 15) e)
      (registerOrNone t register) := by
  cases register with
  | none => exact fun e he => nomatch he
  | some e =>
      exact (within_decides (h e rfl) (by decide)).congr
        ⟨fun hall => hall e rfl, fun he _ h => Option.some.inj h ▸ he⟩

/-- The numbers of a width are those between two powers of two. -/
theorem fitsBits_iff {bits : Nat} (hbits : 0 < bits) {isSigned : Bool} {i : Int} :
    FitsBits bits isSigned i ↔
      if isSigned then Within (-2 ^ (bits - 1)) (2 ^ (bits - 1) - 1) i
      else Within 0 (2 ^ bits - 1) i := by
  have hpow : (2 : Int) ^ bits = 2 * 2 ^ (bits - 1) := by
    rw [← pow_succ', Nat.sub_add_cancel hbits]
  cases isSigned with
  | true =>
      constructor
      · rintro ⟨b, rfl⟩
        have hle := b.le_toInt
        have hlt := b.toInt_lt
        exact ⟨hle, by simp only [if_true]; omega⟩
      · rintro ⟨hle, hlt⟩
        refine ⟨BitVec.ofInt bits i, ?_⟩
        rw [if_pos rfl, BitVec.toInt_ofInt]
        refine (Int.bmod_eq_of_le ?_ ?_).symm <;> rw [Nat.cast_pow, Nat.cast_ofNat, hpow] <;> omega
  | false =>
      constructor
      · rintro ⟨b, rfl⟩
        have hlt := b.isLt
        refine ⟨Int.natCast_nonneg _, ?_⟩
        zify at hlt
        simp only [Bool.false_eq_true, if_false]
        omega
      · rintro ⟨hle, hlt⟩
        refine ⟨BitVec.ofInt bits i, ?_⟩
        rw [if_neg (by decide), BitVec.toNat_ofInt, Nat.cast_pow, Nat.cast_ofNat,
          Int.toNat_of_nonneg (Int.emod_nonneg _ (by positivity))]
        exact (Int.emod_eq_of_lt hle (by omega)).symm

theorem immediate_decides {bits : Nat} (hbits : 0 < bits) {isSigned : Bool}
    (he : e ∈ o.machineExprs) :
    Decides (Blames t format o) (IsNumber t (FitsBits bits isSigned) e)
      (immediate t bits isSigned e) := by
  unfold immediate IsNumber
  simp only [fitsBits_iff hbits, Int.pow_eq]
  cases isSigned <;> exact within_decides he (by decide)

theorem relative_decides (he : e ∈ o.machineExprs) :
    Decides (Blames t format o) (IsPlace t e ∨ IsNumber t Even e) (relative t e) := by
  refine .of_value he ?_ fun v hv => ?_
  · rintro (⟨a, ha⟩ | ⟨i, hi, -⟩)
    · exact ⟨_, ha⟩
    · exact ⟨_, hi⟩
  · cases v with
    | relocatable a => exact .inl ⟨a, hv⟩
    | absolute i =>
        have heven : i % 2 = 0 ↔ Even i.toInt := by
          have hzero : (0 : Int32).toInt = 0 := rfl
          have htwo : (2 : Int32).toInt = 2 := rfl
          rw [← Int32.toInt_inj, Int32.toInt_mod, hzero, htwo, even_iff_two_dvd,
            Int.dvd_iff_tmod_eq_zero]
        have hodd (h : IsPlace t e) : Even i.toInt := by
          obtain ⟨a, ha⟩ := h
          cases evaluates_unique hv ha
        rw [isNumber_iff hv, or_iff_right_of_imp hodd]
        dsimp only
        split
        · rename_i hzero
          exact heven.1 hzero
        · rename_i hzero
          exact ⟨fun h => hzero (heven.2 h), .kind he hv⟩
    | undefined =>
        exact absurd (SymbolTable.evaluate_eq_ok_iff.2 hv) (SymbolTable.evaluate_ne_undefined e)

theorem plainAddress_decides (he : e ∈ o.machineExprs) :
    Decides (Blames t format o) (IsPlace t e ∨ IsNumber t (Within 0 4095) e)
      (plainAddress t e) := by
  refine .of_value he ?_ fun v hv => ?_
  · rintro (⟨a, ha⟩ | ⟨i, hi, -⟩)
    · exact ⟨_, ha⟩
    · exact ⟨_, hi⟩
  · cases v with
    | relocatable a => exact .inl ⟨a, hv⟩
    | absolute | undefined =>
        refine (within_decides he (by decide)).congr (or_iff_right_of_imp ?_)
        rintro ⟨a, ha⟩
        cases evaluates_unique hv ha

/-! ## The checks of operands -/

/-- An expression that is given for an address is a place or a displacement. -/
theorem conforms_plainAddress_iff {range : Range}
    (hformat : format ∈ [.indexedAddress, .baseAddress, .lengthAddress]) :
    Conforms t format (.machine (.expr e) range) ↔ IsPlace t e ∨ IsNumber t (Within 0 4095) e := by
  constructor
  · intro h
    cases h with
    | place _ h => exact .inl h
    | number _ h => exact .inr h
    | register | mask | immediate | relativePlace | relativeNumber => simp at hformat
  · rintro (h | h)
    · exact .place hformat h
    · exact .number hformat h

/-- The check of an operand that is an expression. -/
theorem expr_decides (hwidth : ∀ bits isSigned, format = .immediate bits isSigned → 0 < bits)
    {e : OrdinaryExpr NameId} {range : Range} (ho : o = .machine (.expr e) range) :
    Decides (Blames t format o) (Conforms t format o) (operand t format o) := by
  subst ho
  have he : e ∈ (Operand.machine (.expr e) range).machineExprs := List.mem_singleton.2 rfl
  cases format with
  | register =>
      refine (within_decides he (by decide)).congr ⟨fun h => ?_, .register⟩
      cases h with
      | register h => exact h
      | place hformat | number hformat => simp at hformat
  | mask =>
      refine (within_decides he (by decide)).congr ⟨fun h => ?_, .mask⟩
      cases h with
      | mask h => exact h
      | place hformat | number hformat => simp at hformat
  | immediate bits isSigned =>
      refine (immediate_decides (hwidth _ _ rfl) he).congr ⟨fun h => ?_, .immediate⟩
      cases h with
      | immediate h => exact h
      | place hformat | number hformat => simp at hformat
  | relative =>
      refine (relative_decides he).congr ⟨fun h => ?_, ?_⟩
      · cases h with
        | relativePlace h => exact .inl h
        | relativeNumber h => exact .inr h
        | place hformat | number hformat => simp at hformat
      · rintro (h | h)
        · exact .relativePlace h
        · exact .relativeNumber h
  | indexedAddress | baseAddress | lengthAddress =>
      exact (plainAddress_decides he).congr (conforms_plainAddress_iff (by simp))

/-- The check of an operand that is an address. -/
theorem address_decides {displacement : OrdinaryExpr NameId}
    {first second : Option (OrdinaryExpr NameId)} {range : Range}
    (ho : o = .machine (.address displacement first second) range) :
    Decides (Blames t format o) (Conforms t format o) (operand t format o) := by
  have hdisplacement : Decides (Blames t format o) (IsNumber t (Within 0 4095) displacement)
      (OperandCheck.displacement t displacement) :=
    within_decides (by simp [ho, Operand.machineExprs, MachineOperand.exprs]) (by decide)
  have hfirst : ∀ e ∈ first, e ∈ o.machineExprs := by
    simp +contextual [ho, Operand.machineExprs, MachineOperand.exprs]
  have hsecond : Decides (Blames t format o) (∀ e ∈ second, IsNumber t (Within 0 15) e)
      (registerOrNone t second) :=
    registerOrNone_decides (by simp +contextual [ho, Operand.machineExprs, MachineOperand.exprs])
  subst ho
  cases format with
  | register | mask | immediate | relative =>
      exact .error (fun h => nomatch h) (.form fun _ h => nomatch h)
  | indexedAddress =>
      refine (hdisplacement.bind ((registerOrNone_decides hfirst).bind hsecond)).congr
        ⟨fun h => ?_, fun ⟨h, h', h''⟩ => .indexedAddress h h' h''⟩
      cases h with
      | indexedAddress h h' h'' => exact ⟨h, h', h''⟩
  | baseAddress =>
      cases second with
      | some => exact .error (fun h => nomatch h) (.form fun _ h => nomatch h)
      | none =>
          refine (hdisplacement.bind (registerOrNone_decides hfirst)).congr
            ⟨fun h => ?_, fun ⟨h, h'⟩ => .baseAddress h h'⟩
          cases h with
          | baseAddress h h' => exact ⟨h, h'⟩
  | lengthAddress =>
      cases first with
      | none =>
          refine (hdisplacement.bind hsecond).congr
            ⟨fun h => ?_, fun ⟨h, h'⟩ => .lengthAddress h (fun e he => nomatch he) h'⟩
          cases h with
          | lengthAddress h _ h' => exact ⟨h, h'⟩
      | some length =>
          have hlength : Decides (Blames t .lengthAddress _) (IsNumber t (Within 1 256) length)
              (within t 1 256 .lengthOutOfRange length) :=
            within_decides (hfirst length rfl) (by decide)
          refine (hdisplacement.bind (hlength.bind hsecond)).congr ⟨fun h => ?_,
            fun ⟨h, h', h''⟩ => .lengthAddress h (fun e he => Option.some.inj he ▸ h') h''⟩
          cases h with
          | lengthAddress h h' h'' => exact ⟨h, h' length rfl, h''⟩

/-- The check of an operand passes exactly if the operand conforms to the format, and else says what
is wrong with it. -/
theorem operand_decides (hwidth : ∀ bits isSigned, format = .immediate bits isSigned → 0 < bits)
    (o : Operand) :
    Decides (Blames t format o) (Conforms t format o) (operand t format o) := by
  cases o with
  | empty | expr | concatenation => exact .error (fun h => nomatch h) (.form fun _ h => nomatch h)
  | machine m range =>
      cases m with
      | expr => exact expr_decides hwidth rfl
      | address => exact address_decides rfl

/-! ## The checks of statements -/

/-- The operands that count: an empty operand alone is none if none is expected. -/
def given : List Operand → List OperandFormat → List Operand
  | [.empty _], [] => []
  | os, _ => os

/-- One diagnostic for each operand that does not conform to its format, in their order. -/
inductive Reports (t : SymbolTable) : List Operand → List OperandFormat → List Diagnostic →
    Prop where
  | nil : Reports t [] [] []
  | conforms {o format os formats ds} : Conforms t format o → Reports t os formats ds →
      Reports t (o :: os) (format :: formats) ds
  | blames {o format os formats d ds} :
      ¬ Conforms t format o → Blames t format o d → Reports t os formats ds →
      Reports t (o :: os) (format :: formats) (d :: ds)

/-- What the checks of the operands find, one after the other, is one diagnostic for each that does
not conform. -/
theorem reports_filterMap {os : List Operand} {formats : List OperandFormat}
    (hwidths : ∀ bits isSigned, .immediate bits isSigned ∈ formats → 0 < bits)
    (hlength : os.length = formats.length) :
    Reports t os formats ((os.zip formats).filterMap fun (o, format) =>
      match operand t format o with
      | .ok () => none
      | .error d => some d) := by
  induction os generalizing formats with
  | nil =>
      obtain rfl := List.length_eq_zero_iff.1 hlength.symm
      exact .nil
  | cons o os ih =>
      cases formats with
      | nil => simp at hlength
      | cons format formats =>
          have hrest := ih (fun bits isSigned h => hwidths bits isSigned (List.mem_cons_of_mem _ h))
            (Nat.succ.inj hlength)
          have hdecides := @operand_decides t format
            (fun bits isSigned h => hwidths bits isSigned (h ▸ List.mem_cons_self)) o
          rw [List.zip_cons_cons, List.filterMap_cons]
          dsimp only
          cases hchecked : operand t format o with
          | ok =>
              rw [hchecked] at hdecides
              exact .conforms hdecides hrest
          | error d =>
              rw [hchecked] at hdecides
              exact .blames hdecides.1 hdecides.2 hrest

/-- The check of a statement whose immediate operands have a width. If there are not as many
operands as formats, this is all that is reported. Otherwise there is one diagnostic for each
operand that does not conform to its format, in the order of the operands, and none for the
others. -/
theorem operands_report (t : SymbolTable) (os : List Operand) {formats : List OperandFormat}
    (hwidths : ∀ bits isSigned, .immediate bits isSigned ∈ formats → 0 < bits) (range : Range) :
    let counted := given os formats
    (counted.length ≠ formats.length → operands t os formats range =
      [⟨.operandCount, [toString formats.length, toString counted.length], range⟩]) ∧
    (counted.length = formats.length →
      Reports t counted formats (operands t os formats range)) := by
  intro counted
  have hcheck : operands t os formats range =
      if counted.length ≠ formats.length then
        [⟨.operandCount, [toString formats.length, toString counted.length], range⟩]
      else (counted.zip formats).filterMap fun (o, format) =>
        match operand t format o with
        | .ok () => none
        | .error d => some d := rfl
  refine ⟨fun hne => ?_, fun heq => ?_⟩
  · rw [hcheck, if_pos hne]
  · rw [hcheck, if_neg (not_not.2 heq)]
    exact reports_filterMap hwidths heq

/-- Three operands, of which the second conforms: `16`, `-128` and `0(257,1)`. -/
def crowdedOperands : List Operand :=
  [.machine (.expr (.constant 16 {})) {}, .machine (.expr (.constant (-128) {})) {},
    .machine (.address (.constant 0 {}) (some (.constant 257 {})) (some (.constant 1 {}))) {}]

theorem crowdedOperands_report :
    let formats : List OperandFormat := [.register, .immediate 8 true, .lengthAddress]
    (∀ bits isSigned, .immediate bits isSigned ∈ formats → 0 < bits) ∧
    operands {} crowdedOperands formats {} =
      [⟨.registerOutOfRange, ["16"], {}⟩, ⟨.lengthOutOfRange, ["257"], {}⟩] ∧
    Reports {} crowdedOperands formats (operands {} crowdedOperands formats {}) := by
  intro formats
  have hwidths : ∀ bits isSigned, .immediate bits isSigned ∈ formats → 0 < bits := by simp [formats]
  exact ⟨hwidths, by decide, (operands_report {} crowdedOperands hwidths {}).2 rfl⟩

end MacroAssembler.OperandCheck
