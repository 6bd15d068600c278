import MacroAssembler.Proofs.Results
import MacroAssembler.Proofs.Symbol.Knowledge

/-!
# Evaluation as a relation

What the value of an expression is (`Evaluates`), with one rule for each way in which there is one.
The evaluation computes it: it gives a value exactly if there is a derivation of it
(`evaluate_eq_ok_iff`), and later proofs go by the rules.
-/

namespace MacroAssembler

namespace SymbolTable

variable {t : SymbolTable}

/-- The last value is the result of an operation on the other two. -/
inductive Combines : ArithmeticOp → SymbolValue → SymbolValue → SymbolValue → Prop where
  | numbers (op : ArithmeticOp) (i j : Int32) :
      Combines op (.absolute i) (.absolute j) (.absolute (op.apply i j))
  | ahead (a : Address) (i : Int32) :
      Combines .add (.relocatable a) (.absolute i) (.relocatable (a.shift i))
  | behind (i : Int32) (a : Address) :
      Combines .add (.absolute i) (.relocatable a) (.relocatable (a.shift i))
  | back (a : Address) (i : Int32) :
      Combines .sub (.relocatable a) (.absolute i) (.relocatable (a.shift (-i)))
  | distance {a b : Address} : a.sameSpaces b = true →
      Combines .sub (.relocatable a) (.relocatable b) (.absolute (a.offset - b.offset))

/-- The value of an expression. -/
inductive Evaluates (t : SymbolTable) : OrdinaryExpr NameId → SymbolValue → Prop where
  | constant (i : Int32) (range : Range) : Evaluates t (.constant i range) (.absolute i)
  | number {name : NameId} {i : Int32} (range : Range) :
      t.valueOf name = .absolute i → Evaluates t (.symbol name range) (.absolute i)
  | place {name : NameId} {a : Address} (range : Range) :
      t.valueOf name = .relocatable a →
      Evaluates t (.symbol name range) (.relocatable (t.normalize a))
  | negate {e : OrdinaryExpr NameId} {i : Int32} (range : Range) :
      Evaluates t e (.absolute i) → Evaluates t (.negate e range) (.absolute (-i))
  | binary {op : ArithmeticOp} {left right : OrdinaryExpr NameId} {l r v : SymbolValue}
      (range : Range) : Evaluates t left l → Evaluates t right r → Combines op l r v →
      Evaluates t (.binary op left right range) v

/-- Operations give the results that they have. -/
theorem combine_eq_ok_iff {op : ArithmeticOp} {l r v : SymbolValue} :
    combine op l r = .ok v ↔ Combines op l r v := by
  constructor
  · intro h
    cases l with
    | undefined => simp [combine] at h
    | absolute i =>
        cases r with
        | undefined => simp [combine] at h
        | absolute j =>
            cases h
            exact .numbers op i j
        | relocatable b =>
            cases op with
            | add =>
                cases h
                exact .behind i b
            | sub | mul | div => simp [combine] at h
    | relocatable a =>
        cases r with
        | undefined => simp [combine] at h
        | absolute j =>
            cases op with
            | add =>
                cases h
                exact .ahead a j
            | sub =>
                cases h
                exact .back a j
            | mul | div => simp [combine] at h
        | relocatable b =>
            cases op with
            | sub =>
                simp only [combine] at h
                split at h
                · rename_i hsame
                  cases h
                  exact .distance hsame
                · simp at h
            | add | mul | div => simp [combine] at h
  · intro h
    cases h with
    | numbers | ahead | behind | back => rfl
    | distance hsame => simp [combine, hsame]

/-- The evaluation gives the value of an expression that has one. -/
theorem evaluate_eq_ok_iff {e : OrdinaryExpr NameId} {v : SymbolValue} :
    t.evaluate e = .ok v ↔ t.Evaluates e v := by
  constructor
  · intro h
    induction e generalizing v with
    | constant i range =>
        cases h
        exact .constant i range
    | symbol name range =>
        simp only [evaluate] at h
        split at h
        · rename_i hvalue
          cases h
          exact .number range hvalue
        · rename_i hvalue
          cases h
          exact .place range hvalue
        · simp at h
    | negate e range ih =>
        obtain ⟨w, hw, h⟩ := bind_eq_ok_iff.1 h
        cases w with
        | absolute i =>
            cases h
            exact .negate range (ih hw)
        | relocatable | undefined => cases h
    | binary op left right range ihl ihr =>
        obtain ⟨l, hl, h⟩ := bind_eq_ok_iff.1 h
        obtain ⟨r, hr, h⟩ := bind_eq_ok_iff.1 h
        exact .binary range (ihl hl) (ihr hr) (combine_eq_ok_iff.1 h)
  · intro h
    induction h with
    | constant => rfl
    | number _ hvalue | place _ hvalue => simp [evaluate, hvalue]
    | negate _ _ ih =>
        simp only [evaluate, ih]
        rfl
    | binary _ _ _ hcombines ihl ihr =>
        simp only [evaluate, ihl, ihr]
        exact combine_eq_ok_iff.2 hcombines

/-- An expression never has the value of a symbol without one. -/
theorem evaluate_ne_undefined (e : OrdinaryExpr NameId) : t.evaluate e ≠ .ok .undefined := by
  intro h
  cases evaluate_eq_ok_iff.1 h with
  | binary _ _ _ hcombines => cases hcombines

/-- If an expression waits for nothing, its value has no spaces. -/
theorem spaces_of_evaluate {e : OrdinaryExpr NameId} {a : Address} (hnil : t.unknowns e = [])
    (h : t.evaluate e = .ok (.relocatable a)) : a.spaces = [] := by
  rw [evaluate_eq_ok_iff] at h
  generalize hv : SymbolValue.relocatable a = v at h
  induction h generalizing a with
  | constant | number | negate => cases hv
  | place _ hvalue =>
      cases hv
      simp only [unknowns, unknownsOfSymbol, hvalue] at hnil
      exact unknownsOfAddress_eq_nil_iff.1 hnil
  | binary _ _ _ hcombines ihl ihr =>
      subst hv
      obtain ⟨hl, hr⟩ := List.append_eq_nil_iff.1 hnil
      -- a sum or a difference has the spaces of one of its operands
      cases hcombines with
      | ahead b i => exact ihl (a := b) hl rfl
      | behind i b => exact ihr (a := b) hr rfl
      | back b i => exact ihl (a := b) hl rfl

end SymbolTable

end MacroAssembler
