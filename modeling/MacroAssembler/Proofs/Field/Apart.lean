import MacroAssembler.Proofs.Field.Splitting

/-!
# Operands are read apart from each other

The operands of a field share nothing but the name table, and the table only decides which number
stands for a name. So a piece of a field gives the operand that it gives when it is a field of its
own, up to the numbers of names (`Operand.Renamed`), and a piece that cannot be read leaves an empty
operand and one diagnostic without touching the others (`readApart_readField`).
-/

namespace MacroAssembler

/-! ## Equal up to numbers -/

/-- The two numbers stand for one name, each in its table. -/
def NameTable.SameName (t t' : NameTable) (id id' : NameId) : Prop :=
  ∃ name, t.get? id = some name ∧ t'.get? id' = some name

/-- The expressions are alike but for the numbers of their names. -/
inductive OrdinaryExpr.Renamed (t t' : NameTable) :
    OrdinaryExpr NameId → OrdinaryExpr NameId → Prop where
  | constant (v : Int32) (r : Range) : Renamed t t' (.constant v r) (.constant v r)
  | symbol {id id' : NameId} (r : Range) : t.SameName t' id id' →
      Renamed t t' (.symbol id r) (.symbol id' r)
  | negate {e e' : OrdinaryExpr NameId} (r : Range) : Renamed t t' e e' →
      Renamed t t' (.negate e r) (.negate e' r)
  | binary {left right left' right' : OrdinaryExpr NameId} (op : ArithmeticOp) (r : Range) :
      Renamed t t' left left' → Renamed t t' right right' →
      Renamed t t' (.binary op left right r) (.binary op left' right' r)

/-- The machine operands are alike but for the numbers of their names. -/
inductive MachineOperand.Renamed (t t' : NameTable) : MachineOperand → MachineOperand → Prop where
  | expr {e e' : OrdinaryExpr NameId} : e.Renamed t t' e' → Renamed t t' (.expr e) (.expr e')
  | address {d d' : OrdinaryExpr NameId}
    {first first' second second' : Option (OrdinaryExpr NameId)} :
      d.Renamed t t' d' → Option.Rel (OrdinaryExpr.Renamed t t') first first' →
      Option.Rel (OrdinaryExpr.Renamed t t') second second' →
      Renamed t t' (.address d first second) (.address d' first' second')

namespace Conditional

mutual
/-- The expressions are alike but for the numbers of their names. -/
inductive Expr.Renamed (t t' : NameTable) : Expr → Expr → Prop where
  | number (i : Int32) (r : Range) : Expr.Renamed t t' (.number i r) (.number i r)
  | text (s : String) (r : Range) : Expr.Renamed t t' (.text s r) (.text s r)
  | reference {v v' : VariableSymbol} : VariableSymbol.Renamed t t' v v' →
      Expr.Renamed t t' (.reference v) (.reference v')
  | unary {e e' : Expr} (op : Operator) (r : Range) : Expr.Renamed t t' e e' →
      Expr.Renamed t t' (.unary op e r) (.unary op e' r)
  | binary {left right left' right' : Expr} (op : Operator) (r : Range) :
      Expr.Renamed t t' left left' → Expr.Renamed t t' right right' →
      Expr.Renamed t t' (.binary op left right r) (.binary op left' right' r)
  | call {args args' : List Expr} (f : Function) (r : Range) :
      List.Forall₂ (Expr.Renamed t t') args args' →
      Expr.Renamed t t' (.call f args r) (.call f args' r)

/-- The variable symbols are alike but for the numbers of their names. -/
inductive VariableSymbol.Renamed (t t' : NameTable) : VariableSymbol → VariableSymbol → Prop where
  | named {id id' : NameId} {subscript subscript' : List Expr} (r : Range) : t.SameName t' id id' →
      List.Forall₂ (Expr.Renamed t t') subscript subscript' →
      VariableSymbol.Renamed t t' (.named id subscript r) (.named id' subscript' r)
  | created {name name' : List Fragment} {subscript subscript' : List Expr} (r : Range) :
      List.Forall₂ (Fragment.Renamed t t') name name' →
      List.Forall₂ (Expr.Renamed t t') subscript subscript' →
      VariableSymbol.Renamed t t' (.created name subscript r) (.created name' subscript' r)

/-- The fragments are alike but for the numbers of their names. -/
inductive Fragment.Renamed (t t' : NameTable) : Fragment → Fragment → Prop where
  | text (s : String) : Fragment.Renamed t t' (.text s) (.text s)
  | reference {v v' : VariableSymbol} : VariableSymbol.Renamed t t' v v' →
      Fragment.Renamed t t' (.reference v) (.reference v')
  | dot : Fragment.Renamed t t' .dot .dot
  | equals : Fragment.Renamed t t' .equals .equals
  | sublist {items items' : List (List Fragment)} :
      List.Forall₂ (List.Forall₂ (Fragment.Renamed t t')) items items' →
      Fragment.Renamed t t' (.sublist items) (.sublist items')
end

/-- The concatenations are alike but for the numbers of their names. -/
def Concatenation.Renamed (t t' : NameTable) : Concatenation → Concatenation → Prop :=
  List.Forall₂ (Fragment.Renamed t t')

end Conditional

/-- The operands are alike, and stand at the same place, but the numbers of their names may
differ. -/
inductive Operand.Renamed (t t' : NameTable) : Operand → Operand → Prop where
  | empty (r : Range) : Renamed t t' (.empty r) (.empty r)
  | machine {m m' : MachineOperand} (r : Range) : m.Renamed t t' m' →
      Renamed t t' (.machine m r) (.machine m' r)
  | expr {e e' : OrdinaryExpr NameId} (r : Range) : e.Renamed t t' e' →
      Renamed t t' (.expr e r) (.expr e' r)
  | concatenation {c c' : Conditional.Concatenation} (r : Range) : c.Renamed t t' c' →
      Renamed t t' (.concatenation c r) (.concatenation c' r)

namespace Field

open Conditional (Concatenation Expr Fragment VariableSymbol)

/-! ## Readings that do not depend on numbers -/

/-- Both fail in the same way, or both give what is related. -/
inductive SameOutcome {α : Type} (related : α → α → Prop) :
    Except Diagnostic α → Except Diagnostic α → Prop where
  | error (d : Diagnostic) : SameOutcome related (.error d) (.error d)
  | ok {a b : α} : related a b → SameOutcome related (.ok a) (.ok b)

/-- What a reading gives for two name tables is related, as seen with these tables at any later
time. -/
def Uniform {α : Type} (related : NameTable → NameTable → α → α → Prop)
    (read : NameTable → α × NameTable) : Prop :=
  ∀ t t' u u' : NameTable, (read t).2.Grows u → (read t').2.Grows u' →
    related u u' (read t).1 (read t').1

namespace Uniform

variable {α β γ : Type} {related : NameTable → NameTable → α → α → Prop}
  {related' : NameTable → NameTable → β → β → Prop}
  {related'' : NameTable → NameTable → γ → γ → Prop} {read : NameTable → α × NameTable}

theorem pure {a : α} (h : ∀ u u', related u u' a a) : Uniform related fun t => (a, t) :=
  fun _ _ u u' _ _ => h u u'

theorem congr {read' : NameTable → α × NameTable} (h : Uniform related read)
    (heq : ∀ t, read' t = read t) : Uniform related read' := by
  rwa [funext heq]

/-- The number that a name gets. -/
theorem insert (name : String) : Uniform NameTable.SameName (NameTable.insert · name) :=
  fun t t' _ _ hu hu' => ⟨name, hu.get? (t.get?_insert name), hu'.get? (t'.get?_insert name)⟩

/-- What is made of the result of a reading. -/
theorem map (h : Uniform related read) (f : α → β)
    (hf : ∀ {u u' a a'}, related u u' a a' → related' u u' (f a) (f a')) :
    Uniform related' fun t => (f (read t).1, (read t).2) :=
  fun t t' u u' hu hu' => hf (h t t' u u' hu hu')

/-- Two readings one after the other. -/
theorem both {read' : NameTable → β × NameTable} (h : Uniform related read)
    (h' : Uniform related' read') (hgrows : ∀ t : NameTable, t.Grows (read' t).2) (f : α → β → γ)
    (hf : ∀ {u u' a a' b b'}, related u u' a a' → related' u u' b b' →
      related'' u u' (f a b) (f a' b')) :
    Uniform related'' fun t => (f (read t).1 (read' (read t).2).1, (read' (read t).2).2) :=
  fun t t' u u' hu hu' => hf (h t t' u u' ((hgrows _).trans hu) ((hgrows _).trans hu'))
    (h' _ _ u u' hu hu')

/-- A second reading where the first gives nothing. -/
theorem orElse {read : NameTable → Option α × NameTable}
    {read' : NameTable → Except Diagnostic α × NameTable}
    (h : Uniform (fun t t' => Option.Rel (related t t')) read)
    (h' : Uniform (fun t t' => SameOutcome (related t t')) read') :
    Uniform (fun t t' => SameOutcome (related t t')) fun t =>
      match read t with
      | (some a, t) => (.ok a, t)
      | (none, t) => read' t := by
  intro t t' u u' hu hu'
  -- the tables that the first reading leaves tell already whether it gives something
  have hfirst := h t t' _ _ (.refl _) (.refl _)
  have hlater := h t t' u u'
  dsimp only at hu hu' ⊢
  generalize read t = x at *
  generalize read t' = x' at *
  obtain ⟨a, s⟩ := x
  obtain ⟨a', s'⟩ := x'
  cases hfirst with
  | some _ =>
      cases hlater hu hu' with
      | some ha => exact .ok ha
  | none => exact h' s s' u u' hu hu'

end Uniform

/-! ## Expressions and addresses -/

theorem uniform_intern (e : OrdinaryExpr String) : Uniform OrdinaryExpr.Renamed (e.intern ·) := by
  induction e with
  | constant v r => exact .pure fun _ _ => .constant v r
  | symbol n r =>
      exact (Uniform.insert n).map (OrdinaryExpr.symbol · r) (OrdinaryExpr.Renamed.symbol r)
  | negate e r ih => exact ih.map (OrdinaryExpr.negate · r) (OrdinaryExpr.Renamed.negate r)
  | binary op left right r ihl ihr =>
      exact ihl.both ihr right.intern_grows (OrdinaryExpr.binary op · · r)
        (OrdinaryExpr.Renamed.binary op r)

theorem uniform_internExpr (p : Piece) :
    Uniform (fun t t' => SameOutcome (OrdinaryExpr.Renamed t t')) (internExpr · p) := by
  unfold internExpr
  cases readExpr p with
  | ok e => exact (uniform_intern e).map Except.ok .ok
  | error seen => exact fun _ _ _ _ _ _ => .error (invalidExpression p)

theorem address?_renamed {t t' : NameTable} {d d' : OrdinaryExpr NameId}
    {registers registers' : List (Option (OrdinaryExpr NameId))} (hd : d.Renamed t t' d')
    (h : List.Forall₂ (Option.Rel (OrdinaryExpr.Renamed t t')) registers registers') :
    Option.Rel (MachineOperand.Renamed t t') (address? d registers) (address? d' registers') := by
  cases h with
  | nil => exact .none
  | cons hfirst h =>
      cases h with
      | nil =>
          cases hfirst with
          | some hfirst => exact .some (.address hd (.some hfirst) .none)
          | none => exact .none
      | cons hsecond h =>
          cases h with
          | nil =>
              cases hfirst with
              | some hfirst => exact .some (.address hd (.some hfirst) hsecond)
              | none =>
                  cases hsecond with
                  | some hsecond => exact .some (.address hd .none (.some hsecond))
                  | none => exact .none
          | cons hthird h => cases hfirst <;> cases hsecond <;> exact .none

theorem uniform_internRegisters (ps : List Piece) :
    Uniform (fun t t' => Option.Rel (List.Forall₂ (Option.Rel (OrdinaryExpr.Renamed t t'))))
      (internRegisters · ps) := by
  induction ps with
  | nil => exact .pure fun _ _ => .some .nil
  | cons p ps ih =>
      by_cases hnil : p.text = []
      · refine (ih.map (Option.map (none :: ·)) ?_).congr fun t => ?_
        · rintro u u' others others' (hothers | _)
          · exact .some (.cons .none hothers)
          · exact .none
        · rw [internRegisters, if_pos hnil]
      · refine ((uniform_internExpr p).both ih (internRegisters_grows · ps) (fun register others =>
          register.toOption.bind fun e => others.map (some e :: ·)) ?_).congr fun t => ?_
        · rintro u u' register register' others others' (_ | he) hothers
          · exact .none
          · cases hothers with
            | some hothers => exact .some (.cons (.some he) hothers)
            | none => exact .none
        · rw [internRegisters, if_neg hnil]
          generalize internExpr t p = read
          obtain ⟨register, t⟩ := read
          cases register <;> rfl

theorem uniform_internAddress (p : Piece) :
    Uniform (fun t t' => Option.Rel (MachineOperand.Renamed t t')) (internAddress · p) := by
  unfold internAddress
  cases splitGroup p.text with
  | none => exact .pure fun _ _ => .none
  | some g =>
      obtain ⟨before, inner⟩ := g
      cases before with
      | nil => exact .pure fun _ _ => .none
      | cons c before =>
          let group : Piece := ⟨p.start.right ((c :: before).length + 1), inner⟩
          refine ((uniform_internExpr ⟨p.start, c :: before⟩).both
            (uniform_internRegisters (pieces group)) (internRegisters_grows · (pieces group))
            (fun displacement registers => displacement.toOption.bind fun d =>
              registers.bind (address? d)) ?_).congr fun t => ?_
          · rintro u u' displacement displacement' registers registers' (_ | hd) hregisters
            · exact .none
            · cases hregisters with
              | some hregisters => exact address?_renamed hd hregisters
              | none => exact .none
          · dsimp only
            generalize internExpr t _ = read
            obtain ⟨displacement, t⟩ := read
            generalize internRegisters t _ = read
            obtain ⟨registers, t⟩ := read
            cases displacement with
            | error d => rfl
            | ok d =>
                cases registers with
                | none => rfl
                | some registers =>
                    simp only [Except.toOption, Option.bind_some]
                    unfold address?
                    split <;> simp_all

theorem uniform_internMachineOperand (p : Piece) :
    Uniform (fun t t' => SameOutcome (MachineOperand.Renamed t t')) (internMachineOperand · p) := by
  have hexpr : Uniform (fun t t' => SameOutcome (MachineOperand.Renamed t t'))
      fun t => ((internExpr t p).1.map MachineOperand.expr, (internExpr t p).2) := by
    refine (uniform_internExpr p).map (Except.map MachineOperand.expr) ?_
    rintro u u' e e' (d | he)
    · exact .error d
    · exact .ok (.expr he)
  refine ((uniform_internAddress p).orElse hexpr).congr fun t => ?_
  rw [internMachineOperand]
  split
  · rename_i heq
    rw [heq]
  · rename_i heq
    rw [heq]
    dsimp only
    split <;> rename_i heq' <;> rw [heq'] <;> rfl

/-! ## Concatenations -/

theorem consText_renamed {t t' : NameTable} (cs : List Char) {c c' : Concatenation}
    (h : c.Renamed t t' c') : (consText cs c).Renamed t t' (consText cs c') := by
  cases h with
  | nil => exact .cons (.text _) .nil
  | cons hfirst h =>
      cases hfirst with
      | text s => exact .cons (.text _) h
      | reference hv => exact .cons (.text _) (.cons (.reference hv) h)
      | dot => exact .cons (.text _) (.cons .dot h)
      | equals => exact .cons (.text _) (.cons .equals h)
      | sublist hitems => exact .cons (.text _) (.cons (.sublist hitems) h)

mutual
theorem uniform_readFragments (stop : Position) (cs : List Char) :
    Uniform Concatenation.Renamed (readFragments stop · cs) := by
  cases firstFragment stop cs with
  | none => exact (Uniform.pure fun _ _ => .nil).congr fun t => by rw [readFragments]
  | @literal word after hne hread =>
      exact ((uniform_readFragments stop after).map (consText word) (consText_renamed word)).congr
        hread
  | @mark c after mark hmark hread =>
      refine ((uniform_readFragments stop after).map (mark :: ·) fun h => ?_).congr hread
      rcases hmark with rfl | rfl
      · exact .cons .dot h
      · exact .cons .equals h
  | @symbol rest v hscan hread =>
      exact ((uniform_readVariable stop _ v).both (uniform_readFragments stop v.after)
        (readFragments_grows stop · v.after) (fun symbol tail => .reference symbol :: tail)
        fun hv h => .cons (.reference hv) h).congr hread
  | @group rest inner after hgroup hread =>
      exact ((uniform_readItems _).both (uniform_readFragments stop after)
        (readFragments_grows stop · after) (fun items tail => .sublist items :: tail)
        fun hitems h => .cons (.sublist hitems) h).congr hread
  termination_by 2 * cs.length
  decreasing_by
    · simp [List.length_pos_iff.2 hne]
    · simp
    · have := VariableText.length_scan hscan
      simp
      omega
    · have := VariableText.length_scan hscan
      have := v.length_after_le
      simp
      omega
    · have := length_group? hgroup
      have := weight_group_le (placeOf stop after) inner
      simp
      omega
    · have := length_group? hgroup
      simp
      omega

theorem uniform_readVariable (stop start : Position) (v : VariableText) :
    Uniform VariableSymbol.Renamed (readVariable stop · start v) := by
  let close := placeOf stop v.after
  have hsub := uniform_readSubscript (v.subscriptPieces close)
  have hgrows (t : NameTable) := readSubscript_grows t (v.subscriptPieces close)
  by_cases hcreated : v.isCreated
  · have hname := uniform_readFragments
      { close with column := close.column - v.subscriptLength - 1 } v.name
    refine (hname.both hsub hgrows (fun name subscript => .created name subscript ⟨start, close⟩)
      fun hname hsub => .created _ hname hsub).congr fun t => ?_
    rw [readVariable, if_pos hcreated]
  · refine ((Uniform.insert (Text.upper (String.ofList v.name))).both hsub hgrows
      (fun name subscript => .named name subscript ⟨start, close⟩)
      fun hname hsub => .named _ hname hsub).congr fun t => ?_
    rw [readVariable, if_neg hcreated]
  termination_by 2 * v.length + 1
  decreasing_by
    · have := v.weight_subscriptPieces_le (placeOf stop v.after)
      omega
    · have : v.name.length ≤ v.length := by simp [VariableText.length]; omega
      omega

theorem uniform_readItems (ps : List Piece) :
    Uniform (fun t t' => List.Forall₂ (Concatenation.Renamed t t')) (readItems · ps) := by
  match ps with
  | [] => exact (Uniform.pure fun _ _ => .nil).congr fun t => by rw [readItems]
  | p :: rest =>
      refine ((uniform_readFragments p.stop p.text).both (uniform_readItems rest)
        (readItems_grows · rest) (· :: ·)
        fun hitem h => .cons hitem h).congr fun t => ?_
      rw [readItems]
  termination_by 2 * weight ps
  decreasing_by
    · simp
      omega
    · simp

theorem uniform_readSubscript (ps : List Piece) :
    Uniform (fun t t' => List.Forall₂ (Expr.Renamed t t')) (readSubscript · ps) := by
  match ps with
  | [] => exact (Uniform.pure fun _ _ => .nil).congr fun t => by rw [readSubscript]
  | p :: rest =>
      have hrest := uniform_readSubscript rest
      cases hint : Numeral.integer? p.text with
      | some i =>
          refine (hrest.map (Expr.number i p.range :: ·) fun h => .cons (.number i p.range) h).congr
            fun t => ?_
          rw [readSubscript, hint]
      | none =>
          let literal := Expr.text (String.ofList p.text) p.range
          cases hstart : startingVariable? p with
          | none =>
              refine (hrest.map (literal :: ·) fun h => .cons (.text _ _) h).congr fun t => ?_
              rw [readSubscript, hint]
              dsimp only
              split
              · rfl
              · simp_all
          | some v =>
              have hvariable := uniform_readVariable p.stop p.start v
              refine (hvariable.both hrest (readSubscript_grows · rest) (fun symbol exprs =>
                if v.after = [] then .reference symbol :: exprs else literal :: exprs)
                fun hv h => ?_).congr fun t => ?_
              · split
                · exact .cons (.reference hv) h
                · exact .cons (.text _ _) h
              · rw [readSubscript, hint]
                dsimp only
                split
                · simp_all
                · rename_i v' hv'
                  cases hstart.symm.trans hv'
                  rfl
  termination_by 2 * weight ps
  decreasing_by
    · simp
    · have := length_startingVariable hstart
      simp
      omega
end

/-! ## Operands -/

section

variable (form : OperandForm) (t : NameTable) {p : Piece}

/-- A piece without text is an empty operand. -/
theorem readOperand_of_nil (hnil : p.text = []) :
    readOperand form t p = (.ok (.empty p.range), t) := by
  unfold readOperand
  rw [if_pos hnil]

theorem readOperand_machine (hne : p.text ≠ []) :
    readOperand .machine t p =
      ((internMachineOperand t p).1.map (Operand.machine · p.range),
        (internMachineOperand t p).2) := by
  unfold readOperand
  rw [if_neg hne]
  dsimp only
  split <;> rename_i heq <;> rw [heq] <;> rfl

theorem readOperand_assembler (hne : p.text ≠ []) : readOperand .assembler t p =
    ((internExpr t p).1.map (Operand.expr · p.range), (internExpr t p).2) := by
  unfold readOperand
  rw [if_neg hne]
  dsimp only
  split <;> rename_i heq <;> rw [heq] <;> rfl

theorem readOperand_macroOperands (hne : p.text ≠ []) : readOperand .macroOperands t p =
    (.ok (.concatenation (readFragments p.stop t p.text).1 p.range),
      (readFragments p.stop t p.text).2) := by
  unfold readOperand
  rw [if_neg hne]
  rfl

/-- In the other forms nothing is read. -/
theorem readOperand_of_other (hmachine : form ≠ .machine) (hassembler : form ≠ .assembler)
    (hconcatenation : form ≠ .macroOperands) :
    readOperand form t p = (.ok (.empty p.range), t) := by
  unfold readOperand
  split
  · rfl
  · split <;> first | rfl | contradiction

end

theorem uniform_readOperand (form : OperandForm) (p : Piece) :
    Uniform (fun t t' => SameOutcome (Operand.Renamed t t')) (readOperand form · p) := by
  have hempty : Uniform (fun t t' => SameOutcome (Operand.Renamed t t'))
      fun t => (.ok (.empty p.range), t) := .pure fun _ _ => .ok (.empty p.range)
  by_cases hnil : p.text = []
  · exact hempty.congr fun t => readOperand_of_nil form t hnil
  · cases form with
    | machine =>
        refine ((uniform_internMachineOperand p).map (Except.map (Operand.machine · p.range))
          fun h => ?_).congr fun t => readOperand_machine t hnil
        cases h with
        | error d => exact .error d
        | ok hm => exact .ok (.machine _ hm)
    | assembler =>
        refine ((uniform_internExpr p).map (Except.map (Operand.expr · p.range))
          fun h => ?_).congr fun t => readOperand_assembler t hnil
        cases h with
        | error d => exact .error d
        | ok he => exact .ok (.expr _ he)
    | macroOperands =>
        exact ((uniform_readFragments p.stop p.text).map
          (fun c => Except.ok (Operand.concatenation c p.range))
          fun hc => .ok (.concatenation _ hc)).congr fun t => readOperand_macroOperands t hnil
    | _ => exact hempty.congr fun t => readOperand_of_other _ t (by simp) (by simp) (by simp)

/-- A text that spells an operand of the form. Every text spells an operand of a macro, and in the
forms in which nothing is read no text is a fault. -/
def Readable : OperandForm → List Char → Prop
  | .machine, cs => IsAddress cs ∨ Accepted cs
  | .assembler, cs => Accepted cs
  | _, _ => True

/-- What is readable gives an operand where it stands, and all else is a fault. -/
theorem readOperand_cases (form : OperandForm) (t : NameTable) {p : Piece} (hne : p.text ≠ [])
    (hblanks : Unspaced false p.text) :
    (Readable form p.text ∧ ∃ o, (readOperand form t p).1 = .ok o ∧ o.range = p.range) ∨
      (¬ Readable form p.text ∧ (readOperand form t p).1 = .error (invalidExpression p)) := by
  cases form with
  | machine =>
      rw [readOperand_machine t hne]
      by_cases hread : Readable .machine p.text
      · obtain ⟨m, hm⟩ : ∃ m, (internMachineOperand t p).1 = .ok m := by
          rcases hread with ⟨d, first, second, htext, hd, hfirst, hsecond⟩ | hexpr
          · obtain ⟨_, _, _, _, _, _, -, -, -, hm⟩ :=
              internMachineOperand_of_address htext hd hfirst hsecond t
            exact ⟨_, congrArg Prod.fst hm⟩
          · obtain ⟨e, t', he⟩ := hexpr.internExpr t
            exact ⟨_, congrArg Prod.fst (internMachineOperand_of_expr he)⟩
        rw [hm]
        exact .inl ⟨hread, _, rfl, rfl⟩
      · obtain ⟨haddress, hexpr⟩ := not_or.1 hread
        rw [internMachineOperand_of_neither hblanks haddress hexpr t]
        exact .inr ⟨hread, rfl⟩
  | assembler =>
      rw [readOperand_assembler t hne]
      by_cases hread : Accepted p.text
      · obtain ⟨e, t', he⟩ := hread.internExpr t
        rw [he]
        exact .inl ⟨hread, _, rfl, rfl⟩
      · rw [internExpr_of_not_accepted hread t]
        exact .inr ⟨hread, rfl⟩
  | macroOperands =>
      rw [readOperand_macroOperands t hne]
      exact .inl ⟨trivial, _, rfl, rfl⟩
  | _ =>
      rw [readOperand_of_other _ t (by simp) (by simp) (by simp)]
      exact .inl ⟨trivial, _, rfl, rfl⟩

/-! ## Fields -/

/-- The operands and the diagnostics of pieces, when each piece is read on its own. Nothing is an
empty operand; what is not readable is an empty operand and a fault; and all else is the operand of
the field that consists of the piece alone, up to the numbers of its names. -/
inductive ReadApart (form : OperandForm) (names : NameTable) :
    List Piece → List Operand → List Diagnostic → Prop where
  | nil : ReadApart form names [] [] []
  | omitted {p : Piece} {ps : List Piece} {os : List Operand} {ds : List Diagnostic} :
      p.text = [] → ReadApart form names ps os ds →
      ReadApart form names (p :: ps) (.empty p.range :: os) ds
  | fault {p : Piece} {ps : List Piece} {os : List Operand} {ds : List Diagnostic} :
      p.text ≠ [] → ¬ Readable form p.text → ReadApart form names ps os ds →
      ReadApart form names (p :: ps) (.empty p.range :: os) (invalidExpression p :: ds)
  | operand {p : Piece} {o : Operand} {ps : List Piece} {os : List Operand} {ds : List Diagnostic} :
      p.text ≠ [] → Readable form p.text → o.range = p.range →
      (∀ t, ∃ o' t', readField form t (String.ofList p.text) p.start = ([o'], [], t') ∧
        o'.Renamed t' names o) →
      ReadApart form names ps os ds → ReadApart form names (p :: ps) (o :: os) ds

theorem Splits.parts {done : List Char} {ps : List (Nat × List Char)} (h : Splits done ps)
    (hdone : AtTop done) (hblanks : Unspaced false (joined ps)) :
    ∀ q ∈ ps, NoTopComma [] q.2 ∧ Unspaced false q.2 := by
  induction h with
  | @last done text hno =>
      have htext : Unspaced false text := by simpa [joined, List.intercalate] using hblanks
      simpa using ⟨(noTopComma_append hdone).1 hno, htext⟩
  | @more done text rest hno htop hrest ih =>
      rw [joined_cons _ hrest.ne_nil, unspaced_append, ((atTop_append hdone).1 htop).1] at hblanks
      have hnext : AtTop (done ++ (text ++ [','])) := by
        rw [← List.append_assoc]
        exact atTop_comma htop
      exact List.forall_mem_cons.2
        ⟨⟨(noTopComma_append hdone).1 hno, hblanks.1⟩, ih hnext hblanks.2.2⟩

/-- A piece of a field is the only piece of itself. -/
theorem pieces_of_mem_pieces {field p : Piece} (h : p ∈ pieces field) (hne : p.text ≠ []) :
    pieces ⟨p.start, p.text⟩ = [p] ∧ Unspaced false p.text := by
  have hfield : field.text ≠ [] := by
    intro hnil
    rw [pieces, if_pos hnil] at h
    cases h
  obtain ⟨hsplits, hblanks, -⟩ := (split_eq_some_iff hfield).1 (split_eq field.text)
  rw [show field = ⟨field.start, field.text⟩ from rfl, pieces_eq] at h
  obtain ⟨q, hq, rfl⟩ := List.mem_map.1 h
  obtain ⟨hno, htext⟩ := hsplits.parts ⟨rfl, rfl⟩ hblanks q hq
  have halone : split q.2 = some [(0, q.2)] := by
    refine (split_eq_some_iff hne).2 ⟨.last hno, ?_⟩
    have hjoined : joined [(0, q.2)] = q.2 := by simp [joined, List.intercalate]
    rw [hjoined]
    exact ⟨htext, [], by simp, by simp⟩
  rw [split_eq, Option.some.injEq] at halone
  refine ⟨?_, htext⟩
  dsimp only
  rw [pieces_eq, halone]
  rfl

/-- The first piece gives its operand or its fault, whatever the others are. -/
theorem readOperands_cons (form : OperandForm) (t : NameTable) (p : Piece) (ps : List Piece) :
    readOperands form t (p :: ps) =
      let later := readOperands form (readOperand form t p).2 ps
      match (readOperand form t p).1 with
      | .ok o => (o :: later.1, later.2)
      | .error d => (.empty p.range :: later.1, d :: later.2.1, later.2.2) := by
  rcases hread : readOperand form t p with ⟨d | o, t'⟩ <;> simp only [readOperands, hread]

/-- A piece that is a field of its own. -/
theorem readField_alone {form : OperandForm} {t : NameTable} {p : Piece} {o : Operand}
    (hpieces : pieces ⟨p.start, p.text⟩ = [p]) (hread : (readOperand form t p).1 = .ok o) :
    readField form t (String.ofList p.text) p.start = ([o], [], (readOperand form t p).2) := by
  rw [readField, String.toList_ofList, hpieces, readOperands_cons, hread]
  rfl

theorem readApart_readOperands (form : OperandForm) {ps : List Piece}
    (h : ∀ p ∈ ps, p.text ≠ [] → pieces ⟨p.start, p.text⟩ = [p] ∧ Unspaced false p.text)
    {t names : NameTable} (hgrows : (readOperands form t ps).2.2.Grows names) :
    ReadApart form names ps (readOperands form t ps).1 (readOperands form t ps).2.1 := by
  induction ps generalizing t with
  | nil => exact .nil
  | cons p ps ih =>
      have hrest := ih (fun q hq => h q (List.mem_cons_of_mem _ hq)) (t := (readOperand form t p).2)
      have hlater := (readOperands_spec form (readOperand form t p).2 ps).1
      rw [readOperands_cons] at hgrows ⊢
      by_cases hnil : p.text = []
      · rw [readOperand_of_nil form t hnil] at hgrows hrest ⊢
        exact .omitted hnil (hrest hgrows)
      · obtain ⟨hpieces, hblanks⟩ := h p List.mem_cons_self hnil
        rcases readOperand_cases form t hnil hblanks with ⟨hreadable, o, hread, hrange⟩ |
          ⟨hfault, hread⟩
        · rw [hread] at hgrows ⊢
          refine .operand hnil hreadable hrange (fun t₀ => ?_) (hrest hgrows)
          have hsame := uniform_readOperand form p t₀ t _ names (.refl _) (hlater.trans hgrows)
          dsimp only at hsame
          rw [hread] at hsame
          generalize halone : (readOperand form t₀ p).1 = x at hsame
          cases hsame with
          | @ok o' _ ho => exact ⟨o', _, readField_alone hpieces halone, ho⟩
        · rw [hread] at hgrows ⊢
          exact .fault hnil hfault (hrest hgrows)

/-- The operands of a field are read one by one. -/
theorem readApart_readField (form : OperandForm) (t : NameTable) (text : String)
    (start : Position) :
    ReadApart form (readField form t text start).2.2 (pieces ⟨start, text.toList⟩)
      (readField form t text start).1 (readField form t text start).2.1 :=
  readApart_readOperands form (fun _ => pieces_of_mem_pieces) (.refl _)

theorem ReadApart.ranges_eq {form : OperandForm} {names : NameTable} {ps : List Piece}
    {os : List Operand} {ds : List Diagnostic} (h : ReadApart form names ps os ds) :
    os.map Operand.range = ps.map Piece.range := by
  induction h with
  | nil => rfl
  | omitted _ _ ih | fault _ _ _ ih => rw [List.map_cons, List.map_cons, ih, Operand.range]
  | operand _ _ hrange _ _ ih => rw [List.map_cons, List.map_cons, ih, hrange]

theorem intercalate_ne_nil {texts : List (List Char)} (hne : texts ≠ []) (hne' : texts ≠ [[]]) :
    [','].intercalate texts ≠ [] := by
  cases texts with
  | nil => exact absurd rfl hne
  | cons text texts =>
      cases texts with
      | nil => simpa using hne'
      | cons text' texts => simp [List.intercalate]

/-- Splitting a field loses nothing and invents nothing. The pieces of a field with commas between
them are the field up to its first blank outside of apostrophes, each piece has the number of
characters in front of it, and none has a comma to split at. Texts that are whole are the pieces of
the field that they make up with commas between them. And a field gives one operand for each piece,
where the piece stands, as if each piece were read on its own. -/
theorem split_lossless :
    (∀ (field : List Char) (start : Position), field ≠ [] → ∃ ps, split field = some ps ∧
      pieces ⟨start, field⟩ = ps.map (fun q => ⟨start.right q.1, q.2⟩) ∧
      UpToBlank field (joined ps) ∧ Splits [] ps) ∧
    (∀ (texts : List (List Char)) (start : Position), texts ≠ [] → texts ≠ [[]] →
      (∀ text ∈ texts, Whole text) →
      split ([','].intercalate texts) = some (number 0 texts) ∧
        (pieces ⟨start, [','].intercalate texts⟩).map Piece.text = texts) ∧
    ∀ (form : OperandForm) (t : NameTable) (field : String) (start : Position),
      (readField form t field start).1.map Operand.range =
          (pieces ⟨start, field.toList⟩).map Piece.range ∧
        ReadApart form (readField form t field start).2.2 (pieces ⟨start, field.toList⟩)
          (readField form t field start).1 (readField form t field start).2.1 := by
  refine ⟨fun field start hne => ?_, fun texts start hne hne' hwhole => ?_,
    fun form t field start => ?_⟩
  · obtain ⟨hsplits, htaken⟩ := (split_eq_some_iff hne).1 (split_eq field)
    exact ⟨numberedPieces field, split_eq field, pieces_eq start field, htaken, hsplits⟩
  · have hsplit := split_intercalate (intercalate_ne_nil hne hne') hwhole
    refine ⟨hsplit, ?_⟩
    rw [split_eq, Option.some.injEq] at hsplit
    rw [pieces_eq, hsplit, List.map_map]
    exact map_snd_number 0 texts
  · have hapart := readApart_readField form t field start
    exact ⟨hapart.ranges_eq, hapart⟩

/-- More parentheses are closed than opened, so that the last two commas split nothing, and the
field ends in front of the remark. -/
def accentedField : List Char := "Ä,&B('é, )',1)),C,D note".toList

/-- A group, nothing, and a quoted blank. -/
def wholeTexts : List (List Char) := ["B(1,2)".toList, [], "'é, x'".toList]

theorem split_lossless_accentedField :
    split accentedField = some [(0, ['Ä']), (2, "&B('é, )',1)),C,D".toList)] ∧
      Splits [] [(0, ['Ä']), (2, "&B('é, )',1)),C,D".toList)] ∧
      UpToBlank accentedField "Ä,&B('é, )',1)),C,D".toList ∧
      (∀ text ∈ wholeTexts, Whole text) ∧
      split "B(1,2),,'é, x'".toList = some (number 0 wholeTexts) := by
  have hsplit : split accentedField = some [(0, ['Ä']), (2, "&B('é, )',1)),C,D".toList)] := by
    decide +kernel
  have hwhole : ∀ text ∈ wholeTexts, Whole text := by
    have hgroup : Balanced false "B(1,2)".toList :=
      .plain (by decide) (@Balanced.group false "1,2".toList []
        (.plain (by decide) (.comma (.plain (by decide) (.nil true)))) (.nil false))
    have hquoted : Balanced false "'é, x'".toList :=
      @Balanced.quoted false "é, x".toList [] (by decide) (.nil false)
    simpa [wholeTexts] using ⟨hgroup.whole, (Balanced.nil false).whole, hquoted.whole⟩
  obtain ⟨hpieces, hjoin, -⟩ := split_lossless
  obtain ⟨ps, hps, -, htaken, hsplits⟩ := hpieces accentedField {} (by decide)
  obtain rfl := Option.some.inj (hsplit.symm.trans hps)
  obtain ⟨htexts, -⟩ := hjoin wholeTexts {} (by decide) (by decide) hwhole
  have hjoined : [','].intercalate wholeTexts = "B(1,2),,'é, x'".toList := by decide +kernel
  rw [hjoined] at htexts
  exact ⟨hsplit, hsplits, htaken, hwhole, htexts⟩

end Field

end MacroAssembler
