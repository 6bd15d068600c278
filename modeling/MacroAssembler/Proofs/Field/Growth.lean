import MacroAssembler.Field.Reading
import MacroAssembler.Proofs.Names

/-!
# Reading lets names grow

Whatever is read, the name table only grows, and operands that are no expressions are all that
reading complains of (`Statement.read_spec`). A text that is read again with a later table gives the
same expression (`OrdinaryExpr.intern_of_grows`), because all its names are known by then.
-/

namespace MacroAssembler

/-- No diagnostic tells of a circle. -/
def Plain (ds : List Diagnostic) : Prop := ∀ d ∈ ds, d.code ≠ .circularDependency

@[simp] theorem plain_nil : Plain [] := by simp [Plain]

@[simp] theorem plain_cons {d : Diagnostic} {ds : List Diagnostic} :
    Plain (d :: ds) ↔ d.code ≠ .circularDependency ∧ Plain ds := by
  simp [Plain]

@[simp] theorem plain_append {ds ds' : List Diagnostic} :
    Plain (ds ++ ds') ↔ Plain ds ∧ Plain ds' := by
  simp [Plain, or_imp, forall_and]

/-- Every diagnostic has one of the given codes. -/
def Among (codes : List DiagnosticCode) (ds : List Diagnostic) : Prop := ∀ d ∈ ds, d.code ∈ codes

section Among

variable {codes codes' : List DiagnosticCode} {d : Diagnostic} {ds ds' : List Diagnostic}

@[simp] theorem among_nil : Among codes [] := by simp [Among]

@[simp] theorem among_cons : Among codes (d :: ds) ↔ d.code ∈ codes ∧ Among codes ds := by
  simp [Among]

@[simp] theorem among_append : Among codes (ds ++ ds') ↔ Among codes ds ∧ Among codes ds' := by
  simp [Among, or_imp, forall_and]

/-- More codes can be allowed. -/
theorem Among.mono (h : Among codes ds) (hcodes : codes ⊆ codes') : Among codes' ds :=
  fun d hd => hcodes (h d hd)

/-- Codes that tell of no circle. -/
theorem Among.plain (h : Among codes ds) (hcodes : .circularDependency ∉ codes) : Plain ds :=
  fun d hd heq => hcodes (heq ▸ h d hd)

end Among

namespace OrdinaryExpr

/-- Numbering the names of an expression lets the table grow. -/
theorem intern_grows (e : OrdinaryExpr String) (t : NameTable) : t.Grows (e.intern t).2 := by
  induction e generalizing t with
  | constant => exact .refl t
  | symbol n => exact t.insert_grows n
  | negate e _ ih => exact ih t
  | binary op l r _ ihl ihr => exact (ihl t).trans (ihr _)

/-- An expression has the same numbers in every later table. -/
theorem intern_of_grows {e : OrdinaryExpr String} {t t' : NameTable}
    (h : (e.intern t).2.Grows t') : e.intern t' = ((e.intern t).1, t') := by
  induction e generalizing t with
  | constant => rfl
  | symbol n =>
      have hfind := h.find? (t.find?_insert n)
      simp [intern, NameTable.insert_of_find? hfind]
  | negate e _ ih => simp [intern, ih (t := t) h]
  | binary op l r _ ihl ihr =>
      have hl := ihl (((r.intern_grows _).trans h : (l.intern t).2.Grows t'))
      simp [intern, hl, ihr (t := (l.intern t).2) h]

end OrdinaryExpr

namespace Field

open Conditional (Fragment)

/-- Numbering names one after the other lets the table grow. -/
theorem foldl_insert_grows (seen : List String) (t : NameTable) :
    t.Grows (seen.foldl (fun t n => (t.insert n).2) t) := by
  induction seen generalizing t with
  | nil => exact .refl t
  | cons n seen ih => exact (t.insert_grows n).trans (ih _)

theorem internExpr_grows (t : NameTable) (p : Piece) : t.Grows (internExpr t p).2 := by
  unfold internExpr
  split
  · exact OrdinaryExpr.intern_grows _ t
  · exact foldl_insert_grows _ t

theorem internRegisters_grows (t : NameTable) (ps : List Piece) :
    t.Grows (internRegisters t ps).2 := by
  induction ps generalizing t with
  | nil => exact .refl t
  | cons p ps ih =>
      unfold internRegisters
      split
      · exact ih t
      · dsimp only
        split
        · exact (internExpr_grows t p).trans (ih _)
        · exact (internExpr_grows t p).trans (ih _)

theorem internAddress_grows (t : NameTable) (p : Piece) : t.Grows (internAddress t p).2 := by
  unfold internAddress
  split
  · exact .refl t
  · exact .refl t
  · dsimp only
    split <;> exact (internExpr_grows t _).trans (internRegisters_grows _ _)

theorem internMachineOperand_grows (t : NameTable) (p : Piece) :
    t.Grows (internMachineOperand t p).2 := by
  have haddress := internAddress_grows t p
  unfold internMachineOperand
  split
  · rename_i heq
    rwa [heq] at haddress
  · rename_i names heq
    rw [heq] at haddress
    have hexpr := internExpr_grows names p
    split <;> rename_i heq' <;> rw [heq'] at hexpr <;> exact haddress.trans hexpr

/-! ## Concatenations -/

/-- How a text is read from its start, whichever names are known: by its first fragment and what is
read of the text behind it. -/
inductive FirstFragment (stop : Position) : List Char → Prop where
  | none : FirstFragment stop []
  | literal {word after : List Char} : word ≠ [] →
      (∀ t, readFragments stop t (word ++ after) =
        (consText word (readFragments stop t after).1, (readFragments stop t after).2)) →
      FirstFragment stop (word ++ after)
  | mark {c : Char} {after : List Char} {mark : Fragment} : mark = .dot ∨ mark = .equals →
      (∀ t, readFragments stop t (c :: after) =
        (mark :: (readFragments stop t after).1, (readFragments stop t after).2)) →
      FirstFragment stop (c :: after)
  | symbol {rest : List Char} {v : VariableText} : VariableText.scan rest = some v →
      (∀ t, readFragments stop t ('&' :: rest) =
        let (symbol, t) := readVariable stop t (placeOf stop ('&' :: rest)) v
        (.reference symbol :: (readFragments stop t v.after).1, (readFragments stop t v.after).2)) →
      FirstFragment stop ('&' :: rest)
  | group {rest inner after : List Char} : group? rest = some (inner, after) →
      (∀ t, readFragments stop t ('(' :: rest) =
        let (items, t) := readItems t (pieces (groupPiece (placeOf stop after) inner))
        (.sublist items :: (readFragments stop t after).1, (readFragments stop t after).2)) →
      FirstFragment stop ('(' :: rest)

/-- Every text is read so. -/
theorem firstFragment (stop : Position) (cs : List Char) : FirstFragment stop cs := by
  cases cs with
  | nil => exact .none
  | cons c rest =>
      by_cases hampersand : c = '&'
      · subst hampersand
        by_cases hhead : rest.head? = some '&'
        · obtain ⟨rest, rfl⟩ := List.head?_eq_some_iff.1 hhead
          refine @FirstFragment.literal stop ['&', '&'] _ (by simp) fun t => ?_
          rw [List.cons_append, readFragments, if_pos rfl, if_pos (by simp)]
          rfl
        · cases hscan : VariableText.scan rest with
          | some v =>
              refine .symbol hscan fun t => ?_
              rw [readFragments, if_pos rfl, if_neg hhead]
              split
              · rename_i v' hv'
                cases hscan.symm.trans hv'
                rfl
              · simp_all
          | none =>
              refine @FirstFragment.literal stop ['&'] _ (by simp) fun t => ?_
              rw [List.cons_append, readFragments, if_pos rfl, List.nil_append, if_neg hhead]
              split
              · simp_all
              · rfl
      by_cases hdot : c = '.'
      · refine .mark (.inl rfl) fun t => ?_
        rw [readFragments, if_neg hampersand, if_pos hdot]
      by_cases hequals : c = '='
      · refine .mark (.inr rfl) fun t => ?_
        rw [readFragments, if_neg hampersand, if_neg hdot, if_pos hequals]
      by_cases hopen : c = '('
      · subst hopen
        cases hgroup : group? rest with
        | some g =>
            refine .group hgroup fun t => ?_
            rw [readFragments, if_neg hampersand, if_neg hdot, if_neg hequals, if_pos rfl]
            split
            · rename_i inner after hg
              cases hgroup.symm.trans hg
              rfl
            · simp_all
        | none =>
            refine @FirstFragment.literal stop ['('] _ (by simp) fun t => ?_
            rw [List.cons_append, readFragments, if_neg hampersand, if_neg hdot, if_neg hequals,
              if_pos rfl, List.nil_append]
            split
            · simp_all
            · rfl
      by_cases hquote : c = '\''
      · have hwhole : c :: rest = (c :: (takeQuoted rest).1) ++ (takeQuoted rest).2 := by
          rw [List.cons_append, takeQuoted_append]
        rw [hwhole]
        refine .literal (by simp) fun t => ?_
        rw [← hwhole, readFragments, if_neg hampersand, if_neg hdot, if_neg hequals, if_neg hopen,
          if_pos hquote]
      · refine @FirstFragment.literal stop [c] _ (by simp) fun t => ?_
        rw [List.cons_append, readFragments, if_neg hampersand, if_neg hdot, if_neg hequals,
          if_neg hopen, if_neg hquote, List.nil_append]

mutual
/-- Reading a concatenation lets the table grow. -/
theorem readFragments_grows (stop : Position) (t : NameTable) (cs : List Char) :
    t.Grows (readFragments stop t cs).2 := by
  cases firstFragment stop cs with
  | none =>
      rw [readFragments]
      exact .refl t
  | @literal word after hne hread =>
      rw [hread]
      exact readFragments_grows stop t after
  | @mark c after f _ hread =>
      rw [hread]
      exact readFragments_grows stop t after
  | @symbol rest v hscan hread =>
      rw [hread]
      exact (readVariable_grows stop t _ v).trans (readFragments_grows stop _ v.after)
  | @group rest inner after hgroup hread =>
      rw [hread]
      exact (readItems_grows t _).trans (readFragments_grows stop _ after)
  termination_by 2 * cs.length
  decreasing_by
    · simp [List.length_pos_iff.2 hne]
    · simp
    · have := VariableText.length_scan hscan
      simp
      omega
    · have := VariableText.length_scan hscan
      have := v.length_after_le
      simp
      omega
    · have := length_group? hgroup
      have := weight_group_le (placeOf stop after) inner
      simp
      omega
    · have := length_group? hgroup
      simp
      omega

theorem readVariable_grows (stop : Position) (t : NameTable) (start : Position) (v : VariableText) :
    t.Grows (readVariable stop t start v).2 := by
  rw [readVariable]
  dsimp only
  split
  · exact (readFragments_grows _ t v.name).trans (readSubscript_grows _ _)
  · exact (t.insert_grows _).trans (readSubscript_grows _ _)
  termination_by 2 * v.length + 1
  decreasing_by
    · have := v.weight_subscriptPieces_le (placeOf stop v.after)
      omega
    · have : v.name.length ≤ v.length := by simp [VariableText.length]; omega
      omega
    · have := v.weight_subscriptPieces_le (placeOf stop v.after)
      omega

theorem readItems_grows (t : NameTable) (ps : List Piece) : t.Grows (readItems t ps).2 := by
  match ps with
  | [] =>
      rw [readItems]
      exact .refl t
  | p :: rest =>
      rw [readItems]
      exact (readFragments_grows p.stop t p.text).trans (readItems_grows _ rest)
  termination_by 2 * weight ps
  decreasing_by
    · simp
      omega
    · simp

theorem readSubscript_grows (t : NameTable) (ps : List Piece) : t.Grows (readSubscript t ps).2 := by
  match ps with
  | [] =>
      rw [readSubscript]
      exact .refl t
  | p :: rest =>
      rw [readSubscript]
      dsimp only
      split
      · exact readSubscript_grows t rest
      · split
        · exact readSubscript_grows t rest
        · exact (readVariable_grows p.stop t p.start _).trans (readSubscript_grows _ rest)
  termination_by 2 * weight ps
  decreasing_by
    · simp
    · simp
    · rename_i hstart
      have := length_startingVariable hstart
      simp
      omega
    · simp
end

/-! ## Fields -/

/-- Reading a name field lets the table grow. -/
theorem readLabel_grows (t : NameTable) (text : String) (range : Range) :
    t.Grows (readLabel t text range).2 := by
  unfold readLabel
  split
  · exact .refl t
  · exact t.insert_grows _
  · split
    · have hread := readFragments_grows (Piece.stop ⟨range.start, text.toList⟩) t text.toList
      split <;> rename_i heq <;> exact congrArg Prod.snd heq ▸ hread
    · exact t.insert_grows _

/-- Reading an operation field lets the table grow. -/
theorem readOperation_grows (t : NameTable) (text : String) (range : Range) :
    t.Grows (readOperation t text range).2 := by
  unfold readOperation
  split
  · exact .refl t
  · split
    · exact readFragments_grows _ t _
    · exact t.insert_grows _

/-- The diagnostic of a piece that is no expression. -/
theorem code_internExpr {t : NameTable} {p : Piece} {d : Diagnostic}
    (h : (internExpr t p).1 = .error d) : d.code = .invalidExpression := by
  unfold internExpr at h
  split at h
  · simp at h
  · cases h
    rfl

theorem code_internMachineOperand {t : NameTable} {p : Piece} {d : Diagnostic}
    (h : (internMachineOperand t p).1 = .error d) : d.code = .invalidExpression := by
  unfold internMachineOperand at h
  split at h
  · simp at h
  · split at h
    · simp at h
    · rename_i heq
      cases h
      exact code_internExpr (congrArg Prod.fst heq)

/-- Reading an operand lets the table grow. -/
theorem readOperand_grows (form : OperandForm) (t : NameTable) (p : Piece) :
    t.Grows (readOperand form t p).2 := by
  unfold readOperand
  split
  · exact .refl t
  · split
    · have h := internMachineOperand_grows t p
      split <;> rename_i heq <;> rwa [heq] at h
    · have h := internExpr_grows t p
      split <;> rename_i heq <;> rwa [heq] at h
    · exact readFragments_grows _ t _
    · exact .refl t

theorem code_readOperand {form : OperandForm} {t : NameTable} {p : Piece} {d : Diagnostic}
    (h : (readOperand form t p).1 = .error d) : d.code = .invalidExpression := by
  unfold readOperand at h
  split at h
  · simp at h
  · split at h
    · split at h
      · simp at h
      · rename_i heq
        cases h
        exact code_internMachineOperand (congrArg Prod.fst heq)
    · split at h
      · simp at h
      · rename_i heq
        cases h
        exact code_internExpr (congrArg Prod.fst heq)
    · simp at h
    · simp at h

/-- Reading operands lets the table grow, and complains of those that are no expressions. -/
theorem readOperands_spec (form : OperandForm) (t : NameTable) (ps : List Piece) :
    t.Grows (readOperands form t ps).2.2 ∧
      Among [.invalidExpression] (readOperands form t ps).2.1 := by
  induction ps generalizing t with
  | nil => exact ⟨.refl t, among_nil⟩
  | cons p ps ih =>
      obtain ⟨hgrows, hamong⟩ := ih (readOperand form t p).2
      have hfirst := readOperand_grows form t p
      unfold readOperands
      dsimp only
      split
      · exact ⟨hfirst.trans hgrows, hamong⟩
      · rename_i d heq
        exact ⟨hfirst.trans hgrows, among_cons.2 ⟨by simp [code_readOperand heq], hamong⟩⟩

end Field

namespace Statement

variable (s : Statement OperandField) (form : OperandForm) (t : NameTable)

/-- Reading the operands of a statement lets the table grow, and complains of those that are no
expressions. -/
theorem read_spec :
    t.Grows (s.read form t).2.2 ∧ Among [.invalidExpression] (s.read form t).2.1 := by
  unfold Statement.read
  split
  · exact ⟨.refl t, among_nil⟩
  · exact Field.readOperands_spec form t _

@[simp] theorem label_read : (s.read form t).1.label = s.label := by
  unfold Statement.read
  split <;> rfl

@[simp] theorem opcode_read : (s.read form t).1.opcode = s.opcode := by
  unfold Statement.read
  split <;> rfl

@[simp] theorem range_read : (s.read form t).1.range = s.range := by
  unfold Statement.read
  split <;> rfl

end Statement

/-- Making a statement of its fields lets the table grow. -/
theorem SourceStatement.toStatement_grows (s : SourceStatement) (line : Nat) (t : NameTable) :
    t.Grows (s.toStatement line t).2 :=
  (Field.readLabel_grows t _ _).trans (Field.readOperation_grows _ _ _)

end MacroAssembler
