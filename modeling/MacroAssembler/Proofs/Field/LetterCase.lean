import MacroAssembler.Proofs.Field.Balance
import MacroAssembler.Proofs.Field.IndexedExpression

/-!
# Letter case in operands

Two texts that differ in the case of letters outside of apostrophes are read alike: the same names
are learned from them, and the same expressions are found in them at the same places. An operand
with a group at its end is read twice, and the group may start inside of apostrophes; of such a
group nothing but the names remains, because what stands in front of it is no expression
(`internAddress_eq`).
-/

namespace MacroAssembler

/-- The code and the range of a diagnostic, which say everything but its arguments. -/
def Diagnostic.gist (d : Diagnostic) : DiagnosticCode × Range := (d.code, d.range)

/-- Numbering the names of an expression makes the table learn them. -/
theorem OrdinaryExpr.intern_snd (e : OrdinaryExpr String) (t : NameTable) :
    (e.intern t).2 = e.names.foldl (fun t n => (t.insert n).2) t := by
  induction e generalizing t with
  | constant => rfl
  | symbol => rfl
  | negate e _ ih => exact ih t
  | binary op l r _ ihl ihr =>
      rw [names, List.foldl_append, ← ihl, ← ihr]
      rfl

namespace Field

open Text (Alike)

/-- The same is read, or there are two faults of the same gist; and the same names are learned. -/
inductive ReadAlike {α : Type} :
    Except Diagnostic α × NameTable → Except Diagnostic α × NameTable → Prop where
  | ok (a : α) (t : NameTable) : ReadAlike (.ok a, t) (.ok a, t)
  | error {d d' : Diagnostic} (t : NameTable) : d.gist = d'.gist →
      ReadAlike (.error d, t) (.error d', t)

section

variable {exact : Bool} {p p' : Piece} {ps ps' : List Piece}

/-- The same names are learned from twins. -/
theorem internExpr_names (h : TwinPieces exact p p') (t : NameTable) :
    (internExpr t p).2 = (internExpr t p').2 := by
  unfold internExpr
  rcases readExpr_twins h with ⟨names, hx, hy⟩ | ⟨e, e', hx, hy, he⟩ <;> rw [hx, hy]
  dsimp only
  rw [e.intern_snd, e'.intern_snd, he.names]

/-- Twins outside of apostrophes spell the same expression, or have the same fault. -/
theorem internExpr_readAlike (h : TwinPieces true p p') (t : NameTable) :
    ReadAlike (internExpr t p) (internExpr t p') := by
  unfold internExpr
  rcases readExpr_twins h with ⟨names, hx, hy⟩ | ⟨e, e', hx, hy, he⟩ <;> rw [hx, hy]
  · exact .error _ (congrArg (DiagnosticCode.invalidExpression, ·) h.range_eq)
  · rw [he.eq rfl]
    exact .ok _ _

/-- The same names are learned from the registers of twins. -/
theorem internRegisters_names (h : List.Forall₂ (TwinPieces exact) ps ps') (t : NameTable) :
    (internRegisters t ps).2 = (internRegisters t ps').2 := by
  induction h generalizing t with
  | nil => rfl
  | @cons p p' ps ps' hp hps ih =>
      have hfirst := internExpr_names hp t
      unfold internRegisters
      simp only [hp.nil_congr]
      split
      · exact ih t
      · generalize internExpr t p = first at hfirst ⊢
        generalize internExpr t p' = first' at hfirst ⊢
        obtain ⟨x, t₁⟩ := first
        obtain ⟨x', t₁'⟩ := first'
        obtain rfl : t₁ = t₁' := hfirst
        dsimp only
        split <;> split <;> exact ih t₁

/-- Twins outside of apostrophes have the same registers. -/
theorem internRegisters_eq (h : List.Forall₂ (TwinPieces true) ps ps') (t : NameTable) :
    internRegisters t ps = internRegisters t ps' := by
  induction h generalizing t with
  | nil => rfl
  | @cons p p' ps ps' hp hps ih =>
      have hfirst := internExpr_readAlike hp t
      unfold internRegisters
      simp only [hp.nil_congr]
      split
      · rw [ih t]
      · generalize internExpr t p = first at hfirst ⊢
        generalize internExpr t p' = first' at hfirst ⊢
        cases hfirst with
        | ok e t₁ => rw [ih t₁]
        | error t₁ => rw [ih t₁]

end

/-! ## Groups and pieces -/

/-- Two texts and the texts behind them differ in letter case at most. -/
abbrev AlikeParts (g g' : List Char × List Char) : Prop := Alike g.1 g'.1 ∧ Alike g.2 g'.2

theorem AlikeParts.cons {x y : Option (List Char × List Char)} (h : Option.Rel AlikeParts x y)
    {c d : Char} (hupper : c.toUpper = d.toUpper) :
    Option.Rel AlikeParts (x.map fun g => (c :: g.1, g.2)) (y.map fun g => (d :: g.1, g.2)) := by
  cases h with
  | none => exact .none
  | some hg => exact .some ⟨.cons hupper hg.1, hg.2⟩

/-- A group in one of two texts that differ in letter case is a group in the other. -/
theorem takeGroup_alike {cs ds : List Char} (h : Alike cs ds) (depth : Nat) (quoted : Bool) :
    Option.Rel AlikeParts (takeGroup depth quoted cs) (takeGroup depth quoted ds) := by
  induction h generalizing depth quoted with
  | nil => exact .none
  | @cons c d cs ds hupper hrest ih =>
      have hsign {x : Char} (hx : x.isAlpha = false) := Text.sign_congr hupper hx
      unfold takeGroup
      simp only [hsign (x := '\'') rfl, hsign (x := '(') rfl, hsign (x := ')') rfl]
      split
      · exact AlikeParts.cons (ih depth _) hupper
      split
      · exact AlikeParts.cons (ih depth quoted) hupper
      split
      · exact AlikeParts.cons (ih (depth + 1) quoted) hupper
      split
      · cases depth with
        | zero => exact .some ⟨.nil, hrest⟩
        | succ depth => exact AlikeParts.cons (ih depth quoted) hupper
      · exact AlikeParts.cons (ih depth quoted) hupper

theorem group?_alike {cs ds : List Char} (h : Alike cs ds) :
    Option.Rel AlikeParts (group? cs) (group? ds) :=
  takeGroup_alike h 0 false

/-- A group ends both of two texts that differ in letter case, or none of them. -/
theorem splitGroup_alike {cs ds : List Char} (h : Alike cs ds) :
    Option.Rel AlikeParts (splitGroup cs) (splitGroup ds) := by
  induction h with
  | nil => exact .none
  | @cons c d cs ds hupper hrest ih =>
      have hopen : (c = '(') = (d = '(') := Text.sign_congr hupper rfl
      have hgroup := group?_alike hrest
      have hlater := AlikeParts.cons ih hupper
      unfold splitGroup
      simp only [hopen]
      split
      · generalize group? cs = x at hgroup
        generalize group? ds = y at hgroup
        cases hgroup with
        | none => exact hlater
        | @some g g' hg =>
            obtain ⟨inner, after⟩ := g
            obtain ⟨inner', after'⟩ := g'
            obtain ⟨hinner, hafter⟩ := hg
            cases hafter with
            | nil => exact .some ⟨.nil, hinner⟩
            | cons => exact hlater
      · exact hlater

/-- Twins are cut at the same commas. -/
theorem cut_twins {exact quoted : Bool} {cs ds : List Char} (h : Twins exact quoted cs ds)
    (depth : Int) : ∃ first others first' others', cut depth quoted cs = first :: others ∧
      cut depth quoted ds = first' :: others' ∧ Twins exact quoted first first' ∧
      List.Forall₂ (Twins exact false) others others' := by
  induction h generalizing depth with
  | nil quoted => exact ⟨[], [], [], [], rfl, rfl, .nil quoted, .nil⟩
  | @cons quoted c d cs ds hupper hsame hrest ih =>
      have hsign {x : Char} (hx : x.isAlpha = false) := Text.sign_congr hupper hx
      -- the first piece goes on with this character
      have hgrow (depth : Int) : ∃ first others first' others',
          consFirst c (cut depth (quotedBehind quoted c) cs) = first :: others ∧
          consFirst d (cut depth (quotedBehind quoted c) ds) = first' :: others' ∧
          Twins exact quoted first first' ∧ List.Forall₂ (Twins exact false) others others' := by
        obtain ⟨first, others, first', others', hx, hy, hfirst, hothers⟩ := ih depth
        obtain ⟨behind, hbehind, -⟩ := exists_of_cut hx
        refine ⟨c :: first, others, d :: first', others', by rw [hx, consFirst],
          by rw [hy, consFirst],
          .cons hupper (fun hexact hquoted hmem => hsame hexact hquoted ?_) hfirst, hothers⟩
        rw [hbehind]
        exact List.mem_append_left _ hmem
      unfold cut
      simp only [hsign (x := '\'') rfl, hsign (x := '(') rfl, hsign (x := ')') rfl,
        hsign (x := ',') rfl, hsign (x := ' ') rfl]
      split
      · rename_i hd
        have hbehind : quotedBehind quoted c = !quoted := if_pos ((hsign rfl).mpr hd)
        rw [hbehind] at hgrow
        exact hgrow depth
      rename_i hd
      have hbehind : quotedBehind quoted c = quoted :=
        quotedBehind_of_ne (mt (hsign rfl).mp hd)
      rw [hbehind] at hgrow ih
      split
      · exact hgrow depth
      rename_i hquoted
      obtain rfl : quoted = false := by simpa using hquoted
      split
      · exact hgrow (depth + 1)
      split
      · exact hgrow (depth - 1)
      split
      · obtain ⟨first, others, first', others', hx, hy, hfirst, hothers⟩ := ih depth
        exact ⟨[], first :: others, [], first' :: others', by rw [hx], by rw [hy], .nil false,
          .cons hfirst hothers⟩
      split
      · exact ⟨[], [], [], [], rfl, rfl, .nil false, .nil⟩
      · exact hgrow depth

/-- Twins have twin pieces. -/
theorem pieces_twins {exact : Bool} {field field' : Piece} (h : TwinPieces exact field field') :
    List.Forall₂ (TwinPieces exact) (pieces field) (pieces field') := by
  have hlocate {texts texts' : List (List Char)}
      (htexts : List.Forall₂ (Twins exact false) texts texts') (start : Position) :
      List.Forall₂ (TwinPieces exact) (locate start texts) (locate start texts') := by
    induction htexts generalizing start with
    | nil => exact .nil
    | cons htext _ ih =>
        rw [locate, locate, ← htext.length_eq]
        exact .cons ⟨rfl, htext⟩ (ih _)
  obtain ⟨first, others, first', others', hx, hy, hfirst, hothers⟩ := cut_twins h.text 0
  unfold pieces
  simp only [h.nil_congr, h.start, hx, hy]
  split
  · exact .nil
  · exact hlocate (.cons hfirst hothers) _

/-! ## Operands -/

/-- The apostrophes in a piece that spells an expression come in pairs. -/
theorem quotedAfter_of_internExpr {p : Piece} {t : NameTable} {e : OrdinaryExpr NameId}
    (h : (internExpr t p).1 = .ok e) : quotedAfter false p.text = false := by
  unfold internExpr at h
  split at h
  · rename_i hread
    exact ((readExpr_derives hread).balanced false).quotedAfter_eq false
  · cases h

/-- The parts of twins that end in groups are twins, where the walk over the text inside of the
group starts behind the text in front of it. -/
theorem splitGroup_twins {exact : Bool} {cs ds before inner : List Char}
    (h : Twins exact false cs ds) (hsplit : splitGroup cs = some (before, inner)) :
    ∃ before' inner', splitGroup ds = some (before', inner') ∧ Twins exact false before before' ∧
      Twins exact (quotedAfter false before) inner inner' := by
  have halike := splitGroup_alike h.alike
  rw [hsplit] at halike
  cases hsplit' : splitGroup ds with
  | none =>
      rw [hsplit'] at halike
      cases halike
  | some g =>
      obtain ⟨before', inner'⟩ := g
      rw [hsplit'] at halike
      obtain ⟨hbefore, hinner⟩ := Option.rel_some_some.1 halike
      rw [splitGroup_eq hsplit, splitGroup_eq hsplit'] at h
      obtain ⟨hfirst, hgroup⟩ := h.split hbefore.length_eq
      obtain ⟨c, rest, heq, -, -, hinside⟩ := hgroup.exists_cons
      obtain ⟨rfl, rfl⟩ := List.cons.inj heq
      exact ⟨before', inner', rfl, hfirst, (hinside.split hinner.length_eq).1⟩

section

variable {p p' : Piece}

/-- Twins outside of apostrophes are the same address. -/
theorem internAddress_eq (h : TwinPieces true p p') (t : NameTable) :
    internAddress t p = internAddress t p' := by
  unfold internAddress
  cases hsplit : splitGroup p.text with
  | none =>
      have halike := splitGroup_alike h.text.alike
      rw [hsplit] at halike
      generalize splitGroup p'.text = y at halike
      cases halike
      rfl
  | some g =>
      obtain ⟨before, inner⟩ := g
      obtain ⟨before', inner', hsplit', hbefore, hinner⟩ := splitGroup_twins h.text hsplit
      rw [hsplit']
      cases before with
      | nil =>
          obtain rfl := List.forall₂_nil_left_iff.1 hbefore.alike
          rfl
      | cons c before =>
          obtain ⟨d, before', rfl, -⟩ := hbefore.exists_cons
          have hdisplacement : TwinPieces true ⟨p.start, c :: before⟩ ⟨p'.start, d :: before'⟩ :=
            ⟨h.start, hbefore⟩
          have hstart : p.start.right ((c :: before).length + 1) =
              p'.start.right ((d :: before').length + 1) := by rw [h.start, hbefore.length_eq]
          have hregisters {exact : Bool} (hinner : Twins exact false inner inner') :
              List.Forall₂ (TwinPieces exact)
                (pieces ⟨p.start.right ((c :: before).length + 1), inner⟩)
                (pieces ⟨p'.start.right ((d :: before').length + 1), inner'⟩) :=
            pieces_twins ⟨hstart, hinner⟩
          have hread := internExpr_readAlike hdisplacement t
          have hclosed {e : OrdinaryExpr NameId}
              (hok : (internExpr t ⟨p.start, c :: before⟩).1 = .ok e) :=
            quotedAfter_of_internExpr hok
          dsimp only
          generalize internExpr t ⟨p.start, c :: before⟩ = first at hread hclosed ⊢
          generalize internExpr t ⟨p'.start, d :: before'⟩ = first' at hread ⊢
          cases hread with
          | ok e t₁ =>
              -- the group stands outside of apostrophes, because the displacement is an expression
              have houtside : quotedAfter false (c :: before) = false := hclosed rfl
              rw [houtside] at hinner
              dsimp only
              rw [internRegisters_eq (hregisters hinner) t₁]
          | error t₁ =>
              have hloose : Twins false false inner inner' := .of_alike hinner.alike false
              exact congrArg (Prod.mk none) (internRegisters_names (hregisters hloose) t₁)

/-- Twins outside of apostrophes are the same operand of a machine instruction, or have the same
fault. -/
theorem internMachineOperand_readAlike (h : TwinPieces true p p') (t : NameTable) :
    ReadAlike (internMachineOperand t p) (internMachineOperand t p') := by
  unfold internMachineOperand
  rw [internAddress_eq h]
  split
  · exact .ok _ _
  · rename_i t₁ _
    have hread := internExpr_readAlike h t₁
    generalize internExpr t₁ p = first at hread ⊢
    generalize internExpr t₁ p' = first' at hread ⊢
    cases hread with
    | ok e t₂ => exact .ok _ _
    | error t₂ hgist => exact .error _ hgist

/-- Twins outside of apostrophes are the same operand, or have the same fault, unless they are
operands of a macro. -/
theorem readOperand_readAlike {form : OperandForm} (hform : form ≠ .macroOperands)
    (h : TwinPieces true p p') (t : NameTable) :
    ReadAlike (readOperand form t p) (readOperand form t p') := by
  unfold readOperand
  simp only [h.nil_congr, h.range_eq]
  split
  · exact .ok _ _
  · cases form with
    | machine =>
        have hread := internMachineOperand_readAlike h t
        dsimp only
        generalize internMachineOperand t p = first at hread ⊢
        generalize internMachineOperand t p' = first' at hread ⊢
        cases hread with
        | ok m t₁ => exact .ok _ _
        | error t₁ hgist => exact .error _ hgist
    | assembler =>
        have hread := internExpr_readAlike h t
        dsimp only
        generalize internExpr t p = first at hread ⊢
        generalize internExpr t p' = first' at hread ⊢
        cases hread with
        | ok e t₁ => exact .ok _ _
        | error t₁ hgist => exact .error _ hgist
    | macroOperands => exact absurd rfl hform
    | conditional | deferred | unknown => exact .ok _ _

/-- The operands are the same, the diagnostics have the same gist, and the same names are
learned. -/
structure SameOperands {α : Type} (x y : α × List Diagnostic × NameTable) : Prop where
  operands : x.1 = y.1
  faults : x.2.1.map Diagnostic.gist = y.2.1.map Diagnostic.gist
  names : x.2.2 = y.2.2

/-- Twins outside of apostrophes have the same operands, unless they are operands of a macro. -/
theorem readOperands_twins {form : OperandForm} (hform : form ≠ .macroOperands)
    {ps ps' : List Piece} (h : List.Forall₂ (TwinPieces true) ps ps') (t : NameTable) :
    SameOperands (readOperands form t ps) (readOperands form t ps') := by
  induction h generalizing t with
  | nil => exact ⟨rfl, rfl, rfl⟩
  | @cons p p' ps ps' hp hps ih =>
      have hread := readOperand_readAlike hform hp t
      unfold readOperands
      generalize readOperand form t p = first at hread ⊢
      generalize readOperand form t p' = first' at hread ⊢
      cases hread with
      | ok o t₁ =>
          obtain ⟨hoperands, hfaults, hnames⟩ := ih t₁
          exact ⟨congrArg (o :: ·) hoperands, hfaults, hnames⟩
      | @error d d' t₁ hgist =>
          obtain ⟨hoperands, hfaults, hnames⟩ := ih t₁
          refine ⟨?_, congrArg₂ List.cons hgist hfaults, hnames⟩
          dsimp only
          rw [hoperands, hp.range_eq]

/-- Fields that are the same in capital letters outside of apostrophes have the same operands,
unless they are operands of a macro. -/
theorem readField_twins {form : OperandForm} (hform : form ≠ .macroOperands) {field field' : String}
    (h : Twins true false field.toList field'.toList) (t : NameTable) (start : Position) :
    SameOperands (readField form t field start) (readField form t field' start) := by
  have hfield : TwinPieces true ⟨start, field.toList⟩ ⟨start, field'.toList⟩ := ⟨rfl, h⟩
  exact readOperands_twins hform (pieces_twins hfield) t

end

end Field

end MacroAssembler
