import MacroAssembler.Proofs.Field.IndexedConcatenation
import MacroAssembler.Proofs.Field.LetterCase
import MacroAssembler.Proofs.Field.Sources

/-!
# Letter case in statements

The same names are learned from concatenations that differ in letter case, in the same order
(`readFragments_names`), and from name fields and operation fields. Two source statements that
differ in the case of letters outside of apostrophes are read alike
(`SourceStatement.SameLetters.toStatement`).
-/

namespace MacroAssembler

namespace Field

open Text (Alike)

/-! ## Names in concatenations -/

/-- An apostrophe closes both texts at the same place. -/
theorem takeQuoted_alike {cs ds : List Char} (h : Alike cs ds) :
    Alike (takeQuoted cs).2 (takeQuoted ds).2 := by
  induction cs using takeQuoted.induct generalizing ds with
  | case1 =>
      obtain rfl := List.forall₂_nil_left_iff.1 h
      exact h
  | case2 rest quoted after heq ih =>
      obtain ⟨d, _, hd, hmore, rfl⟩ := List.forall₂_cons_left_iff.1 h
      obtain ⟨d', ds, hd', hrest, rfl⟩ := List.forall₂_cons_left_iff.1 hmore
      obtain rfl : d = '\'' := (Text.eq_iff_eq hd rfl).1 rfl
      obtain rfl : d' = '\'' := (Text.eq_iff_eq hd' rfl).1 rfl
      have hbehind := ih hrest
      exact hbehind
  | case3 rest hsingle =>
      obtain ⟨d, ds, hd, hrest, rfl⟩ := List.forall₂_cons_left_iff.1 h
      obtain rfl : d = '\'' := (Text.eq_iff_eq hd rfl).1 rfl
      have hsingle' : ∀ ds', ds = '\'' :: ds' → False := by
        rintro ds' rfl
        obtain ⟨c, cs, hc, -, rfl⟩ := List.forall₂_cons_right_iff.1 hrest
        obtain rfl : c = '\'' := (Text.eq_iff_eq hc rfl).2 rfl
        exact hsingle cs rfl
      rw [takeQuoted.eq_3 _ hsingle, takeQuoted.eq_3 _ hsingle']
      exact hrest
  | case4 c rest hdouble hc quoted after heq ih =>
      obtain ⟨d, ds, hd, hrest, rfl⟩ := List.forall₂_cons_left_iff.1 h
      have hd' : d ≠ '\'' := mt (Text.eq_iff_eq hd rfl).2 hc
      rw [takeQuoted.eq_4 c rest hdouble hc, takeQuoted.eq_4 d ds (fun _ h => absurd h hd') hd']
      exact ih hrest

/-- The pieces of groups that differ in letter case do so. -/
theorem pieces_alike {inner inner' : List Char} (h : Alike inner inner') (close close' : Position) :
    List.Forall₂ (fun p p' => Alike p.text p'.text) (pieces (groupPiece close inner))
      (pieces (groupPiece close' inner')) := by
  have htwins : TwinPieces false ⟨{}, inner⟩ ⟨{}, inner'⟩ := ⟨rfl, .of_alike h false⟩
  have htexts : List.Forall₂ Alike ((pieces (groupPiece close inner)).map Piece.text)
      ((pieces (groupPiece close' inner')).map Piece.text) := by
    unfold groupPiece
    rw [texts_pieces _ {} inner, texts_pieces _ {} inner', List.forall₂_map_left_iff,
      List.forall₂_map_right_iff]
    exact (pieces_twins htwins).imp fun _ _ hp => hp.text.alike
  rwa [List.forall₂_map_left_iff, List.forall₂_map_right_iff] at htexts

/-- The variable symbols differ in letter case at most, and so do the texts behind them. -/
structure VariableText.Alike (v v' : VariableText) : Prop where
  isCreated : v.isCreated = v'.isCreated
  name : Text.Alike v.name v'.name
  subscript : Option.Rel Text.Alike v.subscript v'.subscript
  after : Text.Alike v.after v'.after

theorem VariableText.withSubscript_alike {name name' after after' : List Char} (isCreated : Bool)
    (hname : Text.Alike name name') (hafter : Text.Alike after after') :
    (withSubscript isCreated name after).Alike (withSubscript isCreated name' after') := by
  cases hafter with
  | nil => exact ⟨rfl, hname, .none, .nil⟩
  | @cons c d cs ds hupper hrest =>
      have hwhole : Text.Alike (c :: cs) (d :: ds) := .cons hupper hrest
      by_cases hc : c = '('
      · obtain rfl : d = '(' := (Text.eq_iff_eq hupper rfl).1 hc
        subst hc
        have hgroup := group?_alike hrest
        simp only [withSubscript]
        generalize group? cs = x at hgroup
        generalize group? ds = y at hgroup
        cases hgroup with
        | none => exact ⟨rfl, hname, .none, hwhole⟩
        | some hg => exact ⟨rfl, hname, .some hg.1, hg.2⟩
      · have hd : d ≠ '(' := mt (Text.eq_iff_eq hupper rfl).2 hc
        unfold withSubscript
        split
        · simp_all
        · split
          · simp_all
          · exact ⟨rfl, hname, .none, hwhole⟩

/-- An ampersand starts a variable symbol in front of both texts, or of none. -/
theorem VariableText.scan_alike {cs ds : List Char} (h : Text.Alike cs ds) :
    Option.Rel VariableText.Alike (scan cs) (scan ds) := by
  cases h with
  | nil => exact .none
  | @cons c d cs ds hupper hrest =>
      have hopen : (c = '(') = (d = '(') := Text.sign_congr hupper rfl
      unfold scan
      simp only [hopen, Text.isNameChar_eq hupper, Text.isDigit_eq hupper]
      split
      · have hgroup := group?_alike hrest
        generalize group? cs = x at hgroup
        generalize group? ds = y at hgroup
        cases hgroup with
        | none => exact .none
        | some hg => exact .some (withSubscript_alike true hg.1 hg.2)
      split
      · obtain ⟨hname, hafter⟩ := Text.Alike.span hrest Text.isNameChar_eq
        exact .some (withSubscript_alike false (.cons hupper hname) hafter)
      · exact .none

theorem startingVariable?_alike {p p' : Piece} (h : Alike p.text p'.text) :
    Option.Rel VariableText.Alike (startingVariable? p) (startingVariable? p') := by
  obtain ⟨start, cs⟩ := p
  obtain ⟨start', ds⟩ := p'
  cases h with
  | nil => exact .none
  | @cons c d cs ds hupper hrest =>
      have hampersand : (c = '&') = (d = '&') := Text.sign_congr hupper rfl
      simp only [startingVariable?, hampersand]
      split
      · exact VariableText.scan_alike hrest
      · exact .none

/-- The names that are learned from a text, by the sign that it starts with. -/
theorem names_readFragments (stop : Position) (t : NameTable) (c : Char) (rest : List Char) :
    (readFragments stop t (c :: rest)).2 =
      if c = '&' then
        if rest.head? = some '&' then (readFragments stop t rest.tail).2
        else match VariableText.scan rest with
          | some v => (readFragments stop
              (readVariable stop t (placeOf stop (c :: rest)) v).2 v.after).2
          | none => (readFragments stop t rest).2
      else if c = '(' then
        match group? rest with
        | some (inner, after) => (readFragments stop
            (readItems t (pieces (groupPiece (placeOf stop after) inner))).2 after).2
        | none => (readFragments stop t rest).2
      else if c = '\'' then (readFragments stop t (takeQuoted rest).2).2
      else (readFragments stop t rest).2 := by
  rw [readFragments]
  split
  · split
    · rfl
    · split <;> simp_all
  · split
    · simp_all
    · split
      · simp_all
      · split
        · split <;> simp_all
        · split <;> rfl

theorem subscriptPieces_alike {v v' : VariableText} (h : v.Alike v') (close close' : Position) :
    List.Forall₂ (fun p p' => Alike p.text p'.text) (v.subscriptPieces close)
      (v'.subscriptPieces close') := by
  have hsubscript := h.subscript
  unfold VariableText.subscriptPieces
  generalize v.subscript = x at hsubscript
  generalize v'.subscript = y at hsubscript
  cases hsubscript with
  | none => exact .nil
  | some hinner => exact pieces_alike hinner close close'

mutual
/-- The same names are learned from texts that differ in letter case. -/
theorem readFragments_names (stop stop' : Position) {cs ds : List Char} (h : Alike cs ds)
    (t : NameTable) : (readFragments stop t cs).2 = (readFragments stop' t ds).2 := by
  cases hcs : cs with
  | nil =>
      subst hcs
      obtain rfl := List.forall₂_nil_left_iff.1 h
      rw [readFragments, readFragments]
  | cons c rest =>
      have hless : rest.length < cs.length := by simp [hcs]
      subst hcs
      obtain ⟨d, rest', hupper, hrest, rfl⟩ := List.forall₂_cons_left_iff.1 h
      have hsign {x : Char} (hx : x.isAlpha = false) := Text.sign_congr hupper hx
      have hhead : (rest.head? = some '&') = (rest'.head? = some '&') :=
        propext (Text.Alike.head?_eq_some hrest rfl)
      have hnext (t : NameTable) :
          (readFragments stop t rest).2 = (readFragments stop' t rest').2 :=
        readFragments_names stop stop' hrest t
      rw [names_readFragments, names_readFragments]
      simp only [hsign (x := '&') rfl, hsign (x := '(') rfl, hsign (x := '\'') rfl, hhead]
      split
      · split
        · have htail : rest.tail.length ≤ rest.length := by simp
          exact readFragments_names stop stop' (Text.Alike.tail hrest) t
        · have hscan := VariableText.scan_alike hrest
          cases hx : VariableText.scan rest <;> cases hy : VariableText.scan rest' <;>
            rw [hx, hy] at hscan
          case none.none => exact hnext t
          case some.some v v' =>
            have hv := Option.rel_some_some.1 hscan
            have hlength := VariableText.length_scan hx
            have hafter := v.length_after_le
            dsimp only
            rw [readVariable_names stop stop' _ (placeOf stop' (d :: rest')) hv t]
            exact readFragments_names stop stop' hv.after _
          all_goals cases hscan
      split
      · have hgroup := group?_alike hrest
        cases hx : group? rest <;> cases hy : group? rest' <;> rw [hx, hy] at hgroup
        case none.none => exact hnext t
        case some.some g g' =>
          obtain ⟨inner, after⟩ := g
          obtain ⟨inner', after'⟩ := g'
          obtain ⟨hinner, hafter⟩ := Option.rel_some_some.1 hgroup
          have hlength := length_group? hx
          have hweight := weight_group_le (placeOf stop after) inner
          dsimp only
          rw [readItems_names (pieces_alike hinner _ (placeOf stop' after')) t]
          exact readFragments_names stop stop' hafter _
        all_goals cases hgroup
      split
      · have hlength := length_takeQuoted rest
        exact readFragments_names stop stop' (takeQuoted_alike hrest) t
      · exact hnext t
  termination_by 2 * cs.length

theorem readVariable_names (stop stop' start start' : Position) {v v' : VariableText}
    (h : v.Alike v') (t : NameTable) :
    (readVariable stop t start v).2 = (readVariable stop' t start' v').2 := by
  have hname : v.name.length ≤ v.length := by
    simp only [VariableText.length]
    omega
  have hweight := v.weight_subscriptPieces_le (placeOf stop v.after)
  have hsubscript (t : NameTable) := readSubscript_names
    (subscriptPieces_alike h (placeOf stop v.after) (placeOf stop' v'.after)) t
  rw [readVariable, readVariable, ← h.isCreated]
  dsimp only
  split
  · exact (congrArg (fun t => (readSubscript t _).2) (readFragments_names _ _ h.name t)).trans
      (hsubscript _)
  · rw [h.name.upper]
    exact hsubscript _
  termination_by 2 * v.length + 1

theorem readItems_names {ps ps' : List Piece}
    (h : List.Forall₂ (fun p p' => Alike p.text p'.text) ps ps') (t : NameTable) :
    (readItems t ps).2 = (readItems t ps').2 := by
  cases hps : ps with
  | nil =>
      subst hps
      obtain rfl := List.forall₂_nil_left_iff.1 h
      rfl
  | cons p rest =>
      have hless : weight ps = p.text.length + 1 + weight rest := by rw [hps, weight_cons]
      subst hps
      obtain ⟨p', rest', hp, hrest, rfl⟩ := List.forall₂_cons_left_iff.1 h
      rw [readItems, readItems]
      dsimp only
      rw [readFragments_names p.stop p'.stop hp t]
      exact readItems_names hrest _
  termination_by 2 * weight ps

theorem readSubscript_names {ps ps' : List Piece}
    (h : List.Forall₂ (fun p p' => Alike p.text p'.text) ps ps') (t : NameTable) :
    (readSubscript t ps).2 = (readSubscript t ps').2 := by
  cases hps : ps with
  | nil =>
      subst hps
      obtain rfl := List.forall₂_nil_left_iff.1 h
      rfl
  | cons p rest =>
      have hless : weight ps = p.text.length + 1 + weight rest := by rw [hps, weight_cons]
      subst hps
      obtain ⟨p', rest', hp, hrest, rfl⟩ := List.forall₂_cons_left_iff.1 h
      have hnext (t : NameTable) : (readSubscript t rest).2 = (readSubscript t rest').2 :=
        readSubscript_names hrest t
      have hinteger := hp.integer?
      cases hx : Numeral.integer? p.text with
      | some i =>
          rw [readSubscript, readSubscript, ← hinteger, hx]
          exact hnext t
      | none =>
          rw [readSubscript_cons t rest hx, readSubscript_cons t rest' (hinteger ▸ hx)]
          have hstarting := startingVariable?_alike hp
          cases hx : startingVariable? p <;> cases hy : startingVariable? p' <;>
            rw [hx, hy] at hstarting
          case none.none => exact hnext t
          case some.some v v' =>
            have hv := Option.rel_some_some.1 hstarting
            have hlength := length_startingVariable hx
            dsimp only
            rw [readVariable_names p.stop p'.stop p.start p'.start hv t]
            exact hnext _
          all_goals cases hstarting
  termination_by 2 * weight ps
end

end Field

/-! ## Statements -/

/-- The name field without what a concatenation in it says. -/
def Label.outline : Label → Label
  | .reference _ => .concatenation [] {}
  | .concatenation _ _ => .concatenation [] {}
  | label => label

/-- The operation field without what a concatenation in it says. -/
def Operation.outline : Operation → Operation
  | .concatenation _ range => .concatenation [] range
  | operation => operation

/-- The statement without what concatenations in its name field and in its operation field say. -/
def Statement.outline {Operands : Type} (s : Statement Operands) : Statement Operands :=
  { s with label := s.label.outline, operation := s.operation.outline }

namespace Field

open Text (Alike)

variable {text text' : String}

/-- A text with an ampersand in it, and without a dot in front, is read as a concatenation. -/
theorem readLabel_of_ampersand (hdot : ∀ rest, text.toList = '.' :: rest → False)
    (hampersand : text.toList.contains '&' = true) (t : NameTable) (range : Range) :
    (readLabel t text range).1.outline = .concatenation [] {} ∧
      (readLabel t text range).2 = (readConcatenation t ⟨range.start, text.toList⟩).2 := by
  unfold readLabel
  split
  · rename_i hnil
    rw [hnil] at hampersand
    cases hampersand
  · rename_i rest heq
    exact (hdot rest heq).elim
  · rw [if_pos hampersand]
    split <;> rename_i heq <;> rw [heq] <;> exact ⟨rfl, rfl⟩

theorem contains_eq {cs ds : List Char} (h : Alike cs ds) : cs.contains '&' = ds.contains '&' := by
  have hmem : '&' ∈ cs ↔ '&' ∈ ds := h.mem_iff rfl
  rw [Bool.eq_iff_iff, List.contains_iff_mem, List.contains_iff_mem, hmem]

/-- Name fields that differ in letter case have the same outline, and the same names are learned
from them. -/
theorem readLabel_alike (h : Alike text.toList text'.toList) (t : NameTable) (range : Range) :
    (readLabel t text range).1.outline = (readLabel t text' range).1.outline ∧
      (readLabel t text range).2 = (readLabel t text' range).2 := by
  have hupper : Text.upper text = Text.upper text' := congrArg String.ofList h.map_toUpper
  have hnames := readFragments_names (Piece.stop ⟨range.start, text.toList⟩)
    (Piece.stop ⟨range.start, text'.toList⟩) h t
  have hcontains := contains_eq h
  cases hcs : text.toList with
  | nil =>
      have hds : text'.toList = [] := h.nil_iff.1 hcs
      simp [readLabel, hcs, hds]
  | cons c rest =>
      have hwhole := h
      rw [hcs] at hwhole
      obtain ⟨d, rest', hc, hrest, hds⟩ := List.forall₂_cons_left_iff.1 hwhole
      by_cases hdot : c = '.'
      · obtain rfl : d = '.' := (Text.eq_iff_eq hc rfl).1 hdot
        subst hdot
        have hname : Text.upper (String.ofList rest) = Text.upper (String.ofList rest') :=
          Text.Alike.upper hrest
        simp [readLabel, hcs, hds, hname]
      · have hdot' : d ≠ '.' := mt (Text.eq_iff_eq hc rfl).2 hdot
        have hplain : ∀ rest, text.toList = '.' :: rest → False := by simp [hcs, hdot]
        have hplain' : ∀ rest, text'.toList = '.' :: rest → False := by simp [hds, hdot']
        by_cases hampersand : text.toList.contains '&' = true
        · obtain ⟨houtline, hlearned⟩ := readLabel_of_ampersand hplain hampersand t range
          obtain ⟨houtline', hlearned'⟩ :=
            readLabel_of_ampersand hplain' (hcontains ▸ hampersand) t range
          exact ⟨houtline.trans houtline'.symm, hlearned.trans (hnames.trans hlearned'.symm)⟩
        · rw [readLabel_of_plain (by simp [hcs]) hplain hampersand,
            readLabel_of_plain (by simp [hds]) hplain' (hcontains ▸ hampersand), hupper]
          exact ⟨rfl, rfl⟩

theorem isEmpty_eq (h : Alike text.toList text'.toList) : text.isEmpty = text'.isEmpty := by
  have hnil : text = "" ↔ text' = "" := by
    rw [← String.toList_eq_nil_iff, ← String.toList_eq_nil_iff, h.nil_iff]
  rw [Bool.eq_iff_iff, String.isEmpty_iff, String.isEmpty_iff, hnil]

/-- Operation fields that differ in letter case have the same outline, and the same names are
learned from them. -/
theorem readOperation_alike (h : Alike text.toList text'.toList) (t : NameTable) (range : Range) :
    (readOperation t text range).1.outline = (readOperation t text' range).1.outline ∧
      (readOperation t text range).2 = (readOperation t text' range).2 := by
  have hupper : Text.upper text = Text.upper text' := congrArg String.ofList h.map_toUpper
  have hnames := readFragments_names (Piece.stop ⟨range.start, text.toList⟩)
    (Piece.stop ⟨range.start, text'.toList⟩) h t
  unfold readOperation
  rw [isEmpty_eq h, contains_eq h, hupper]
  split
  · exact ⟨rfl, rfl⟩
  split
  · exact ⟨rfl, hnames⟩
  · exact ⟨rfl, rfl⟩

end Field

/-- The statements have the same outline, and operand fields that are the same in capital letters
outside of apostrophes. -/
structure Statement.Twins (s s' : Statement OperandField) : Prop where
  label : s.label.outline = s'.label.outline
  operation : s.operation.outline = s'.operation.outline
  opcode : s.opcode = s'.opcode
  range : s.range = s'.range
  operands : ∃ field field' range, s.operands = .text field range ∧
    s'.operands = .text field' range ∧ Field.Twins true false field.toList field'.toList

/-- Statements that differ in letter case have the same operands, unless they are read for a
macro. -/
theorem Statement.Twins.read {s s' : Statement OperandField} (h : s.Twins s') {form : OperandForm}
    (hform : form ≠ .macroOperands) (t : NameTable) :
    (s.read form t).1.outline = (s'.read form t).1.outline ∧
      (s.read form t).2.1.map Diagnostic.gist = (s'.read form t).2.1.map Diagnostic.gist ∧
      (s.read form t).2.2 = (s'.read form t).2.2 := by
  obtain ⟨label, operation, opcode, operands, range⟩ := s
  obtain ⟨label', operation', opcode', operands', range'⟩ := s'
  obtain ⟨hlabel, hoperation, rfl, rfl, field, field', place, rfl, rfl, hfield⟩ := h
  obtain ⟨hoperands, hfaults, hnames⟩ := Field.readField_twins hform hfield t place.start
  refine ⟨?_, hfaults, hnames⟩
  dsimp only at hlabel hoperation
  simp only [Statement.outline, Statement.read, hlabel, hoperation, hoperands]

namespace SourceStatement

/-- The fields of the statements are the same in capital letters outside of apostrophes, and the
same line is stated. -/
structure SameLetters (s s' : SourceStatement) : Prop where
  label : Text.upperOutside false s.label.toList = Text.upperOutside false s'.label.toList
  operation : Text.upperOutside false s.operation.toList =
    Text.upperOutside false s'.operation.toList
  operands : Text.upperOutside false s.operands.toList = Text.upperOutside false s'.operands.toList
  line : s.line = s'.line

/-- Source statements that differ in letter case are read alike. -/
theorem SameLetters.toStatement {s s' : SourceStatement} (h : s.SameLetters s') (line : Nat)
    (t : NameTable) : (s.toStatement line t).1.Twins (s'.toStatement line t).1 ∧
      (s.toStatement line t).2 = (s'.toStatement line t).2 := by
  have hlabel := (Field.Twins.of_upperOutside h.label).alike
  have hoperation := (Field.Twins.of_upperOutside h.operation).alike
  have hoperands := Field.Twins.of_upperOutside h.operands
  unfold SourceStatement.toStatement
  simp only [h.line, hlabel.byteLength, hoperation.byteLength, hoperands.alike.byteLength]
  generalize Range.onLine (s'.line.getD line) 0 (Text.byteLength s'.label.toList) = range
  obtain ⟨houtline, hlearned⟩ := Field.readLabel_alike hlabel t range
  rw [hlearned]
  obtain ⟨houtline', hlearned'⟩ := Field.readOperation_alike hoperation
    (Field.readLabel t s'.label range).2 _
  exact ⟨⟨houtline, houtline', rfl, rfl, _, _, _, rfl, rfl, hoperands⟩, hlearned'⟩

end SourceStatement

end MacroAssembler
