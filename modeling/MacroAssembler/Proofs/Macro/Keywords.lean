import MacroAssembler.Proofs.Assembly.Macros
import MacroAssembler.Proofs.Field.Apart
import MacroAssembler.Proofs.Macro.Cleaning
import MacroAssembler.Proofs.Results

/-!
# Keywords that a prototype does not declare

An operand of a macro call that starts with a name and an equals sign is taken for a keyword, and
its name is put into capital letters to be looked up. If the prototype has no keyword of that name,
the operand is put together again and bound as a positional argument. The letters of the name stay
capital, so that the argument is the operand as it was written only if they were capital before
(`processCall_undeclaredKeyword`). What is behind the equals sign keeps its text, because the text
of a concatenation does not depend on the numbers of the names in it
(`Concatenation.render_renamed`).
-/

namespace MacroAssembler

namespace Conditional

/-! ## Texts do not depend on numbers -/

section Renamed

variable {t t' : NameTable}

theorem markSubscript_renamed {subscript subscript' : List Expr}
    (h : List.Forall₂ (Expr.Renamed t t') subscript subscript') (s : String) :
    markSubscript subscript' s = markSubscript subscript s := by
  cases h <;> rfl

mutual
theorem VariableSymbol.render_renamed (v : VariableSymbol) {v' : VariableSymbol}
    (h : VariableSymbol.Renamed t t' v v') : ∃ s, v.render t = .ok s ∧ v'.render t' = .ok s := by
  match v, h with
  | .named id subscript _, .named _ ⟨name, hid, hid'⟩ hsubscript =>
      refine ⟨markSubscript subscript ("&" ++ name), ?_, ?_⟩
      · rw [VariableSymbol.render, NameStore.get, hid]
        rfl
      · rw [VariableSymbol.render, NameStore.get, hid', ← markSubscript_renamed hsubscript]
        rfl
  | .created name subscript _, .created _ hname hsubscript =>
      obtain ⟨s, hs, hs'⟩ := Concatenation.render_renamed name hname
      refine ⟨markSubscript subscript ("&(" ++ s ++ ")"), ?_, ?_⟩
      · rw [VariableSymbol.render, hs]
        rfl
      · rw [VariableSymbol.render, hs', ← markSubscript_renamed hsubscript]
        rfl

theorem Fragment.render_renamed (f : Fragment) {f' : Fragment} (h : Fragment.Renamed t t' f f') :
    ∃ s, f.render t = .ok s ∧ f'.render t' = .ok s := by
  match f, h with
  | .text _, .text _ | .dot, .dot | .equals, .equals => exact ⟨_, rfl, rfl⟩
  | .reference v, .reference hv =>
      obtain ⟨s, hs, hs'⟩ := VariableSymbol.render_renamed v hv
      exact ⟨s, by rw [Fragment.render, hs], by rw [Fragment.render, hs']⟩
  | .sublist items, .sublist hitems =>
      obtain ⟨texts, htexts, htexts'⟩ := Concatenation.renderEach_renamed items hitems
      refine ⟨"(" ++ ",".intercalate texts ++ ")", ?_, ?_⟩
      · rw [Fragment.render, htexts]
        rfl
      · rw [Fragment.render, htexts']
        rfl

/-- Concatenations that are alike but for the numbers of their names are rendered alike. -/
theorem Concatenation.render_renamed (c : List Fragment) {c' : List Fragment}
    (h : List.Forall₂ (Fragment.Renamed t t') c c') :
    ∃ s, Concatenation.render t c = .ok s ∧ Concatenation.render t' c' = .ok s := by
  match c, h with
  | [], .nil => exact ⟨"", by rw [Concatenation.render], by rw [Concatenation.render]⟩
  | f :: rest, .cons hf hrest =>
      obtain ⟨s, hs, hs'⟩ := Fragment.render_renamed f hf
      obtain ⟨tail, htail, htail'⟩ := Concatenation.render_renamed rest hrest
      refine ⟨s ++ tail, ?_, ?_⟩
      · rw [Concatenation.render, hs, htail]
        rfl
      · rw [Concatenation.render, hs', htail']
        rfl

theorem Concatenation.renderEach_renamed (items : List (List Fragment))
    {items' : List (List Fragment)}
    (h : List.Forall₂ (List.Forall₂ (Fragment.Renamed t t')) items items') :
    ∃ texts, Concatenation.renderEach t items = .ok texts ∧
      Concatenation.renderEach t' items' = .ok texts := by
  match items, h with
  | [], .nil => exact ⟨[], by rw [Concatenation.renderEach], by rw [Concatenation.renderEach]⟩
  | item :: rest, .cons hitem hrest =>
      obtain ⟨s, hs, hs'⟩ := Concatenation.render_renamed item hitem
      obtain ⟨texts, htexts, htexts'⟩ := Concatenation.renderEach_renamed rest hrest
      refine ⟨s :: texts, ?_, ?_⟩
      · rw [Concatenation.renderEach, hs, htexts]
        rfl
      · rw [Concatenation.renderEach, hs', htexts']
        rfl
end

end Renamed

/-! ## Names and equals signs -/

/-- A concatenation that starts with a name and an equals sign is rendered with them. -/
theorem Concatenation.render_keyword {names : NameTable} {key s : String}
    {value : Concatenation}
    (h : Concatenation.render names (.text key :: .equals :: value) = .ok s) :
    ∃ rest, Concatenation.render names value = .ok rest ∧ s = key ++ "=" ++ rest := by
  rw [Concatenation.render, Concatenation.render, Fragment.render, Fragment.render] at h
  obtain ⟨_, ⟨⟩, h⟩ := bind_eq_ok_iff.1 h
  obtain ⟨tail, htail, h⟩ := bind_eq_ok_iff.1 h
  obtain ⟨_, ⟨⟩, htail⟩ := bind_eq_ok_iff.1 htail
  obtain ⟨rest, hrest, htail⟩ := bind_eq_ok_iff.1 htail
  cases htail
  have hs : key ++ ("=" ++ rest) = s := Except.ok.inj h
  exact ⟨rest, hrest, by rw [← hs, String.append_assoc]⟩

/-- What a concatenation with a name and an equals sign is rendered with is its value. -/
theorem Concatenation.data_keyword {names : NameTable} {key s : String}
    {value : Concatenation}
    (h : Concatenation.render names (.text key :: .equals :: value) = .ok s) :
    Concatenation.data names (.text key :: .equals :: value) = .ok (.single s) := by
  rw [Concatenation.data, h]
  · rfl
  · rintro items ⟨⟩

end Conditional

open Conditional (Fragment Concatenation)

namespace Field

/-- What is read of a text has one rendering, in its own table and in all that grow from it. -/
theorem exists_render_readFragments (stop : Position) (t : NameTable) (cs : List Char) :
    ∃ s, ∀ later, (readFragments stop t cs).2.Grows later →
      Concatenation.render later (readFragments stop t cs).1 = .ok s := by
  have hown (later : NameTable) (h : (readFragments stop t cs).2.Grows later) :=
    Concatenation.render_renamed _ (uniform_readFragments stop cs t t _ later (.refl _) h)
  obtain ⟨s, hs, -⟩ := hown _ (.refl _)
  refine ⟨s, fun later h => ?_⟩
  obtain ⟨s', hs', hlater⟩ := hown later h
  rw [hs, Except.ok.injEq] at hs'
  rw [hlater, hs']

/-- The operand of a macro call that a piece of the field gives; the names in it are known in the
table. -/
inductive Gives (names : NameTable) (p : Piece) : Operand → Prop where
  | omitted : p.text = [] → Gives names p (.empty p.range)
  | written {t : NameTable} : p.text ≠ [] → (readFragments p.stop t p.text).2.Grows names →
      Gives names p (.concatenation (readFragments p.stop t p.text).1 p.range)

/-- Each piece gives an operand. -/
theorem gives_readOperands {ps : List Piece} {t names : NameTable}
    (h : (readOperands .macroOperands t ps).2.2.Grows names) :
    List.Forall₂ (Gives names) ps (readOperands .macroOperands t ps).1 := by
  induction ps generalizing t with
  | nil => exact .nil
  | cons p ps ih =>
      have hlater := (readOperands_spec .macroOperands (readOperand .macroOperands t p).2 ps).1
      rw [readOperands_cons] at h ⊢
      by_cases hnil : p.text = []
      · rw [readOperand_of_nil _ _ hnil] at h ⊢
        exact .cons (.omitted hnil) (ih h)
      · rw [readOperand_macroOperands _ hnil] at h hlater ⊢
        exact .cons (.written hnil (hlater.trans h)) (ih h)

/-- The piece that an operand was read from. -/
theorem exists_piece {names : NameTable} {ps : List Piece} {os : List Operand}
    (h : List.Forall₂ (Gives names) ps os) {k : Nat} {o : Operand} (ho : os[k]? = some o) :
    ∃ p, ps[k]? = some p ∧ Gives names p o := by
  obtain ⟨hlength, hget⟩ := List.forall₂_iff_get.1 h
  obtain ⟨hk, rfl⟩ := List.getElem?_eq_some_iff.1 ho
  exact ⟨_, List.getElem?_eq_getElem (hlength ▸ hk), hget k (hlength ▸ hk) hk⟩

end Field

namespace Assembly

/-! ## The arguments of a call -/

/-- An operand that a piece gives is an argument of the call. -/
theorem exists_argument {names : NameTable} {p : Piece} {o : Operand} (h : Field.Gives names p o)
    (a : Assembly) : ∃ argument, (a.argument? o).1 = some argument := by
  cases h with
  | omitted => exact ⟨_, rfl⟩
  | written =>
      unfold argument?
      split
      · exact ⟨_, rfl⟩
      · split
        · split <;> exact ⟨_, rfl⟩
        · exact ⟨_, rfl⟩
      · rename_i o hempty hconcatenation
        exact absurd rfl (hconcatenation _ _)

/-- The argument at a place is that of the operand at the place, in the assembly that has met the
operands before. -/
theorem exists_getElem?_arguments {names : NameTable} {ps : List Piece} {os : List Operand}
    (h : List.Forall₂ (Field.Gives names) ps os) (a : Assembly) {k : Nat} {o : Operand}
    (ho : os[k]? = some o) :
    ∃ b argument, a.Learns b ∧ (b.argument? o).1 = some argument ∧
      (b.argument? o).2.Learns (a.arguments os).2 ∧ (a.arguments os).1[k]? = some argument := by
  induction h generalizing a k with
  | nil => simp at ho
  | @cons p first ps os hfirst hrest ih =>
      obtain ⟨argument, hargument⟩ := exists_argument hfirst a
      have harguments : a.arguments (first :: os) =
          (argument :: ((a.argument? first).2.arguments os).1,
            ((a.argument? first).2.arguments os).2) := by
        rw [arguments]
        dsimp only
        rw [hargument]
        rfl
      rw [harguments]
      cases k with
      | zero =>
          obtain rfl : first = o := by simpa using ho
          exact ⟨a, argument, .refl a, hargument, arguments_learns _ os, rfl⟩
      | succ k =>
          obtain ⟨b, argument', hb, hargument', hlater, hget⟩ := ih (a.argument? first).2 ho
          exact ⟨b, argument', (argument_learns a first).trans hb, hargument', hlater, hget⟩

/-- What is rendered is the text of the argument. -/
theorem operandData_of_render {a : Assembly} {c : Concatenation} {s : String}
    (h : Concatenation.render a.names c = .ok s) :
    (a.operandData c).1.text = s ∧ (a.operandData c).2 = a := by
  have htext := Field.text_data a.names c
  rw [h] at htext
  obtain ⟨d, hdata, htext⟩ := map_eq_ok_iff.1 htext
  unfold operandData
  rw [hdata]
  exact ⟨htext, rfl⟩

/-- A name and an equals sign are taken for a keyword. Its name is known then, in capital letters,
and its value has the text that the operand has behind the equals sign. -/
theorem exists_keyword_of_clean {a : Assembly} {names : NameTable} {c value : Concatenation}
    {key whole : String} (place : Range) (hgrows : names.Grows a.names)
    (hwhole : ∀ later, names.Grows later → Concatenation.render later c = .ok whole)
    (hclean : Concatenation.clean c = .text key :: .equals :: value)
    (hkey : ∀ ch ∈ key.toList, Text.isNameChar ch) :
    ∃ n v b, a.argument? (.concatenation c place) = (some (.keyword n v, place), b) ∧
      b.names.get? n = some (Text.upper key) ∧ whole = key ++ "=" ++ v.text := by
  have hlearn : a.Learns (a.learn (Text.upper key)).2 := .learn a _
  have hknown : (a.learn (Text.upper key)).2.names.get? (a.learn (Text.upper key)).1 =
      some (Text.upper key) := a.names.get?_insert _
  have hargument : a.argument? (.concatenation c place) =
      (some (.keyword (a.learn (Text.upper key)).1
        ((a.learn (Text.upper key)).2.operandData value).1, place),
        ((a.learn (Text.upper key)).2.operandData value).2) := by
    unfold argument?
    dsimp only
    rw [hclean]
    dsimp only
    rw [if_pos (List.all_eq_true.2 hkey)]
  rw [hargument]
  generalize a.learn (Text.upper key) = learnt at hlearn hknown
  obtain ⟨n, b⟩ := learnt
  dsimp only at hlearn hknown ⊢
  have hrender := hwhole b.names (hgrows.trans hlearn.names)
  rw [← Concatenation.render_clean, hclean] at hrender
  obtain ⟨rest, hrest, rfl⟩ := Concatenation.render_keyword hrender
  obtain ⟨htext, hsame⟩ := operandData_of_render hrest
  exact ⟨n, (b.operandData value).1, b, by rw [hsame], hknown, by rw [htext]⟩

end Assembly

namespace MacroDefinition

open Prototype

variable (d : MacroDefinition) (name : NameId) (label : MacroData) {args : List (Argument × Range)}
  {names : NameTable} {k : Nat}

theorem exists_append_of_getElem? {argument : Argument × Range} (h : args[k]? = some argument) :
    ∃ before after, args = before ++ argument :: after ∧
      ∀ argument', args.set k argument' = before ++ argument' :: after := by
  obtain ⟨hk, rfl⟩ := List.getElem?_eq_some_iff.1 h
  refine ⟨args.take k, args.drop (k + 1), by simp, fun argument' => ?_⟩
  rw [List.set_eq_take_append_cons_drop, if_pos hk]

/-- A keyword that is not declared is bound as the positional argument that it is spelled. -/
theorem call_undeclared {n : NameId} {value : MacroData} {place : Range}
    (h : args[k]? = some (.keyword n value, place)) (hn : d.prototype.declares n = false) :
    (d.call name label args names).1 =
      (d.call name label (args.set k (.positional (spelled names n value), place)) names).1 := by
  obtain ⟨before, after, rfl, hset⟩ := exists_append_of_getElem? h
  rw [hset, d.call_eq, d.call_eq]
  simp [entries, positionals, keywordEntries, hn]

/-- Different positional arguments are bound differently. -/
theorem call_set_positional_iff {argument : Argument × Range} (h : args[k]? = some argument)
    (value value' : MacroData) (place : Range) :
    (d.call name label (args.set k (.positional value, place)) names).1 =
      (d.call name label (args.set k (.positional value', place)) names).1 ↔ value = value' := by
  refine ⟨fun heq => ?_, fun heq => by rw [heq]⟩
  obtain ⟨before, after, -, hset⟩ := exists_append_of_getElem? h
  have hsyslist := congrArg MacroCall.syslist heq
  rw [hset, hset, d.call_eq, d.call_eq] at hsyslist
  simpa [positionals] using hsyslist

end MacroDefinition

namespace Assembly

/-! ## Calls -/

/-- What a call binds: its name field and its arguments, with the names that are known by then. -/
structure CallParts where
  label : MacroData
  args : List (Argument × Range)
  names : NameTable

/-- What a call binds, as it is read from the statement. -/
def callParts (a : Assembly) (s : Statement OperandField) : CallParts :=
  let (s, _, a) := a.read s .macroOperands
  let (label, a) := a.labelData s.label
  let (args, a) := a.arguments s.operands
  ⟨label, args, a.names⟩

/-- The call of a macro that is handed on if its arguments are the given ones. -/
def CallParts.callWith (parts : CallParts) (id : NameId) (d : MacroDefinition)
    (args : List (Argument × Range)) : MacroCall :=
  (d.call id parts.label args parts.names).1

variable {a : Assembly} {s : Statement OperandField} {id : NameId} {d : MacroDefinition}

/-- The call of a macro is handed on with the arguments that its operands give. -/
theorem processCall_eq (hname : s.opcode.name = some id) (hd : a.library.get? id = some d) :
    ∃ faults a', a.processCall s =
      .ok (faults, a', [.macroCalled ((a.callParts s).callWith id d (a.callParts s).args)]) := by
  have hopcode : (a.read s .macroOperands).1.opcode = s.opcode := s.opcode_read _ a.names
  have hlibrary : (a.read s .macroOperands).2.2.library = a.library := rfl
  unfold processCall callParts
  generalize a.read s .macroOperands = read at hopcode hlibrary
  obtain ⟨st, faults, b⟩ := read
  dsimp only at hopcode hlibrary ⊢
  have hfound : (st.opcode.name.bind fun id => (b.library.get? id).map (id, ·)) = some (id, d) := by
    simp [hopcode, hname, hlibrary, hd]
  rw [hfound]
  exact ⟨_, _, rfl⟩

/-- A keyword that no parameter has by the end of the call is not declared. -/
theorem declares_eq_false {names : NameTable} {n : NameId} {key : String}
    (h : ∀ n, d.prototype.declares n → names.get? n ≠ some key) (hn : names.get? n = some key) :
    d.prototype.declares n = false :=
  Bool.eq_false_iff.2 fun hdeclares => h n hdeclares hn

section Operands

variable {field : String} {range place : Range} {k : Nat} {c value : Concatenation} {key : String}

/-- The pieces of the operand field give the operands of a call. -/
theorem gives_read (hfield : s.operands = .text field range) :
    List.Forall₂ (Field.Gives (a.read s .macroOperands).2.2.names)
      (Field.pieces ⟨range.start, field.toList⟩) (a.read s .macroOperands).1.operands := by
  unfold Assembly.read Statement.read
  rw [hfield]
  exact Field.gives_readOperands (.refl _)

/-- An operand that starts with a name and an equals sign gives a keyword argument, whose name is in
capital letters. The value of the whole operand is its text, which is the text of the piece that it
was read from unless there is a variable symbol in it that is written differently. -/
theorem exists_keyword (hfield : s.operands = .text field range)
    (hoperand : (a.read s .macroOperands).1.operands[k]? = some (.concatenation c place))
    (hclean : Concatenation.clean c = .text key :: .equals :: value)
    (hkey : ∀ ch ∈ key.toList, Text.isNameChar ch) :
    ∃ p n v, (Field.pieces ⟨range.start, field.toList⟩)[k]? = some p ∧
      (a.callParts s).args[k]? = some (.keyword n v, place) ∧
      (a.callParts s).names.get? n = some (Text.upper key) ∧
      Concatenation.data (a.callParts s).names (Concatenation.clean c) =
        .ok (.single (key ++ "=" ++ v.text)) ∧
      ((∀ x ∈ Field.variableTexts p.text, x.IsVerbatim) →
        key ++ "=" ++ v.text = String.ofList p.text) := by
  have hgives := gives_read (a := a) hfield
  unfold callParts
  generalize a.read s .macroOperands = read at hoperand hgives
  obtain ⟨st, faults, b⟩ := read
  dsimp only at hoperand hgives ⊢
  obtain ⟨p, hp, hgive⟩ := Field.exists_piece hgives hoperand
  cases hgive with
  | @written t hne hgrows =>
      obtain ⟨whole, hwhole⟩ := Field.exists_render_readFragments p.stop t p.text
      have hlabel := labelData_learns b st.label
      obtain ⟨b', argument, hb', hargument, hlater, hget⟩ :=
        exists_getElem?_arguments hgives (b.labelData st.label).2 hoperand
      generalize (b.labelData st.label).2.arguments st.operands = arguments at hlater hget
      obtain ⟨args, final⟩ := arguments
      obtain ⟨n, v, b'', hkeyword, hknown, rfl⟩ := exists_keyword_of_clean p.range
        (hgrows.trans (hlabel.names.trans hb'.names)) hwhole hclean hkey
      have hlearns :=
        argument_learns b' (.concatenation (Field.readFragments p.stop t p.text).1 p.range)
      rw [hkeyword] at hargument hlater hlearns
      have hfinal : (Field.readFragments p.stop t p.text).2.Grows final.names :=
        hgrows.trans ((hlabel.trans hb').trans (hlearns.trans hlater)).names
      refine ⟨p, n, v, hp, hget.trans hargument.symm, hlater.names.get? hknown, ?_,
        fun hverbatim => ?_⟩
      · have hrender := hwhole _ hfinal
        rw [← Concatenation.render_clean, hclean] at hrender
        rw [hclean, Concatenation.data_keyword hrender]
      · obtain ⟨c', names', -, hread, hwritten⟩ :=
          Field.render_pieces t (List.mem_of_getElem? hp) hverbatim
        obtain ⟨rfl, rfl⟩ : (Field.readFragments p.stop t p.text).1 = c' ∧
            (Field.readFragments p.stop t p.text).2 = names' := Prod.mk.inj hread
        exact Except.ok.inj ((hwhole _ hfinal).symm.trans (hwritten _ hfinal).1)

/-- An operand of a macro call that starts with a name and an equals sign, where no keyword of that
name is declared. The call is handed on as if the operand were the positional argument that consists
of the name in capital letters, the equals sign, and the text behind it. So it is the call that
binds the whole operand as a positional argument exactly if there is no small letter in the name.
The text of the whole operand is the text of the piece that it was read from unless there is a
variable symbol in it that is written differently. -/
theorem processCall_undeclaredKeyword (hname : s.opcode.name = some id)
    (hd : a.library.get? id = some d) (hfield : s.operands = .text field range)
    (hoperand : (a.read s .macroOperands).1.operands[k]? = some (.concatenation c place))
    (hclean : Concatenation.clean c = .text key :: .equals :: value)
    (hkey : ∀ ch ∈ key.toList, Text.isNameChar ch)
    (hundeclared : ∀ n, d.prototype.declares n →
      (a.callParts s).names.get? n ≠ some (Text.upper key)) :
    let parts := a.callParts s
    let call := parts.callWith id d
    ∃ faults a' p whole rest,
      a.processCall s = .ok (faults, a', [.macroCalled (call parts.args)]) ∧
      (Field.pieces ⟨range.start, field.toList⟩)[k]? = some p ∧
      Concatenation.data parts.names (Concatenation.clean c) = .ok (.single whole) ∧
      whole = key ++ "=" ++ rest ∧
      ((∀ x ∈ Field.variableTexts p.text, x.IsVerbatim) → whole = String.ofList p.text) ∧
      call parts.args =
        call (parts.args.set k (.positional (.single (Text.upper key ++ "=" ++ rest)), place)) ∧
      (call parts.args = call (parts.args.set k (.positional (.single whole), place)) ↔
        Text.upper key = key) := by
  obtain ⟨faults, a', hprocess⟩ := processCall_eq hname hd
  obtain ⟨p, n, v, hp, hargument, hn, hdata, hwritten⟩ := exists_keyword hfield hoperand hclean hkey
  intro parts call
  have hspelled :
      Prototype.spelled parts.names n v = .single (Text.upper key ++ "=" ++ v.text) := by
    rw [Prototype.spelled, NameStore.nameOf, hn, Option.getD_some]
  have hcall : call parts.args =
      call (parts.args.set k (.positional (.single (Text.upper key ++ "=" ++ v.text)), place)) := by
    rw [← hspelled]
    exact d.call_undeclared id _ hargument (declares_eq_false hundeclared hn)
  refine ⟨faults, a', p, _, v.text, hprocess, hp, hdata, rfl, hwritten, hcall, ?_⟩
  calc
    call parts.args = call (parts.args.set k (.positional (.single (key ++ "=" ++ v.text)), place))
      ↔ MacroData.single (Text.upper key ++ "=" ++ v.text) = .single (key ++ "=" ++ v.text) := by
        rw [hcall]
        exact d.call_set_positional_iff id _ hargument _ _ place
    _ ↔ Text.upper key = key := by simp [String.append_assoc]

end Operands

end Assembly

/-- `MAC &A,&B=9`. -/
def plainMacro : MacroDefinition where
  prototype := { name := some ⟨0⟩, params := [.positional ⟨1⟩, .keyword ⟨2⟩ (.single "9")] }

theorem eq_of_declares_plainMacro {n : NameId} (h : plainMacro.prototype.declares n) : n = ⟨2⟩ := by
  have hname : ⟨2⟩ = n := by
    simpa [plainMacro, Prototype.declares, Parameter.isKeyword, Parameter.name?] using h
  exact hname.symm

/-- Nothing but the macro is known. -/
def plainAssembly : Assembly where
  names := .ofList ["MAC", "A", "B"]
  library := [(⟨0⟩, plainMacro)]

/-- A call of the macro. -/
def plainCall (operands : String) : Statement OperandField where
  label := .empty
  operation := .ordinary ⟨0⟩ {}
  opcode := ⟨some ⟨0⟩, .definedMacro⟩
  operands := .text operands {}
  range := {}

/-- The call `MAC X,Key=(1,'b')`. -/
theorem processCall_mixedKeyword :
    let parts := plainAssembly.callParts (plainCall "X,Key=(1,'b')")
    let call := parts.callWith ⟨0⟩ plainMacro
    let bound text := call (parts.args.set 1 (.positional (.single text), ⟨⟨0, 2⟩, ⟨0, 13⟩⟩))
    ∃ faults a', plainAssembly.processCall (plainCall "X,Key=(1,'b')") =
        .ok (faults, a', [.macroCalled (call parts.args)]) ∧
      call parts.args = bound "KEY=(1,'b')" ∧ call parts.args ≠ bound "Key=(1,'b')" := by
  intro parts call bound
  have hoperand : (plainAssembly.read (plainCall "X,Key=(1,'b')") .macroOperands).1.operands[1]? =
      some (.concatenation [.text "Key", .equals, .sublist [[.text "1"], [.text "'b'"]]]
        ⟨⟨0, 2⟩, ⟨0, 13⟩⟩) := by cbv
  have hclean : Concatenation.clean
      [.text "Key", .equals, .sublist [[.text "1"], [.text "'b'"]]] =
        .text "Key" :: .equals :: [.sublist [[.text "1"], [.text "'b'"]]] := by cbv
  have hkey : ∀ ch ∈ "Key".toList, Text.isNameChar ch := by simp [Text.isNameChar]
  have hpiece : (Field.pieces ⟨{}, "X,Key=(1,'b')".toList⟩)[1]? =
      some ⟨⟨0, 2⟩, "Key=(1,'b')".toList⟩ := by decide +kernel
  have hnames : parts.names = .ofList ["MAC", "A", "B", "KEY"] := by decide +kernel
  have hundeclared : ∀ n, plainMacro.prototype.declares n →
      parts.names.get? n ≠ some (Text.upper "Key") := by
    intro n hn
    rw [eq_of_declares_plainMacro hn, hnames]
    decide +kernel
  obtain ⟨faults, a', p, whole, rest, hprocess, hp, -, rfl, hwritten, hcall, hiff⟩ :=
    Assembly.processCall_undeclaredKeyword rfl rfl rfl hoperand hclean hkey hundeclared
  have hp : p = ⟨⟨0, 2⟩, "Key=(1,'b')".toList⟩ := Option.some.inj (hp.symm.trans hpiece)
  have hverbatim : ∀ x ∈ Field.variableTexts p.text, x.IsVerbatim := by
    rw [hp]
    decide +kernel
  have hrest : rest = "(1,'b')" := by
    have hwhole : "Key" ++ "=" ++ rest = "Key" ++ "=" ++ "(1,'b')" := by
      rw [hwritten hverbatim, hp, String.ofList_toList]
      rfl
    exact (String.append_right_inj _).1 hwhole
  subst hrest
  exact ⟨faults, a', hprocess, hcall, fun heq => absurd (hiff.1 heq) (by decide +kernel)⟩

/-- The call `MAC key=5` is not the one that binds `key=5` as a positional argument. -/
theorem smallKeyword_capitalized :
    ∃ faults a' call, plainAssembly.processCall (plainCall "key=5") =
        .ok (faults, a', [.macroCalled call]) ∧
      (∀ n, plainMacro.prototype.declares n → plainAssembly.names.get? n ≠ some "KEY") ∧
      call.syslist.map MacroData.text = ["", "KEY=5"] ∧
      ∀ names place, call ≠
        (plainMacro.call ⟨0⟩ .omitted [(.positional (.single "key=5"), place)] names).1 := by
  obtain ⟨faults, a', hprocess⟩ :=
    @Assembly.processCall_eq plainAssembly (plainCall "key=5") ⟨0⟩ plainMacro rfl rfl
  have hsyslist : ((plainAssembly.callParts (plainCall "key=5")).callWith ⟨0⟩ plainMacro
      (plainAssembly.callParts (plainCall "key=5")).args).syslist.map MacroData.text =
        ["", "KEY=5"] := by
    decide +kernel
  refine ⟨faults, a', _, hprocess, fun n hn => ?_, hsyslist, fun names place heq => ?_⟩
  · rw [eq_of_declares_plainMacro hn]
    decide
  · rw [heq] at hsyslist
    have hpositional : ["", "key=5"] = ["", "KEY=5"] := hsyslist
    exact absurd hpositional (by decide)

end MacroAssembler
