import MacroAssembler.Assembly.Session
import MacroAssembler.Proofs.Assembly.Moves
import MacroAssembler.Proofs.Macro.Binding

/-!
# Macros and the layout

Calls and definitions of macros ask nothing of the layout: they only learn names. A call is
processed if its macro is in the library (`processCall_learns`). The first statement of a
definition is its prototype (`Collector.take_prototype`), the others are its body
(`Collector.take_body`).
-/

namespace MacroAssembler

open Layout (Move History)

/-- At most names are learned and events are reported. -/
structure Assembly.Learns (a a' : Assembly) : Prop where
  layout : a'.layout = a.layout
  library : a'.library = a.library
  names : a.names.Grows a'.names

namespace Assembly

variable {a a' a'' : Assembly} {h : History Postponed}

namespace Learns

theorem refl (a : Assembly) : a.Learns a := ⟨rfl, rfl, .refl _⟩

theorem trans (h : a.Learns a') (h' : a'.Learns a'') : a.Learns a'' :=
  ⟨h'.layout.trans h.layout, h'.library.trans h.library, h.names.trans h'.names⟩

theorem report (a : Assembly) (e : Event) : a.Learns (a.report e) := ⟨rfl, rfl, .refl _⟩

theorem learn (a : Assembly) (name : String) : a.Learns (a.learn name).2 :=
  ⟨rfl, rfl, a.names.insert_grows name⟩

/-- Who learns names asks nothing of the layout. -/
theorem proceeds (hl : a.Learns a') (hf : a.Follows h) : Proceeds h a [] a' :=
  ⟨hf.grow hl.layout hl.names, trivial, by simp, hl.layout ▸ .refl _, hl.names, hl.library⟩

end Learns

/-! ## Calls -/

theorem labelData_learns (a : Assembly) (label : Label) : a.Learns (a.labelData label).2 := by
  unfold labelData
  dsimp only
  split
  · exact .refl a
  · exact .refl a
  · exact .report a _

theorem operandData_learns (a : Assembly) (c : Conditional.Concatenation) :
    a.Learns (a.operandData c).2 := by
  unfold operandData
  split
  · exact .refl a
  · exact .report a _

theorem argument_learns (a : Assembly) (o : Operand) : a.Learns (a.argument? o).2 := by
  unfold argument?
  split
  · exact .refl a
  · split
    · split
      · exact (Learns.learn a _).trans (operandData_learns _ _)
      · exact operandData_learns a _
    · exact operandData_learns a _
  · exact .report a _

theorem arguments_learns (a : Assembly) (os : List Operand) : a.Learns (a.arguments os).2 := by
  induction os generalizing a with
  | nil => exact .refl a
  | cons o os ih => exact (argument_learns a o).trans (ih _)

end Assembly

/-- What a call of a macro can be blamed for. -/
def callCodes : List DiagnosticCode := [.invalidExpression, .unknownKeywordParameter]

/-- Binding the arguments of a call complains of unknown keywords. -/
theorem MacroDefinition.call_among (d : MacroDefinition) (name : NameId) (label : MacroData)
    (args : List (Argument × Range)) (names : NameTable) :
    Among callCodes (d.call name label args names).2 := by
  rw [d.call_eq]
  intro complaint hcomplaint
  obtain ⟨⟨argument, range⟩, -, hargument⟩ := List.mem_filterMap.1 hcomplaint
  cases argument with
  | positional => simp at hargument
  | keyword name value =>
      obtain ⟨-, rfl⟩ : d.prototype.declares name = false ∧
          ⟨.unknownKeywordParameter, [names.nameOf name], range⟩ = complaint := by
        simpa using hargument
      simp [callCodes]

/-- A call of a macro in the library only learns names, and is handed on. -/
theorem Assembly.processCall_learns {a : Assembly} {s : Statement OperandField} {id : NameId}
    (hname : s.opcode.name = some id) (hbinds : a.library.binds id = true) :
    ∃ faults a' call, a.processCall s = .ok (faults, a', [.macroCalled call]) ∧
      Among callCodes faults ∧ a.Learns a' := by
  obtain ⟨hgrows, hamong⟩ := s.read_spec .macroOperands a.names
  have hread : a.Learns (a.read s .macroOperands).2.2 := ⟨rfl, rfl, hgrows⟩
  have hfaults : Among callCodes (a.read s .macroOperands).2.1 := hamong.mono (by simp [callCodes])
  have hopcode : (a.read s .macroOperands).1.opcode = s.opcode := s.opcode_read _ a.names
  unfold processCall
  generalize a.read s .macroOperands = read at hread hfaults hopcode
  obtain ⟨st, faults, b⟩ := read
  dsimp only at hread hfaults hopcode ⊢
  obtain ⟨d, hd⟩ : ∃ d, b.library.get? id = some d := by
    rw [hread.library]
    exact Option.isSome_iff_exists.1 hbinds
  have hfound : (st.opcode.name.bind fun id => (b.library.get? id).map (id, ·)) = some (id, d) := by
    simp [hopcode, hname, hd]
  rw [hfound]
  have hlabel := labelData_learns b st.label
  have harguments := arguments_learns (b.labelData st.label).2 st.operands
  refine ⟨_, _, _, rfl, among_append.2 ⟨hfaults, d.call_among _ _ _ _⟩, hread.trans ?_⟩
  exact (hlabel.trans harguments).trans ⟨rfl, rfl, .refl _⟩

/-! ## Definitions -/

namespace Collector

/-- What the statements of a definition can be blamed for. -/
def codes : List DiagnosticCode :=
  [.invalidExpression, .missingMacroName, .invalidPrototypeVariable, .duplicateSymbolicParameter,
    .invalidPrototypeOperand, .illegalPrototypeLabel, .duplicateSequenceSymbol]

/-- What the prototype of a definition can be blamed for. -/
def prototypeCodes : List DiagnosticCode :=
  [.invalidExpression, .missingMacroName, .invalidPrototypeVariable, .duplicateSymbolicParameter,
    .invalidPrototypeOperand, .illegalPrototypeLabel]

theorem prototypeCodes_subset : prototypeCodes ⊆ codes := by simp [prototypeCodes, codes]

/-- Read the next statement of a definition that is not finished. -/
def take (c : Collector) (a : Assembly) (st : Statement OperandField) : Collector × Assembly :=
  let (reading, c, a) := c.reading a st.operation
  let a := a.report (.statementRead .definition st.range reading.form)
  let st := { st with opcode := reading.opcode }
  if c.expectsPrototype then c.readPrototype a st else c.readBody a st

/-- The prototype that a statement is read as. -/
def prototypeOf (a : Assembly) (st : Statement OperandField) : Prototype :=
  (take { definition := {} } a st).1.definition.prototype

variable {c : Collector}

/-! ### The prototype -/

theorem complain_nil (c : Collector) : c.complain [] = c := by simp [complain]

/-- Reading the operation of a prototype complains at most of a missing name, and the name that it
finds does not depend on the definition. -/
theorem prototypeReading_eq (a : Assembly) (operation : Operation) :
    ∃ id ds a', Among prototypeCodes ds ∧ a.Learns a' ∧
      ∀ c : Collector, c.prototypeReading a operation =
        ({ reader := .definition, form := .macroOperands, opcode := ⟨some id, .definedMacro⟩ },
          c.complain ds, a') := by
  cases operation with
  | ordinary id =>
      refine ⟨id, [], a, among_nil, .refl a, fun c => ?_⟩
      rw [complain_nil]
      rfl
  | empty range =>
      exact ⟨(a.learn missingName).1, [{ code := .missingMacroName, range }], _,
        by simp [prototypeCodes], .learn a _, fun _ => rfl⟩
  | concatenation chain range =>
      unfold prototypeReading
      dsimp only
      cases Conditional.Concatenation.render a.names chain with
      | ok text =>
          refine ⟨(a.learn text).1, [], _, among_nil, .learn a text, fun c => ?_⟩
          rw [complain_nil]
      | error e =>
          let reported := a.report (.operationNotRendered e)
          refine ⟨(reported.learn missingName).1, [], (reported.learn missingName).2, among_nil,
            (Assembly.Learns.report a _).trans (.learn reported missingName), fun c => ?_⟩
          rw [complain_nil]

theorem declare_among (v : Conditional.VariableSymbol) (range : Range) (declared : List NameId) :
    FailsAmong prototypeCodes (declare v range declared) := by
  unfold declare
  split
  · simp [prototypeCodes]
  · split <;> simp [prototypeCodes]

theorem defaultData_learns (a : Assembly) (c : Conditional.Concatenation) :
    a.Learns (defaultData a c).2 := by
  unfold defaultData
  split
  · exact .refl a
  · exact .report a _

theorem readParameter_spec (a : Assembly) (declared : List NameId) (o : Operand) :
    Among prototypeCodes (readParameter a declared o).2.1 ∧
    a.Learns (readParameter a declared o).2.2 := by
  have hdeclare {v range d} (h : declare v range declared = .error d) :=
    declare_among v range declared d h
  unfold readParameter
  split
  · exact ⟨among_nil, .refl a⟩
  · split
    · exact ⟨among_nil, .refl a⟩
    · split
      · exact ⟨among_nil, .refl a⟩
      · rename_i heq
        exact ⟨among_cons.2 ⟨hdeclare heq, among_nil⟩, .refl a⟩
    · split
      · exact ⟨among_nil, defaultData_learns a _⟩
      · rename_i heq
        exact ⟨among_cons.2 ⟨hdeclare heq, among_nil⟩, .refl a⟩
    · exact ⟨by simp [prototypeCodes], .refl a⟩
  · exact ⟨by simp [prototypeCodes], .refl a⟩

theorem readParameters_spec (a : Assembly) (declared : List NameId) (os : List Operand) :
    Among prototypeCodes (readParameters a declared os).2.1 ∧
    a.Learns (readParameters a declared os).2.2 := by
  induction os generalizing a declared with
  | nil => exact ⟨among_nil, .refl a⟩
  | cons o os ih =>
      obtain ⟨hamong, hlearns⟩ := readParameter_spec a declared o
      obtain ⟨hrest, hlearns'⟩ := ih (readParameter a declared o).2.2
        (declared ++ (readParameter a declared o).1.name?.toList)
      exact ⟨among_append.2 ⟨hamong, hrest⟩, hlearns.trans hlearns'⟩

theorem labelParameter_among (label : Label) : Among prototypeCodes (labelParameter label).2 := by
  unfold labelParameter
  split
  · exact among_nil
  · split <;> simp [prototypeCodes]
  · simp [prototypeCodes]

/-- Reading a prototype sets the prototype of the definition, and what it finds does not depend on
the definition. -/
theorem readPrototype_eq (a : Assembly) (s : Statement OperandField) :
    ∃ prototype ds a', Among prototypeCodes ds ∧ a.Learns a' ∧
      ∀ c : Collector, c.readPrototype a s =
        ({ c with
            expectsPrototype := false
            definition := { c.definition with prototype }
            diagnostics := c.diagnostics ++ ds }, a') := by
  obtain ⟨hgrows, hread⟩ := s.read_spec .macroOperands a.names
  have hlearns : a.Learns (a.read s .macroOperands).2.2 := ⟨rfl, rfl, hgrows⟩
  have hfaults : Among prototypeCodes (a.read s .macroOperands).2.1 :=
    hread.mono (by simp [prototypeCodes])
  unfold readPrototype
  generalize a.read s .macroOperands = read at hlearns hfaults
  obtain ⟨st, faults, b⟩ := read
  have hlabel := labelParameter_among st.label
  dsimp only at hfaults hlearns ⊢
  generalize labelParameter st.label = found at hlabel
  obtain ⟨label, labelFaults⟩ := found
  obtain ⟨hparams, hlearns'⟩ := readParameters_spec b label.toList st.operands
  dsimp only at hlabel ⊢
  generalize readParameters b label.toList st.operands = declared at hparams hlearns'
  obtain ⟨params, paramFaults, b'⟩ := declared
  refine ⟨⟨st.opcode.name, label, params⟩, faults ++ labelFaults ++ paramFaults,
    b'.report (.prototypeRead ((st.opcode.name.map b'.names.nameOf).getD "") params.length),
    among_append.2 ⟨among_append.2 ⟨hfaults, hlabel⟩, hparams⟩,
    (hlearns.trans hlearns').trans (.report _ _), fun c => ?_⟩
  simp only [List.append_assoc]

/-- The next statement is the prototype, whatever it is. -/
theorem take_prototype (hc : c.expectsPrototype = true) (a : Assembly)
    (st : Statement OperandField) :
    ∃ ds a', Among prototypeCodes ds ∧ a.Learns a' ∧
      c.take a st =
        ({ c with
            expectsPrototype := false
            definition := { c.definition with prototype := prototypeOf a st }
            diagnostics := c.diagnostics ++ ds }, a') := by
  obtain ⟨id, ds, b, hds, hlearns, hreading⟩ := prototypeReading_eq a st.operation
  obtain ⟨prototype, ds', b', hds', hlearns', hread⟩ := readPrototype_eq
    (b.report (.statementRead .definition st.range .macroOperands))
    { st with opcode := ⟨some id, .definedMacro⟩ }
  have htake (c : Collector) (hc : c.expectsPrototype = true) : c.take a st =
      ({ c with
          expectsPrototype := false
          definition := { c.definition with prototype }
          diagnostics := c.diagnostics ++ (ds ++ ds') }, b') := by
    simp only [take, Collector.reading, hc, if_true, hreading, complain, hread, List.append_assoc]
  have hprototype : prototypeOf a st = prototype := by rw [prototypeOf, htake _ rfl]
  exact ⟨ds ++ ds', b', among_append.2 ⟨hds, hds'⟩, (hlearns.trans (.report _ _)).trans hlearns',
    hprototype ▸ htake c hc⟩

/-! ### The body -/

/-- Marking a statement complains at most of a mark that is there already. -/
theorem mark_eq (c : Collector) (a : Assembly) (label : Label) :
    ∃ marks ds, Among codes ds ∧ c.mark a label =
      { c with
        definition := { c.definition with marks }
        diagnostics := c.diagnostics ++ ds } := by
  unfold mark
  split
  · rename_i name range
    split
    · exact ⟨c.definition.marks, _, by simp [codes], rfl⟩
    · refine ⟨c.definition.marks.set name ⟨a.location, c.line⟩, [], among_nil, ?_⟩
      rw [List.append_nil]
  · exact ⟨c.definition.marks, [], among_nil, by simp⟩

/-- The number of MACRO statements that are open behind an operation, if so many are before it. -/
def depthAfter (name : Option String) (depth : Nat) : Nat :=
  if name = some "MACRO" then depth + 1
  else if name = some "MEND" then depth - 1
  else depth

/-- A statement of the body is marked and then added to it, unless it is the MEND that closes the
definition. -/
theorem readBody_eq (c : Collector) (a : Assembly) (st : Statement OperandField) :
    ∃ a', a.Learns a' ∧
      let depth := depthAfter (operationName a st.operation) c.depth
      let marked : Collector := { c.mark a st.label with depth }
      c.readBody a st =
        (if operationName a st.operation = some "MEND" ∧ depth = 0 then
            { marked with finished := true }
          else marked.append st, a') := by
  have hdepth : (c.mark a st.label).depth = c.depth := by
    obtain ⟨marks, ds, -, hmark⟩ := c.mark_eq a st.label
    rw [hmark]
  unfold readBody
  dsimp only
  rw [hdepth]
  split
  · rename_i hname
    refine ⟨a.report (.definitionNested (c.depth + 1)), .report a _, ?_⟩
    simp only [hname, depthAfter]
    rfl
  · rename_i hname
    simp only [hname, depthAfter]
    split
    · exact ⟨a.report (.definitionClosed st.range), .report a _, by simp_all⟩
    · exact ⟨a, .refl a, by simp_all⟩
  · rename_i hmacro hmend
    have hsame : depthAfter (operationName a st.operation) c.depth = c.depth := by
      rw [depthAfter, if_neg hmacro, if_neg hmend]
    refine ⟨a, .refl a, ?_⟩
    rw [hsame, if_neg fun h => hmend h.1, ← hdepth]

/-- The statements behind the prototype are the body, without the MEND that closes the
definition. -/
theorem take_body (hc : c.expectsPrototype = false) (a : Assembly) (st : Statement OperandField) :
    ∃ marks ds a', Among codes ds ∧ a.Learns a' ∧
      let depth := depthAfter (operationName a st.operation) c.depth
      let marked : Collector :=
        { c with
          definition := { c.definition with marks }
          depth
          diagnostics := c.diagnostics ++ ds }
      c.take a st =
        (if operationName a st.operation = some "MEND" ∧ depth = 0 then
            { marked with finished := true }
          else marked.append { st with opcode := (bodyReading a st.operation).opcode }, a') := by
  let b := a.report (.statementRead .definition st.range (bodyReading a st.operation).form)
  let coded := { st with opcode := (bodyReading a st.operation).opcode }
  have hlearns : a.Learns b := .report a _
  obtain ⟨marks, ds, hds, hmark⟩ := c.mark_eq b st.label
  obtain ⟨a', hlearns', hbody⟩ := c.readBody_eq b coded
  have htake : c.take a st = c.readBody b coded := by
    simp only [take, reading, hc, Bool.false_eq_true, if_false]
    rfl
  refine ⟨marks, ds, a', hds, hlearns.trans hlearns', ?_⟩
  rw [htake, hbody, show c.mark b coded.label = _ from hmark,
    show operationName b coded.operation = operationName a st.operation from rfl]

/-! ### Statements and the end -/

/-- A definition that is not finished takes every statement. -/
theorem process_of_open (hc : c.finished = false) (a : Assembly) (s : Statement OperandField) :
    c.process a s = .ok (if c.expectsPrototype then c.readPrototype a s else c.readBody a s) := by
  unfold process
  rw [hc, if_neg Bool.false_ne_true]
  split <;> rfl

/-- Every statement of a definition learns names and complains at most of itself. -/
theorem take_spec (c : Collector) (a : Assembly) (st : Statement OperandField) :
    a.Learns (c.take a st).2 ∧
      ∃ ds, Among codes ds ∧ (c.take a st).1.diagnostics = c.diagnostics ++ ds := by
  cases hc : c.expectsPrototype with
  | true =>
      obtain ⟨ds, a', hds, hlearns, heq⟩ := take_prototype hc a st
      rw [heq]
      exact ⟨hlearns, ds, hds.mono prototypeCodes_subset, rfl⟩
  | false =>
      obtain ⟨marks, ds, a', hds, hlearns, heq⟩ := take_body hc a st
      rw [heq]
      refine ⟨hlearns, ds, hds, ?_⟩
      dsimp only
      split <;> rfl

/-- Ending a definition complains at most that it was not closed. -/
theorem finish_spec (c : Collector) (a : Assembly) :
    ∃ ds, Among [.unterminatedMacro] ds ∧ ds.length ≤ 1 ∧
      (c.finish a).1.diagnostics = c.diagnostics ++ ds := by
  unfold finish
  split
  · exact ⟨[], among_nil, Nat.zero_le 1, by simp⟩
  · dsimp only
    split
    · exact ⟨[], among_nil, Nat.zero_le 1, rfl⟩
    · exact ⟨[_], by simp, Nat.le_refl 1, rfl⟩

end Collector

end MacroAssembler
