import Mathlib
import MacroAssembler.Proofs.Assembly.Equations
import MacroAssembler.Proofs.Field.StatementCase
import MacroAssembler.Proofs.Layout.Relabel

/-!
# Letter case in open code

Two sources without macro definitions that differ in the case of letters outside of apostrophes
have the same symbols, the same location counter and the same complaints. What a session keeps of
a statement can differ in concatenations in the name field and in the operation field only, which
open code does not look into: it does the same with the outline of an assembly as with the
assembly.
-/

namespace MacroAssembler

open Layout (History)

/-- The waiting check without what concatenations in its statement say. -/
def Postponed.outline (p : Postponed) : Postponed := { p with statement := p.statement.outline }

/-- The assembly without what concatenations in the statements that wait say. -/
def Assembly.outline (a : Assembly) : Assembly :=
  { a with layout := a.layout.map Postponed.outline }

/-! ## Outlines -/

namespace Assembly

variable (a : Assembly) (s : Statement (List Operand))

@[simp] theorem outline_names : a.outline.names = a.names := rfl

/-- What a layout is asked for does not depend on what waits in it. -/
theorem request_outline {α : Type} {f g : Layout Postponed → α × Layout Postponed}
    (h : ∀ l, g (l.map Postponed.outline) = ((f l).1, (f l).2.map Postponed.outline)) :
    a.outline.request g = ((a.request f).1, (a.request f).2.outline) := by
  simp only [request, outline, h]
  rfl

theorem change_outline {f g : Layout Postponed → Layout Postponed}
    (h : ∀ l, g (l.map Postponed.outline) = (f l).map Postponed.outline) :
    a.outline.change g = (a.change f).outline := by
  have hrequest := a.request_outline (f := fun l => ((), f l)) (g := fun l => ((), g l))
    fun l => congrArg (Prod.mk ()) (h l)
  exact congrArg Prod.snd hrequest

theorem align_outline (alignment : Alignment) : a.outline.request (·.align alignment) =
    ((a.request (·.align alignment)).1, (a.request (·.align alignment)).2.outline) :=
  a.request_outline fun l => Layout.map_align Postponed.outline l alignment

theorem reserve_outline (size : Int32) (alignment : Alignment) :
    a.outline.request (·.reserve size alignment) =
      ((a.request (·.reserve size alignment)).1,
        (a.request (·.reserve size alignment)).2.outline) :=
  a.request_outline fun l => Layout.map_reserve Postponed.outline l size alignment

/-- An entry without work waits in the outline. -/
theorem await_outline (target : Option Unknown) (sources : List Source) (range : Range) :
    a.outline.change (·.await ⟨target, sources, none, range⟩) =
      (a.change (·.await ⟨target, sources, none, range⟩)).outline :=
  a.change_outline fun l => Layout.map_await _ l ⟨target, sources, none, range⟩

theorem defineLabel_outline (name : NameId) (range : Range) (place : Address)
    (attributes : SymbolAttributes) :
    a.outline.defineLabel name range place attributes =
      ((a.defineLabel name range place attributes).1,
        (a.defineLabel name range place attributes).2.outline) := by
  have hdefine : a.outline.layout.define ⟨name, .relocatable place, attributes, a.location⟩ =
      (a.layout.define ⟨name, .relocatable place, attributes, a.location⟩).map
        (Layout.map Postponed.outline) := Layout.map_define _ a.layout _
  unfold defineLabel
  rw [show a.outline.location = a.location from rfl, hdefine]
  cases a.layout.define ⟨name, .relocatable place, attributes, a.location⟩ with
  | error e => rfl
  | ok layout =>
      have hchange := a.change_outline (f := fun _ => layout)
        (g := fun _ => layout.map Postponed.outline) fun _ => rfl
      dsimp only [Except.map]
      rw [hchange]
      split
      · rw [await_outline]
      · rfl

theorem defineMachineLabel_outline (i : MachineInstruction) :
    a.outline.defineMachineLabel s.outline i =
      ((a.defineMachineLabel s i).1, (a.defineMachineLabel s i).2.outline) := by
  obtain ⟨label, operation, opcode, operands, range⟩ := s
  cases label with
  | ordinary name range =>
      unfold defineMachineLabel
      simp only [Statement.outline, Label.outline, align_outline, defineLabel_outline]
      rw [show a.outline.defines name = a.defines name from rfl]
      split <;> rfl
  | empty | sequence | reference | concatenation => rfl

theorem checkOrPostpone_outline (i : MachineInstruction) (formats : List OperandFormat) :
    a.outline.checkOrPostpone s.outline i formats =
      ((a.checkOrPostpone s i formats).1, (a.checkOrPostpone s i formats).2.outline) := by
  have hsettled (e : OrdinaryExpr NameId) : a.outline.isSettled e = a.isSettled e := rfl
  unfold checkOrPostpone
  simp only [hsettled]
  rw [show s.outline.operands = s.operands from rfl, show s.outline.range = s.range from rfl]
  split
  · rfl
  · have hreport (e : Event) : a.outline.report e = (a.report e).outline := rfl
    simp only [hreport]
    refine congrArg (Prod.mk []) (change_outline _ fun l => ?_)
    exact Layout.map_await Postponed.outline l ⟨none, _, some ⟨s, a.stack⟩, s.range⟩

theorem replayMachine_outline (p : Postponed) :
    a.outline.replayMachine p.outline = (a.replayMachine p).map fun r => (r.1, r.2.outline) := by
  have hencoded : a.outline.encoded p.outline.statement = a.encoded p.statement := rfl
  unfold replayMachine
  rw [hencoded]
  cases a.encoded p.statement <;> rfl

theorem freshLabel_outline : a.outline.freshLabel s.outline = a.freshLabel s := by
  obtain ⟨label, operation, opcode, operands, range⟩ := s
  cases label <;> rfl

theorem defineSymbol_outline (name : NameId) (range : Range) (value : SymbolValue)
    (attributes : SymbolAttributes) : a.outline.defineSymbol name range value attributes =
      (a.defineSymbol name range value attributes).map outline := by
  have hdefine : a.outline.layout.define ⟨name, value, attributes, a.location⟩ =
      (a.layout.define ⟨name, value, attributes, a.location⟩).map
        (Layout.map Postponed.outline) := Layout.map_define _ a.layout _
  unfold defineSymbol
  rw [show a.outline.location = a.location from rfl, hdefine]
  cases a.layout.define ⟨name, value, attributes, a.location⟩ with
  | error e => rfl
  | ok layout => exact congrArg Except.ok (a.change_outline fun _ => rfl)

theorem equate_outline (name : NameId) (range : Range) (e : OrdinaryExpr NameId) :
    a.outline.equate s.outline name range e =
      ((a.equate s name range e).1, (a.equate s name range e).2.outline) := by
  have hsettled : a.outline.isSettled e = a.isSettled e := rfl
  have hvalue : a.outline.layout.table.evaluate e = a.layout.table.evaluate e := rfl
  have hlength : a.outline.lengthOf? = a.lengthOf? := rfl
  have hoperand : operandExpr? s.outline 1 = operandExpr? s 1 := rfl
  unfold equate
  rw [hsettled, hvalue, hlength, hoperand]
  split
  · cases a.layout.table.evaluate e with
    | error => rfl
    | ok value =>
        dsimp only
        rw [defineSymbol_outline]
        cases a.defineSymbol name range value _ <;> rfl
  · have hreport (e : Event) : a.outline.report e = (a.report e).outline := rfl
    dsimp only
    rw [outline_names, hreport, defineSymbol_outline]
    cases (a.report _).defineSymbol name range .undefined _ with
    | error => rfl
    | ok b => exact congrArg (Prod.mk []) (b.await_outline _ _ _)

theorem processEquate_outline : a.outline.processEquate s.outline =
    ((a.processEquate s).1, (a.processEquate s).2.outline) := by
  have hoperand : operandExpr? s.outline 0 = operandExpr? s 0 := rfl
  unfold processEquate
  rw [freshLabel_outline, hoperand]
  split
  · obtain ⟨label, operation, opcode, operands, range⟩ := s
    cases label <;> rfl
  · split
    · rfl
    · rw [equate_outline]

theorem reserveStorage_outline (e : OrdinaryExpr NameId) : a.outline.reserveStorage s.outline e =
    ((a.reserveStorage s e).1, (a.reserveStorage s e).2.1, (a.reserveStorage s e).2.2.1,
      (a.reserveStorage s e).2.2.2.outline) := by
  have hsettled : a.outline.isSettled e = a.isSettled e := rfl
  have hlength : a.outline.lengthOf? e = a.lengthOf? e := rfl
  have hlater := a.request_outline
    (f := (·.reserveLater e .none s.range)) (g := (·.reserveLater e .none s.range))
    fun l => Layout.map_reserveLater Postponed.outline l e .none s.range
  unfold reserveStorage
  rw [hsettled, hlength]
  split
  · split
    · rw [reserve_outline]
    · rw [align_outline]
  · rw [show s.outline.range = s.range from rfl, hlater]

theorem processReserve_outline : a.outline.processReserve s.outline =
    ((a.processReserve s).1, (a.processReserve s).2.outline) := by
  have hoperand : operandExpr? s.outline 0 = operandExpr? s 0 := rfl
  unfold processReserve
  rw [freshLabel_outline, hoperand]
  dsimp only
  split
  · rfl
  · rw [reserveStorage_outline]
    dsimp only
    split
    · rfl
    · rw [defineLabel_outline]

theorem processUndefined_outline (operation : Operation) :
    a.outline.processUndefined operation.outline =
      ((a.processUndefined operation).1, (a.processUndefined operation).2.outline) := by
  cases operation <;> rfl

/-- The operation of a statement is read by its name, and not by what a concatenation says. -/
theorem openReading_outline (operation : Operation) :
    a.outline.openReading operation.outline = a.openReading operation := by
  cases operation <;> rfl

end Assembly

/-! ## Two runs -/

/-- Both runs break the same contract, or have results that are related. -/
inductive Both {ε α β : Type} (R : α → β → Prop) : Except ε α → Except ε β → Prop where
  | error (e : ε) : Both R (.error e) (.error e)
  | ok {x : α} {y : β} : R x y → Both R (.ok x) (.ok y)

namespace Both

variable {ε α β α' β' γ : Type} {R : α → β → Prop} {S : α' → β' → Prop} {x : Except ε α}
variable {y : Except ε β}

theorem bind {f : α → Except ε α'} {g : β → Except ε β'} (h : Both R x y)
    (hfg : ∀ x y, R x y → Both S (f x) (g y)) : Both S (x >>= f) (y >>= g) := by
  cases h with
  | error e => exact .error e
  | ok h => exact hfg _ _ h

/-- Runs with the same image have results with the same image. -/
theorem of_map {f : α → γ} {g : β → γ} (h : x.map f = y.map g) :
    Both (fun x y => f x = g y) x y := by
  cases x with
  | error e =>
      cases y with
      | error e' =>
          obtain rfl : e = e' := Except.error.inj h
          exact .error e
      | ok y => cases h
  | ok x =>
      cases y with
      | error e => cases h
      | ok y => exact .ok (Except.ok.inj h)

/-- If the first run has a result, then so has the second one. -/
theorem exists_ok {x : α} (h : Both R (.ok x) y) : ∃ z, y = .ok z ∧ R x z := by
  cases h with
  | ok h => exact ⟨_, rfl, h⟩

end Both

/-- Diagnostics with the same codes and ranges, and assemblies with the same outline. -/
structure SameOutcome (x y : List Diagnostic × Assembly) : Prop where
  faults : x.1.map Diagnostic.gist = y.1.map Diagnostic.gist
  assembly : x.2.outline = y.2.outline

namespace Assembly

variable {a b : Assembly} {s s' : Statement OperandField} {st st' : Statement (List Operand)}

theorem names_eq (h : a.outline = b.outline) : a.names = b.names := congrArg (·.names) h

theorem report_eq (h : a.outline = b.outline) (e : Event) :
    (a.report e).outline = (b.report e).outline := congrArg (·.report e) h

/-- What is done with outlines only depends on outlines. -/
theorem congr_outline {α : Type} {f : Assembly → Statement (List Operand) → α × Assembly}
    (hf : ∀ a s, f a.outline s.outline = ((f a s).1, (f a s).2.outline))
    (h : a.outline = b.outline) (hst : st.outline = st'.outline) :
    (f a st).1 = (f b st').1 ∧ (f a st).2.outline = (f b st').2.outline := by
  have hleft := hf a st
  rw [h, hst, hf b st'] at hleft
  obtain ⟨hfirst, hsecond⟩ := Prod.mk.inj hleft
  exact ⟨hfirst.symm, hsecond.symm⟩

/-- Statements that differ in letter case are read alike. -/
theorem read_alike (h : a.outline = b.outline) (hs : s.Twins s') {form : OperandForm}
    (hform : form ≠ .macroOperands) :
    (a.read s form).1.outline = (b.read s' form).1.outline ∧
      SameOutcome (a.read s form).2 (b.read s' form).2 := by
  obtain ⟨hstatement, hfaults, hnames⟩ := hs.read hform a.names
  unfold read
  rw [← names_eq h]
  refine ⟨hstatement, hfaults, ?_⟩
  have hassembly : { a.outline with names := (s.read form a.names).2.2 } =
      { b.outline with names := (s'.read form a.names).2.2 } := by rw [h, hnames]
  exact hassembly

/-- A machine statement does the same in both runs. -/
theorem processMachine_alike (h : a.outline = b.outline) (hs : s.Twins s') :
    Both SameOutcome (a.processMachine s) (b.processMachine s') := by
  have hform : OperandForm.machine ≠ .macroOperands := by decide
  obtain ⟨hstatement, hread⟩ := read_alike h hs hform
  unfold processMachine
  generalize a.read s .machine = r at hstatement hread ⊢
  generalize b.read s' .machine = r' at hstatement hread ⊢
  obtain ⟨st, ds, a₁⟩ := r
  obtain ⟨st', ds', b₁⟩ := r'
  obtain ⟨hfaults, hassembly⟩ := hread
  dsimp only at hstatement hfaults hassembly ⊢
  have hencoded : a₁.encoded st = b₁.encoded st' := by
    change a₁.outline.encoded st.outline = b₁.outline.encoded st'.outline
    rw [hassembly, hstatement]
  rw [← hencoded]
  cases a₁.encoded st with
  | error e => exact .error e
  | ok found =>
      obtain ⟨i, formats⟩ := found
      obtain ⟨hlabel, h₂⟩ := congr_outline (f := fun a s => a.defineMachineLabel s i)
        (fun a s => a.defineMachineLabel_outline s i) hassembly hstatement
      obtain ⟨hcheck, h₃⟩ := congr_outline (f := fun a s => a.checkOrPostpone s i formats)
        (fun a s => a.checkOrPostpone_outline s i formats) h₂ hstatement
      obtain ⟨-, h₄⟩ := congr_outline
        (f := fun a _ => a.request (·.reserve (Int32.ofNat i.bytes) .none))
        (fun a _ => a.reserve_outline (Int32.ofNat i.bytes) .none) h₃ hstatement
      refine .ok ⟨?_, h₄⟩
      dsimp only
      rw [List.map_append, List.map_append, hfaults, hlabel, hcheck, List.map_append,
        List.map_append]

/-- An instruction to the assembler does the same in both runs. -/
theorem processDirective_alike (h : a.outline = b.outline) (hs : s.Twins s') :
    SameOutcome (a.processDirective s) (b.processDirective s') := by
  have hform : OperandForm.assembler ≠ .macroOperands := by decide
  obtain ⟨hstatement, hread⟩ := read_alike h hs hform
  unfold processDirective
  generalize a.read s .assembler = r at hstatement hread ⊢
  generalize b.read s' .assembler = r' at hstatement hread ⊢
  obtain ⟨st, ds, a₁⟩ := r
  obtain ⟨st', ds', b₁⟩ := r'
  obtain ⟨hfaults, hassembly⟩ := hread
  dsimp only at hstatement hfaults hassembly ⊢
  have hopcode : st.opcode = st'.opcode := congrArg (·.opcode) hstatement
  have hrange : st.range = st'.range := congrArg (·.range) hstatement
  rw [hopcode, hrange, names_eq hassembly]
  split
  · obtain ⟨hmore, hafter⟩ := congr_outline processEquate_outline hassembly hstatement
    refine ⟨?_, hafter⟩
    dsimp only
    rw [List.map_append, hfaults, hmore, List.map_append]
  · obtain ⟨hmore, hafter⟩ := congr_outline processReserve_outline hassembly hstatement
    refine ⟨?_, hafter⟩
    dsimp only
    rw [List.map_append, hfaults, hmore, List.map_append]
  · exact ⟨hfaults, report_eq hassembly _⟩
  · exact ⟨hfaults, report_eq hassembly _⟩

/-- An instruction of conditional assembly does the same in both runs. -/
theorem processConditional_alike (h : a.outline = b.outline) (hs : s.Twins s') :
    (a.processConditional s).1.outline = (b.processConditional s').1.outline ∧
      (a.processConditional s).2 = (b.processConditional s').2 := by
  have hlocation : a.location = b.location := congrArg (·.location) h
  unfold processConditional
  rw [hs.opcode, hs.range, names_eq h, hlocation]
  dsimp only
  split
  · exact ⟨h, rfl⟩
  · exact ⟨report_eq h _, rfl⟩

/-- No macro can be called where none is defined. -/
theorem processCall_of_nil (hlibrary : a.library = []) (s : Statement OperandField) :
    a.processCall s = .error (.undefinedMacro s.range) := by
  have hrange : (a.read s .macroOperands).1.range = s.range := s.range_read .macroOperands a.names
  have hlibrary' : (a.read s .macroOperands).2.2.library = [] := hlibrary
  unfold processCall
  generalize a.read s .macroOperands = r at hrange hlibrary' ⊢
  obtain ⟨st, ds, a₁⟩ := r
  dsimp only at hrange hlibrary' ⊢
  have hnone : (st.opcode.name.bind fun id => (a₁.library.get? id).map (id, ·)) = none := by
    rw [hlibrary']
    cases st.opcode.name <;> rfl
  rw [hnone, ← hrange]

end Assembly

/-- The unfetched diagnostics of open code without their arguments. -/
structure OpenCode.SameGists (o o' : OpenCode) : Prop where
  own : o.own.map Diagnostic.gist = o'.own.map Diagnostic.gist
  machine : o.machine.map Diagnostic.gist = o'.machine.map Diagnostic.gist
  directives : o.directives.map Diagnostic.gist = o'.directives.map Diagnostic.gist

namespace OpenCode

variable {o o' : OpenCode} {a b : Assembly}

/-- The states of open code have the same gists, and the assemblies the same outline. -/
structure SameState (x y : OpenCode × Assembly) : Prop where
  gists : x.1.SameGists y.1
  assembly : x.2.outline = y.2.outline

/-- Where no macro is defined, a statement of open code does the same in both runs. -/
theorem process_alike (ho : o.SameGists o') (h : a.outline = b.outline) (hlibrary : a.library = [])
    {s s' : Statement OperandField} (hs : s.Twins s') :
    Both (fun x y => SameState (x.1, x.2.1) (y.1, y.2.1) ∧ x.2.2 = y.2.2) (o.process a s)
      (o'.process b s') := by
  have hlibrary' : b.library = [] := (congrArg (·.library) h).symm.trans hlibrary
  have hsame : s'.opcode.kind = s.opcode.kind := congrArg (·.kind) hs.opcode.symm
  cases hkind : s.opcode.kind with
  | conditional =>
      obtain ⟨hassembly, hnotices⟩ := Assembly.processConditional_alike h hs
      unfold process
      rw [hsame, hkind]
      dsimp only
      generalize a.processConditional s = x at hassembly hnotices ⊢
      generalize b.processConditional s' = y at hassembly hnotices ⊢
      exact .ok ⟨⟨ho, hassembly⟩, hnotices⟩
  | machine =>
      unfold process
      rw [hsame, hkind]
      refine (Assembly.processMachine_alike h hs).bind fun x y hxy => ?_
      refine .ok ⟨⟨⟨ho.own, ?_, ho.directives⟩, hxy.assembly⟩, rfl⟩
      dsimp only
      rw [List.map_append, ho.machine, hxy.faults, List.map_append]
  | assembler =>
      obtain ⟨hfaults, hassembly⟩ := Assembly.processDirective_alike h hs
      have hdirectives : (o.directives ++ (a.processDirective s).1).map Diagnostic.gist =
          (o'.directives ++ (b.processDirective s').1).map Diagnostic.gist := by
        rw [List.map_append, ho.directives, hfaults, List.map_append]
      rw [process_of_assembler hkind, process_of_assembler (hsame.trans hkind)]
      exact .ok ⟨⟨⟨ho.own, ho.machine, hdirectives⟩, hassembly⟩, rfl⟩
  | definedMacro =>
      unfold process
      rw [hsame, hkind]
      dsimp only
      rw [a.processCall_of_nil hlibrary, b.processCall_of_nil hlibrary', hs.range]
      exact .error _
  | undefined =>
      have hleft := a.processUndefined_outline s.operation
      rw [h, hs.operation, b.processUndefined_outline s'.operation] at hleft
      obtain ⟨hfaults, hassembly⟩ := Prod.mk.inj hleft
      have hown : (o.own ++ (a.processUndefined s.operation).1).map Diagnostic.gist =
          (o'.own ++ (b.processUndefined s'.operation).1).map Diagnostic.gist := by
        rw [List.map_append, ho.own, hfaults, List.map_append]
      rw [process_of_undefined hkind, process_of_undefined (hsame.trans hkind)]
      exact .ok ⟨⟨⟨hown, ho.machine, ho.directives⟩, hassembly.symm⟩, rfl⟩

/-- A released check does the same in both runs. -/
theorem replay_alike (ho : o.SameGists o') (h : a.outline = b.outline) {p p' : Postponed}
    (hp : p.outline = p'.outline) : Both SameState (o.replay a p) (o'.replay b p') := by
  have hopcode : p.statement.opcode = p'.statement.opcode := congrArg (·.statement.opcode) hp
  have hrange : p.statement.range = p'.statement.range := congrArg (·.statement.range) hp
  have hmachine := a.replayMachine_outline p
  rw [h, hp, b.replayMachine_outline p'] at hmachine
  unfold replay
  rw [← hopcode]
  split
  · refine (Both.of_map hmachine.symm).bind fun x y hxy => ?_
    obtain ⟨hfaults, hassembly⟩ := Prod.mk.inj hxy
    refine .ok ⟨⟨ho.own, ?_, ho.directives⟩, hassembly⟩
    dsimp only
    rw [List.map_append, ho.machine, hfaults, List.map_append]
  · rw [hrange]
    exact .ok ⟨ho, Assembly.report_eq h _⟩

/-- Released checks do the same in both runs. -/
theorem replayAll_alike {ps ps' : List Postponed}
    (hps : ps.map Postponed.outline = ps'.map Postponed.outline) (ho : o.SameGists o')
    (h : a.outline = b.outline) : Both SameState (o.replayAll a ps) (o'.replayAll b ps') := by
  induction ps generalizing o o' a b ps' with
  | nil =>
      obtain rfl : ps' = [] := by simpa using hps.symm
      exact .ok ⟨ho, h⟩
  | cons p ps ih =>
      cases ps' with
      | nil => cases hps
      | cons p' ps' =>
          obtain ⟨hp, hps⟩ := List.cons.inj hps
          exact (replay_alike ho h hp).bind fun x y hxy => ih hps hxy.gists hxy.assembly

end OpenCode

/-! ## Sessions -/

/-- The sessions are the same but for the arguments of diagnostics and for what concatenations in
statements that wait say. -/
structure Session.Twins (s t : Session) : Prop where
  assembly : s.assembly.outline = t.assembly.outline
  openCode : s.openCode.SameGists t.openCode
  collectors : s.collectors = t.collectors
  pendingStart : s.pendingStart = t.pendingStart
  completed : s.completed = t.completed
  diagnostics : s.diagnostics.map Diagnostic.gist = t.diagnostics.map Diagnostic.gist
  tracing : s.tracing = t.tracing

namespace Session

variable {s t : Session} {h h' : History Postponed} {p q : SourceStatement × Nat}

/-- What a statement asks for is noted in both sessions. -/
theorem Twins.noticeAll (h : s.Twins t) (ns : List Notice) :
    (s.noticeAll ns).Twins (t.noticeAll ns) := by
  induction ns generalizing s t with
  | nil => exact h
  | cons n ns ih =>
      refine ih ?_
      cases n with
      | definitionStarted location => exact { h with pendingStart := rfl }
      | definitionFinished d =>
          exact { h with completed := congrArg (· ++ [d]) h.completed }
      | macroCalled c => exact { h with }

/-- The definition that a statement asked for is started in both sessions. -/
theorem Twins.startPending (h : s.Twins t) : s.startPending.Twins t.startPending := by
  unfold Session.startPending
  rw [h.pendingStart]
  split
  · exact h
  · rename_i location _
    exact { h with
      assembly := Assembly.report_eq h.assembly (.definitionStarted location.position)
      pendingStart := rfl
      collectors := congrArg (_ :: ·) h.collectors }

/-- Completed definitions are added to both libraries. -/
theorem Twins.registerCompleted (h : s.Twins t) :
    s.registerCompleted.Twins t.registerCompleted := by
  have hregister (a : Assembly) (d : MacroDefinition) :
      (register a d).outline = register a.outline d := by
    unfold register
    split <;> rfl
  have hall (ds : List MacroDefinition) (a : Assembly) :
      (ds.foldl register a).outline = ds.foldl register a.outline := by
    induction ds generalizing a with
    | nil => rfl
    | cons d ds ih => rw [List.foldl_cons, List.foldl_cons, ih, hregister]
  refine { h with assembly := ?_, completed := rfl }
  change (s.completed.foldl register s.assembly).outline =
    (t.completed.foldl register t.assembly).outline
  rw [hall, hall, h.assembly, h.completed]

/-- The released checks are made in both sessions. -/
theorem Twins.replay (h : s.Twins t) : Both Twins s.replay t.replay := by
  have hrequest (a : Assembly) : a.outline.request (·.takeReady) =
      ((a.request (·.takeReady)).1.map Postponed.outline,
        (a.request (·.takeReady)).2.outline) := rfl
  have hready := hrequest s.assembly
  rw [h.assembly, hrequest t.assembly] at hready
  obtain ⟨hready, hassembly⟩ := Prod.mk.inj hready
  unfold Session.replay
  refine (OpenCode.replayAll_alike hready.symm h.openCode hassembly.symm).bind fun x y hxy => ?_
  exact .ok { h with assembly := hxy.assembly, openCode := hxy.gists }

/-- The diagnostics of both sessions are gathered. -/
theorem Twins.collect (h : s.Twins t) : s.collect.Twins t.collect := by
  have hlayout (a : Assembly) : a.outline.takeLayoutDiagnostics =
      (a.takeLayoutDiagnostics.1, a.takeLayoutDiagnostics.2.outline) := rfl
  have htake := hlayout s.assembly
  rw [h.assembly, hlayout t.assembly] at htake
  obtain ⟨hfromLayout, hassembly⟩ := Prod.mk.inj htake
  have hfromOpenCode : s.openCode.collect.1.map Diagnostic.gist =
      t.openCode.collect.1.map Diagnostic.gist := by
    simp only [OpenCode.collect, List.map_append, h.openCode.own, h.openCode.machine,
      h.openCode.directives]
  refine { h with
    assembly := hassembly.symm
    openCode := ⟨rfl, rfl, rfl⟩
    collectors := congrArg (fun cs => (cs.map Collector.collect).map Prod.snd) h.collectors
    diagnostics := ?_ }
  unfold Session.collect
  simp only [List.map_append, h.collectors, h.diagnostics, hfromOpenCode, hfromLayout]

/-- Both sessions settle. -/
theorem Twins.settle (h : s.Twins t) : Both Twins s.settle t.settle := by
  unfold Session.settle
  exact h.startPending.registerCompleted.replay.bind fun _ _ hst => .ok hst.collect

/-- Both sessions read the next statement. -/
theorem Twins.readNext (h : s.Twins t) (hletters : p.1.SameLetters q.1) (hline : p.2 = q.2) :
    (s.readNext p).1.Twins (t.readNext q).1 ∧ (s.readNext p).2.Twins (t.readNext q).2 := by
  obtain ⟨hstatement, hnames⟩ := hletters.toStatement p.2 s.assembly.names
  unfold Session.readNext
  rw [← hline, ← Assembly.names_eq h.assembly]
  have hassembly (names : NameTable) : { s.assembly with names }.outline =
      { t.assembly with names }.outline := congrArg (fun a => { a with names }) h.assembly
  refine ⟨hstatement, { h with assembly := ?_ }⟩
  dsimp only
  rw [hnames, hassembly]

/-- Both sessions turn to a statement. -/
theorem Twins.turnTo (h : s.Twins t) {st st' : Statement OperandField} (hst : st.Twins st') :
    (s.turnTo st).Twins (t.turnTo st') := by
  have hsubject : s.subject st.operation = t.subject st'.operation := by
    have houtline (s : Session) (operation : Operation) :
        s.subject operation.outline = s.subject operation := by
      cases operation <;> rfl
    have hsame (operation : Operation) : s.subject operation = t.subject operation := by
      unfold subject
      rw [Assembly.names_eq h.assembly]
    rw [← houtline, hst.operation, houtline, hsame]
  have hmove (a : Assembly) (place : Position) :
      (a.moveTo place).outline = a.outline.moveTo place := by
    unfold Assembly.moveTo
    rw [show a.outline.stack = a.stack from rfl]
    split <;> rfl
  have hreport (e : Event) : (s.report e).Twins (t.report e) :=
    { h with assembly := Assembly.report_eq h.assembly e }
  have hmoved {s t : Session} (h : s.Twins t) (place : Position) :
      Twins { s with assembly := s.assembly.moveTo place }
        { t with assembly := t.assembly.moveTo place } := by
    refine { h with assembly := ?_ }
    dsimp only
    rw [hmove, hmove, h.assembly]
  unfold Session.turnTo
  rw [← hst.range, ← h.tracing, hsubject]
  dsimp only
  split
  · exact hmoved (hreport _) _
  · exact hmoved h _

/-- Where no macro is defined, both sessions hand a statement to open code. -/
theorem Twins.dispatch (h : s.Twins t) (hflat : s.Flat) {st st' : Statement OperandField}
    (hst : st.Twins st') : Both Twins (s.dispatch st) (t.dispatch st') := by
  have hreading : s.assembly.openReading st.operation = t.assembly.openReading st'.operation := by
    rw [← Assembly.openReading_outline, hst.operation, Assembly.openReading_outline]
    exact congrArg (·.openReading st'.operation) h.assembly
  have hreport (form : OperandForm) :
      (s.assembly.report (.statementRead .openCode st.range form)).outline =
        (t.assembly.report (.statementRead .openCode st'.range form)).outline := by
    rw [hst.range]
    exact Assembly.report_eq h.assembly _
  have hcoded (opcode : Opcode) : Statement.Twins { st with opcode } { st' with opcode } :=
    { hst with opcode := rfl }
  rw [dispatch_eq_of_nil hflat.collectors, dispatch_eq_of_nil (h.collectors ▸ hflat.collectors),
    hreading]
  refine (OpenCode.process_alike h.openCode (hreport _) hflat.library
    (hcoded _)).bind fun x y hxy => ?_
  obtain ⟨hstate, hnotices⟩ := hxy
  have hbehind : (s.behind x.1 x.2.1).Twins (t.behind y.1 y.2.1) :=
    { h with assembly := hstate.assembly, openCode := hstate.gists }
  exact .ok (hnotices ▸ hbehind.noticeAll x.2.2)

/-- Both sessions process the next statement. -/
theorem Twins.step (h : s.Twins t) (hflat : s.Flat) (hletters : p.1.SameLetters q.1)
    (hline : p.2 = q.2) : Both Twins (s.step p) (t.step q) := by
  obtain ⟨hstatement, hread⟩ := h.readNext hletters hline
  obtain ⟨-, -, -, -, hfacing⟩ := s.facing_spec p
  exact ((hread.turnTo hstatement).dispatch (hfacing hflat) hstatement).bind fun _ _ hst =>
    hst.settle

/-- Both sessions give up what still waits. -/
theorem Twins.giveUp (h : s.Twins t) : Both Twins s.giveUp t.giveUp := by
  have hchange (a : Assembly) :
      a.outline.change (·.finish) = (a.change (·.finish)).outline :=
    a.change_outline fun l => Layout.map_finish Postponed.outline l
  have hended : s.givenUp.Twins t.givenUp := by
    refine { h with assembly := ?_ }
    unfold givenUp
    rw [← hchange, h.assembly, hchange]
  refine hended.replay.bind fun s t h => .ok ?_
  have hlength : s.collect.diagnostics.length = t.collect.diagnostics.length := by
    simpa using congrArg List.length h.collect.diagnostics
  unfold Session.report
  rw [hlength]
  exact { h.collect with assembly := Assembly.report_eq h.collect.assembly _ }

/-- Both sessions come to the end of the source. -/
theorem Twins.finish (h : s.Twins t) (hflat : s.Flat) : Both Twins s.finish t.finish := by
  rw [finish_eq, finish_eq, providerFinished_of_nil hflat.collectors,
    providerFinished_of_nil (h.collectors ▸ hflat.collectors)]
  exact h.settle.bind fun _ _ h => h.giveUp

/-- Both sessions process the rest of their sources. -/
theorem Twins.run (htwins : s.Twins t) (hflat : s.Flat) (hs : s.Follows h)
    {first second : List SourceStatement}
    (hletters : List.Forall₂ SourceStatement.SameLetters first second) (n : Nat)
    (hnoStart : ∀ s ∈ first, s.code? ≠ some "MACRO") :
    ∃ s' t' h', (first.zipIdx n).foldlM Session.step s = .ok s' ∧
      (second.zipIdx n).foldlM Session.step t = .ok t' ∧ s'.Twins t' ∧ s'.Flat ∧
      s'.Follows h' := by
  induction hletters generalizing s t h n with
  | nil => exact ⟨s, t, h, rfl, rfl, htwins, hflat, hs⟩
  | @cons x y first second hxy _ ih =>
      obtain ⟨s₁, ms, hok, hflat₁, hp, -⟩ :=
        hflat.solves_next (p := (x, n)) hs (hnoStart x (by simp))
      have hstep := htwins.step (p := (x, n)) (q := (y, n)) hflat hxy rfl
      rw [hok] at hstep
      obtain ⟨t₁, hok', htwins₁⟩ := hstep.exists_ok
      obtain ⟨s', t', h', hrun, hrun', hend⟩ :=
        ih htwins₁ hflat₁ hp.follows (n + 1) fun z hz => hnoStart z (by simp [hz])
      refine ⟨s', t', h', ?_, ?_, hend⟩
      · rw [List.zipIdx_cons, List.foldlM_cons, hok]
        exact hrun
      · rw [List.zipIdx_cons, List.foldlM_cons, hok']
        exact hrun'

/-- Letter case outside of apostrophes does not matter in open code: sources without macros that
differ in nothing else are processed to sessions with the same symbols, the same location counter
and the same codes and ranges of diagnostics. -/
theorem processAll_caseless (file : String) (tracing : Tracing)
    {first second : List SourceStatement}
    (hletters : List.Forall₂ SourceStatement.SameLetters first second)
    (hnoStart : ∀ s ∈ first, s.code? ≠ some "MACRO") :
    ∃ s t, Console.processAll file tracing first = .ok s ∧
      Console.processAll file tracing second = .ok t ∧
      (∀ name, s.assembly.symbol? name = t.assembly.symbol? name) ∧
      s.assembly.layout.table = t.assembly.layout.table ∧
      s.assembly.layout.counter = t.assembly.layout.counter ∧
      s.diagnostics.map (fun d => (d.code, d.range)) =
        t.diagnostics.map fun d => (d.code, d.range) := by
  have hstart : (start file tracing).Twins (start file tracing) :=
    ⟨rfl, ⟨rfl, rfl, rfl⟩, rfl, rfl, rfl, rfl, rfl⟩
  obtain ⟨s, t, h, hrun, hrun', htwins, hflat, hs⟩ :=
    hstart.run (flat_start file tracing) (follows_start file tracing) hletters 0 hnoStart
  obtain ⟨s', hok, -⟩ := hs.finish
  have hfinish := htwins.finish hflat
  rw [hok] at hfinish
  obtain ⟨t', hok', hend⟩ := hfinish.exists_ok
  have htable : s'.assembly.layout.table = t'.assembly.layout.table :=
    congrArg (·.layout.table) hend.assembly
  refine ⟨s', t', ?_, ?_, fun name => ?_, htable, ?_, hend.diagnostics⟩
  · rw [processAll_eq, hrun]
    exact hok
  · rw [processAll_eq, hrun']
    exact hok'
  · rw [Assembly.symbol?, Assembly.symbol?, htable, Assembly.names_eq hend.assembly]
  · exact congrArg (·.layout.counter) hend.assembly

/-- A source that defines a symbol behind its use, quotes a small letter, and has an unknown
operation code. -/
def capitals : List SourceStatement :=
  [{ label := "X", operation := "DS", operands := "N" },
    { label := "N", operation := "EQU", operands := "X'C1'-C'a'" },
    { operation := "NOP1", operands := "X" }]

/-- The same source in small letters, but for what is quoted. -/
def smallLetters : List SourceStatement :=
  [{ label := "x", operation := "ds", operands := "n" },
    { label := "n", operation := "equ", operands := "x'C1'-c'a'" },
    { operation := "nop1", operands := "x" }]

/-- Both sources have the same symbols, location counter and complaints. -/
theorem capitals_smallLetters :
    List.Forall₂ SourceStatement.SameLetters capitals smallLetters ∧
      (∀ s ∈ capitals, s.code? ≠ some "MACRO") ∧
      ∃ s t, Console.processAll "OPENCODE" .off capitals = .ok s ∧
        Console.processAll "OPENCODE" .off smallLetters = .ok t ∧
        (∀ name, s.assembly.symbol? name = t.assembly.symbol? name) ∧
        s.assembly.layout.table = t.assembly.layout.table ∧
        s.assembly.layout.counter = t.assembly.layout.counter ∧
        s.diagnostics.map (fun d => (d.code, d.range)) =
          t.diagnostics.map fun d => (d.code, d.range) := by
  have hletters : List.Forall₂ SourceStatement.SameLetters capitals smallLetters := by
    refine .cons ?_ (.cons ?_ (.cons ?_ .nil))
    all_goals exact ⟨by decide, by decide, by decide, rfl⟩
  have hnoStart : ∀ s ∈ capitals, s.code? ≠ some "MACRO" := by decide +kernel
  exact ⟨hletters, hnoStart, processAll_caseless "OPENCODE" .off hletters hnoStart⟩

end Session

end MacroAssembler
