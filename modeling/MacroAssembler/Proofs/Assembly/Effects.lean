import MacroAssembler.Proofs.Assembly.Moves
import MacroAssembler.Proofs.Layout.Answers

/-!
# What statements leave behind

What a statement that raises no complaint leaves in the layout: how far the counter has moved,
which symbol is in the table with which value, and which values and lengths wait for expressions
(`Follows.machine_effect`, `Follows.equate_effect`, `Follows.reserve_effect`).
-/

namespace MacroAssembler.Assembly

open Layout (Move History lengthEntry)

variable {a a' : Assembly} {h : History Postponed}

/-- A new label is in the table, and does not move the counter. -/
theorem Follows.label_effect (hf : a.Follows h) {name : NameId} (range : Range) {place : Address}
    (attributes : SymbolAttributes) (hfresh : a.defines name = false)
    (hplace : a.layout.table.Bounded place) :
    (a.defineLabel name range place attributes).2.layout.table.Holds name (.relocatable place)
        attributes ∧
      (a.defineLabel name range place attributes).2.layout.counter = a.layout.counter := by
  obtain ⟨-, hp⟩ := hf.label range attributes hfresh hplace
  have hlayout := hp.follows.layout
  have hlegal := hp.legal
  have hadded : (a.layout.table.addSymbol ⟨name, .relocatable place, attributes, a.location⟩).Holds
      name (.relocatable place) attributes := SymbolTable.holds_addSymbol hfresh
  rw [← hlayout, History.layout_makeAll, hf.layout]
  unfold labelMoves at hlegal ⊢
  dsimp only at hlegal ⊢
  split at hlegal <;> rename_i hspaces
  · rw [if_pos hspaces]
    have hext := hf.tracked.extends_make_declare hlegal.1
    rw [hf.layout] at hext
    exact ⟨hadded.extends hext, Layout.counter_make_declare _ _ _ _⟩
  · rw [if_neg hspaces]
    have hext := hf.tracked.extends_make_define hlegal.1
    rw [hf.layout] at hext
    exact ⟨hadded.extends hext, Layout.counter_make_define _ _⟩

/-- Checking a machine statement, now or later, does not move the counter. -/
theorem counter_checkOrPostpone (a : Assembly) (s : Statement (List Operand))
    (i : MachineInstruction) (formats : List OperandFormat) :
    (a.checkOrPostpone s i formats).2.layout.counter = a.layout.counter := by
  unfold checkOrPostpone
  dsimp only
  split
  · rfl
  · exact Layout.counter_await _ _

/-- Without an ordinary label a machine statement defines none. -/
theorem defineMachineLabel_of_none {s : Statement (List Operand)} (i : MachineInstruction)
    (hlabel : ∀ name range, s.label ≠ .ordinary name range) :
    a.defineMachineLabel s i = ([], a) := by
  unfold defineMachineLabel
  split
  · exact absurd ‹_› (hlabel _ _)
  · rfl

/-- A machine statement without complaint has its label at the next halfword. -/
theorem Follows.machineLabel_effect (hf : a.Follows h) {s : Statement (List Operand)}
    {i : MachineInstruction} {name : NameId} {range : Range}
    (hlabel : s.label = .ordinary name range) (hquiet : (a.defineMachineLabel s i).1 = []) :
    (a.layout.align .halfword).2.table.Extends (a.defineMachineLabel s i).2.layout.table ∧
      (a.defineMachineLabel s i).2.layout.table.Holds name
        (.relocatable (a.layout.align .halfword).1) (.machine i.bytes) ∧
      (a.defineMachineLabel s i).2.layout.counter = (a.layout.align .halfword).1 := by
  unfold defineMachineLabel at hquiet ⊢
  rw [hlabel] at hquiet ⊢
  dsimp only at hquiet ⊢
  split at hquiet
  · simp at hquiet
  · rename_i hdefined
    rw [if_neg hdefined]
    obtain ⟨halign, hplace, hbounded, hfresh⟩ := hf.alignHalfword (eq_false_of_ne_true hdefined)
    obtain ⟨-, hlabelled⟩ := halign.follows.label range (.machine i.bytes) hfresh hbounded
    obtain ⟨hholds, hcounter⟩ :=
      halign.follows.label_effect range (.machine i.bytes) hfresh hbounded
    exact ⟨hlabelled.table, hholds, hcounter.trans hplace.symm⟩

/-- A machine statement defines its label, checks its operands, and takes its bytes. -/
theorem processMachine_of_code {s : Statement OperandField} {id : NameId} {code : String}
    {i : MachineInstruction} {formats : List OperandFormat} (hopcode : s.opcode.name = some id)
    (hfind : a.names.find? code = some id)
    (hfound : Instruction.encoded? code = some (i, formats)) :
    let r := a.read s .machine
    let labelled := r.2.2.defineMachineLabel r.1 i
    let checked := labelled.2.checkOrPostpone r.1 i formats
    a.processMachine s = .ok (r.2.1 ++ labelled.1 ++ checked.1,
        (checked.2.request (·.reserve (Int32.ofNat i.bytes) .none)).2) ∧
      a.machineMoves s = r.2.2.machineLabelMoves r.1 i ++ labelled.2.checkMoves r.1 ++
        [.reserve (Int32.ofNat i.bytes) .none, .takeEvents] := by
  have hopcode' : (a.read s .machine).1.opcode = s.opcode := s.opcode_read .machine a.names
  have hgrows : a.names.Grows (a.read s .machine).2.2.names := (s.read_spec .machine a.names).1
  have hencoded : (a.read s .machine).2.2.encoded (a.read s .machine).1 = .ok (i, formats) := by
    simp [encoded, hopcode', hopcode, NameTable.nameOf_of_find? (hgrows.find? hfind), hfound]
  unfold processMachine machineMoves
  simp only [hencoded]
  exact ⟨rfl, trivial⟩

/-- A machine statement without complaint rounds the counter up if it has an ordinary label, which
it then defines, and takes as many bytes as its instruction has. -/
theorem Follows.machine_effect (hf : a.Follows h) {s : Statement OperandField} {id : NameId}
    {code : String} {i : MachineInstruction} {formats : List OperandFormat}
    (hopcode : s.opcode.name = some id) (hfind : a.names.find? code = some id)
    (hfound : Instruction.encoded? code = some (i, formats))
    (hok : a.processMachine s = .ok ([], a')) :
    (∀ name range, s.label = .ordinary name range →
      (a.layout.align .halfword).2.table.Extends a'.layout.table ∧
      a'.layout.table.Holds name (.relocatable (a.layout.align .halfword).1) (.machine i.bytes) ∧
      a'.layout.counter = (a.layout.align .halfword).1.shift (Int32.ofNat i.bytes)) ∧
    ((∀ name range, s.label ≠ .ordinary name range) →
      a'.layout.counter = a.layout.counter.shift (Int32.ofNat i.bytes)) := by
  obtain ⟨-, hread⟩ := hf.read s .machine
  have hlabel' : (a.read s .machine).1.label = s.label := s.label_read .machine a.names
  have hopcode' : (a.read s .machine).1.opcode = s.opcode := s.opcode_read .machine a.names
  have hlayout : (a.read s .machine).2.2.layout = a.layout := rfl
  rw [(processMachine_of_code hopcode hfind hfound).1] at hok
  -- what was read matters only by its label and operation code, and reading left the layout alone
  generalize a.read s .machine = read at hread hlabel' hopcode' hlayout hok
  obtain ⟨st, faults, b⟩ := read
  dsimp only at hread hlabel' hopcode' hlayout hok
  rw [← hlayout]
  -- no complaint: neither the label nor the check of the operands had one
  obtain ⟨hquiet, rfl⟩ := Prod.mk.inj (Except.ok.inj hok)
  simp only [List.append_eq_nil_iff] at hquiet
  have hfind' := hread.names.find? hfind
  have hencodable : st.Encodable b.names := ⟨id, hopcode' ▸ hopcode,
    NameTable.lt_size_of_find? hfind', by simp [NameTable.nameOf_of_find? hfind', hfound]⟩
  obtain ⟨-, hlabelled⟩ := hread.follows.machineLabel st i
  obtain ⟨-, hchecked⟩ := hlabelled.follows.check i formats
    (hencodable.grows hlabelled.names)
  have hcounter := counter_checkOrPostpone (b.defineMachineLabel st i).2 st i formats
  constructor
  · intro name range hlabel
    rw [← hlabel'] at hlabel
    obtain ⟨haligned, hholds, hplace⟩ := hread.follows.machineLabel_effect hlabel hquiet.1.2
    exact ⟨haligned.trans hchecked.table, hholds.extends hchecked.table,
      congrArg (·.shift (Int32.ofNat i.bytes)) (hcounter.trans hplace)⟩
  · intro hlabel
    rw [defineMachineLabel_of_none i (hlabel' ▸ hlabel)] at hcounter ⊢
    exact congrArg (·.shift (Int32.ofNat i.bytes)) hcounter

/-! ## EQU and DS -/

/-- An assembly that goes on leads its history on. -/
theorem Proceeds.leads {ms : List (Move Postponed)} (hf : a.Follows h) (hp : Proceeds h a ms a') :
    h.Leads (h.makeAll ms) where
  registered := h.registered_subset ms
  table := by
    rw [hf.layout, hp.follows.layout]
    exact hp.table

/-- If an EQU raises no complaint, the expression has a value or waits for one. -/
theorem evaluates_of_equate {s : Statement (List Operand)} {name : NameId} {range : Range}
    {e : OrdinaryExpr NameId} (hquiet : (a.equate s name range e).1 = [])
    (hnil : a.layout.table.unknowns e = []) : ∃ v, a.layout.table.evaluate e = .ok v := by
  unfold Assembly.equate at hquiet
  cases hvalue : a.layout.table.evaluate e with
  | error => simp [isSettled, hnil, hvalue] at hquiet
  | ok v => exact ⟨v, rfl⟩

section Equate

variable {s : Statement (List Operand)} (name : NameId) {e : OrdinaryExpr NameId}
variable (hvalue : a.layout.table.unknowns e = [] → ∃ v, a.layout.table.evaluate e = .ok v)
include hvalue

/-- A symbol gets the value of an expression with its definition, or is declared and waits. -/
theorem equateMoves_eq : ∃ symbol : OrdinarySymbol, symbol.name = name ∧
    (∃ length, symbol.attributes = .equate length) ∧
    (a.layout.table.unknowns e = [] ∧ a.layout.table.evaluate e = .ok symbol.value ∧
        a.equateMoves s name e = [.define symbol, .takeEvents] ∨
      symbol.value = .undefined ∧
        a.equateMoves s name e = [.declare symbol (.expr e) s.range, .takeEvents]) := by
  unfold equateMoves
  dsimp only
  generalize ((operandExpr? s 1).bind a.lengthOf?).map _ = length
  by_cases hnil : a.layout.table.unknowns e = []
  · obtain ⟨v, hv⟩ := hvalue hnil
    refine ⟨⟨name, v, .equate length, a.location⟩, rfl, ⟨length, rfl⟩, .inl ⟨hnil, hv, ?_⟩⟩
    simp [isSettled, hnil, hv]
  · refine ⟨⟨name, .undefined, .equate length, a.location⟩, rfl, ⟨length, rfl⟩, .inr ⟨rfl, ?_⟩⟩
    simp [isSettled, hnil]

/-- A fresh symbol gets the value of the expression, now or later. -/
theorem Follows.equate_effect (hf : a.Follows h) {range : Range} (hfresh : a.defines name = false) :
    (h.makeAll (a.equateMoves s name e)).Equates a.layout.table name e ∧
      (a.equate s name range e).2.layout.counter = a.layout.counter := by
  obtain ⟨-, hp⟩ := hf.equate (s := s) range (e := e) hfresh
  have hlayout := hp.follows.layout
  have hlegal := hp.legal
  rw [← hlayout, ← hf.layout]
  obtain ⟨⟨n, v, attributes, location⟩, rfl, ⟨length, rfl⟩, hmoves⟩ :=
    equateMoves_eq (s := s) name hvalue
  have hadded : (h.layout.table.addSymbol ⟨n, v, .equate length, location⟩).Holds n v
      (.equate length) := SymbolTable.holds_addSymbol (hf.layout ▸ hfresh)
  rcases hmoves with ⟨hnil, hv, hmoves⟩ | ⟨rfl, hmoves⟩ <;> rw [hmoves] at hlegal ⊢
  · have hext := hf.tracked.extends_make_define hlegal.1
    refine ⟨⟨v, length, hadded.extends hext, .inl ⟨hf.layout ▸ hnil, hf.layout ▸ hv⟩⟩, ?_⟩
    exact Layout.counter_make_define _ _
  · have hext := hf.tracked.extends_make_declare hlegal.1
    refine ⟨⟨.undefined, length, hadded.extends hext, .inr ⟨s.range, ?_⟩⟩, ?_⟩
    · simp [History.make, Move.registration?]
    · exact Layout.counter_make_declare _ _ _ _

end Equate

/-- Storage without complaint moves the counter by the value of the expression, now or later. -/
theorem Follows.reserve_effect (hf : a.Follows h) {s : Statement (List Operand)}
    {e : OrdinaryExpr NameId} (hquiet : (a.reserveStorage s e).2.2.1 = []) :
    (h.makeAll (a.storageMoves s e)).Reserves a.layout.table a.layout.counter e := by
  obtain ⟨-, hp, -⟩ := hf.reserveStorage (s := s) (e := e)
  have hlayout := hp.follows.layout
  unfold History.Reserves
  rw [hlayout]
  unfold Assembly.reserveStorage at hquiet ⊢
  unfold storageMoves
  split at hquiet <;> rename_i hsettled
  · rw [if_pos hsettled]
    cases hlength : a.lengthOf? e with
    | none => simp [hlength] at hquiet
    | some length =>
        refine .inl ⟨length, by simpa [isSettled] using hsettled, ?_, ?_, rfl⟩
        all_goals
          unfold lengthOf? at hlength
          split at hlength
          · split at hlength <;> simp_all
          · simp at hlength
  · rw [if_neg hsettled]
    -- the new space gets the next number, and the counter is behind it
    refine .inr ⟨⟨a.layout.table.spaces.size⟩, s.range, ?_, ?_⟩
    · exact Layout.counter_await _ _
    · rw [if_neg hsettled]
      have hspace : (h.layout.openSpace .none).1 = ⟨a.layout.table.spaces.size⟩ := by
        rw [hf.layout]
        rfl
      simp [History.make, Move.registration?, hspace]

/-- An ordinary label without complaint is fresh. -/
theorem freshLabel_of_ordinary {s : Statement (List Operand)} {name : NameId} {range : Range}
    (hlabel : s.label = .ordinary name range) (hquiet : (a.freshLabel s).2 = []) :
    (a.freshLabel s).1 = some (name, range) := by
  unfold freshLabel at hquiet ⊢
  rw [hlabel] at hquiet ⊢
  dsimp only at hquiet ⊢
  split at hquiet <;> simp_all

/-- An EQU statement without complaint equates its label with its first operand, and does not move
the counter. -/
theorem Follows.processEquate_effect (hf : a.Follows h) {s : Statement (List Operand)}
    (hquiet : (a.processEquate s).1 = []) :
    (a.processEquate s).2.layout.counter = a.layout.counter ∧
      ∀ name range, s.label = .ordinary name range → ∃ e, operandExpr? s 0 = some e ∧
        (h.makeAll (a.actionMoves s .equate)).Equates a.layout.table name e := by
  have hordinary {name : NameId} {range : Range} (hlabel : s.label = .ordinary name range)
      (hfaults : (a.freshLabel s).2 = []) := freshLabel_of_ordinary hlabel hfaults
  have hname {name : NameId} {range : Range} (hsome : (a.freshLabel s).1 = some (name, range)) :=
    fresh_of_freshLabel hsome
  unfold processEquate at hquiet ⊢
  unfold actionMoves
  generalize a.freshLabel s = fresh at hquiet hordinary hname ⊢
  obtain ⟨label, faults⟩ := fresh
  cases label with
  | none =>
      -- a label that is not fresh has been complained about, so this one is not ordinary
      refine ⟨by cases s.label <;> rfl, fun name range hlabel => ?_⟩
      simp only [hlabel] at hquiet
      exact absurd (hordinary hlabel hquiet) (by simp)
  | some found =>
      obtain ⟨-, hnew⟩ := hname rfl
      cases hexpr : operandExpr? s 0 with
      | none => simp [hexpr] at hquiet
      | some e =>
          simp only [hexpr, List.append_eq_nil_iff] at hquiet
          obtain ⟨hequates, hcounter⟩ :=
            hf.equate_effect found.1 (evaluates_of_equate hquiet.2) hnew
          refine ⟨hcounter, fun name range hlabel => ⟨e, rfl, ?_⟩⟩
          obtain rfl : found = (name, range) := by simpa using hordinary hlabel hquiet.1
          exact hequates

/-- A DS statement without complaint has its label at the counter, and moves the counter by its
first operand. -/
theorem Follows.processReserve_effect (hf : a.Follows h) {s : Statement (List Operand)}
    (hquiet : (a.processReserve s).1 = []) :
    (∃ e, operandExpr? s 0 = some e ∧
        (h.makeAll (a.actionMoves s .reserve)).Reserves a.layout.table a.layout.counter e) ∧
      ∀ name range, s.label = .ordinary name range → ∃ length,
        (a.processReserve s).2.layout.table.Holds name (.relocatable a.layout.counter)
          (.storage length) := by
  have hordinary {name : NameId} {range : Range} (hlabel : s.label = .ordinary name range)
      (hfaults : (a.freshLabel s).2 = []) := freshLabel_of_ordinary hlabel hfaults
  have hname {name : NameId} {range : Range} (hsome : (a.freshLabel s).1 = some (name, range)) :=
    fresh_of_freshLabel hsome
  unfold processReserve at hquiet ⊢
  unfold actionMoves
  generalize a.freshLabel s = fresh at hquiet hordinary hname ⊢
  obtain ⟨label, faults⟩ := fresh
  cases hexpr : operandExpr? s 0 with
  | none => simp [hexpr] at hquiet
  | some e =>
      simp only [hexpr] at hquiet ⊢
      obtain ⟨-, hreserved, hplace, hdefines⟩ := hf.reserveStorage (s := s) (e := e)
      cases label with
      | none =>
          simp only [List.append_eq_nil_iff] at hquiet
          refine ⟨⟨e, rfl, hf.reserve_effect hquiet.2⟩, fun name range hlabel => ?_⟩
          exact absurd (hordinary hlabel hquiet.1) (by simp)
      | some found =>
          obtain ⟨-, hnew⟩ := hname rfl
          simp only [List.append_eq_nil_iff] at hquiet
          -- the label is defined behind the storage, but its place is the counter before it
          have hbounded := hf.bounded_reserveStorage (s := s) (e := e)
          have hfresh := (congrFun hdefines found.1).trans hnew
          obtain ⟨-, hlabelled⟩ := hreserved.follows.label found.2
            (.storage (a.reserveStorage s e).2.1) hfresh hbounded
          obtain ⟨hholds, hcounter⟩ := hreserved.follows.label_effect found.2
            (.storage (a.reserveStorage s e).2.1) hfresh hbounded
          refine ⟨⟨e, rfl, ?_⟩, fun name range hlabel => ⟨(a.reserveStorage s e).2.1, ?_⟩⟩
          · rw [History.makeAll_append]
            refine (hf.reserve_effect hquiet.1.2).leads (hlabelled.leads hreserved.follows) ?_
            rw [hlabelled.follows.layout, hreserved.follows.layout]
            exact hcounter
          · obtain rfl : found = (name, range) := by simpa using hordinary hlabel hquiet.1.1
            rw [← hplace]
            exact hholds

/-- An instruction to the assembler is processed by its action. -/
theorem process_of_code {s : Statement OperandField} {id : NameId} {code name : String}
    {action : AssemblerAction} (hopcode : s.opcode.name = some id)
    (hfind : a.names.find? code = some id)
    (hfound : Instruction.assembler? code = some ⟨name, action⟩) :
    let r := a.read s .assembler
    a.directiveMoves s = r.2.2.actionMoves r.1 action ∧
      (action = .equate → a.processDirective s =
        (r.2.1 ++ (r.2.2.processEquate r.1).1, (r.2.2.processEquate r.1).2)) ∧
      (action = .reserve → a.processDirective s =
        (r.2.1 ++ (r.2.2.processReserve r.1).1, (r.2.2.processReserve r.1).2)) := by
  have hopcode' : (a.read s .assembler).1.opcode = s.opcode := s.opcode_read .assembler a.names
  have hgrows : a.names.Grows (a.read s .assembler).2.2.names := (s.read_spec .assembler a.names).1
  have hcode :
      ((a.read s .assembler).1.opcode.name.map (a.read s .assembler).2.2.names.nameOf).getD "" =
        code := by
    rw [hopcode', hopcode]
    exact NameTable.nameOf_of_find? (hgrows.find? hfind)
  unfold directiveMoves processDirective
  simp only [hcode, hfound]
  exact ⟨trivial, by rintro rfl; rfl, by rintro rfl; rfl⟩

/-- The operation code of a statement stands for an instruction to the assembler. -/
def Directs (a : Assembly) (s : Statement OperandField) (action : AssemblerAction) : Prop :=
  ∃ id code name, s.opcode.name = some id ∧ a.names.find? code = some id ∧
    Instruction.assembler? code = some ⟨name, action⟩

/-- The expression of the first operand of a statement, and the names known by then. -/
def firstOperand (a : Assembly) (s : Statement OperandField) :
    Option (OrdinaryExpr NameId) × NameTable :=
  (operandExpr? (a.read s .assembler).1 0, (a.read s .assembler).2.2.names)

/-- An EQU statement without complaint equates its label with its first operand, and does not move
the counter. -/
theorem Follows.equate_directive (hf : a.Follows h) {s : Statement OperandField}
    (hs : a.Directs s .equate) (hquiet : (a.processDirective s).1 = []) :
    (a.firstOperand s).2.Grows (a.processDirective s).2.names ∧
      (a.processDirective s).2.layout.counter = a.layout.counter ∧
      ∀ name range, s.label = .ordinary name range → ∃ e, (a.firstOperand s).1 = some e ∧
        (h.makeAll (a.directiveMoves s)).Equates a.layout.table name e := by
  obtain ⟨id, code, name, hopcode, hfind, hfound⟩ := hs
  obtain ⟨hmoves, hprocess, -⟩ := process_of_code hopcode hfind hfound
  obtain ⟨-, hread⟩ := hf.read s .assembler
  have hlabel : (a.read s .assembler).1.label = s.label := s.label_read .assembler a.names
  have hlayout : (a.read s .assembler).2.2.layout = a.layout := rfl
  unfold firstOperand
  rw [hprocess rfl] at hquiet ⊢
  rw [hmoves, ← hlabel, ← hlayout]
  obtain ⟨⟨-, hequate⟩, -⟩ := hread.follows.action (a.read s .assembler).1
  exact ⟨hequate.names, hread.follows.processEquate_effect (List.append_eq_nil_iff.1 hquiet).2⟩

/-- A DS statement without complaint has its label at the counter, and moves the counter by its
first operand. -/
theorem Follows.reserve_directive (hf : a.Follows h) {s : Statement OperandField}
    (hs : a.Directs s .reserve) (hquiet : (a.processDirective s).1 = []) :
    (a.firstOperand s).2.Grows (a.processDirective s).2.names ∧
      (∃ e, (a.firstOperand s).1 = some e ∧
        (h.makeAll (a.directiveMoves s)).Reserves a.layout.table a.layout.counter e) ∧
      ∀ name range, s.label = .ordinary name range → ∃ length,
        (h.makeAll (a.directiveMoves s)).layout.table.Holds name (.relocatable a.layout.counter)
          (.storage length) := by
  obtain ⟨id, code, name, hopcode, hfind, hfound⟩ := hs
  obtain ⟨hmoves, -, hprocess⟩ := process_of_code hopcode hfind hfound
  obtain ⟨-, hread⟩ := hf.read s .assembler
  have hlabel : (a.read s .assembler).1.label = s.label := s.label_read .assembler a.names
  have hlayout : (a.read s .assembler).2.2.layout = a.layout := rfl
  unfold firstOperand
  rw [hprocess rfl] at hquiet ⊢
  rw [hmoves, ← hlabel, ← hlayout]
  obtain ⟨-, -, hreserve⟩ := hread.follows.action (a.read s .assembler).1
  have hafter : (h.makeAll (Assembly.actionMoves _ _ .reserve)).layout = _ :=
    hreserve.follows.layout
  rw [hafter]
  exact ⟨hreserve.names, hread.follows.processReserve_effect (List.append_eq_nil_iff.1 hquiet).2⟩

end MacroAssembler.Assembly
