import Mathlib
import MacroAssembler.Proofs.Assembly.Effects
import MacroAssembler.Proofs.Assembly.Sessions
import MacroAssembler.Proofs.Field.Sources

/-!
# Sessions without macros

As long as no statement starts a macro definition, a session stays flat: open code receives every
statement, and the operation code in the source text decides what becomes of it. The layout only
changes with machine instructions (`Flat.passes_machine`), EQU and DS (`Flat.passes_directive`),
and not with any other statement (`Flat.skips_other`).
-/

namespace MacroAssembler

open Layout (Move History)

/-- Capital letters stay as they are. -/
theorem Text.upper_upper (s : String) : Text.upper (Text.upper s) = Text.upper s := by
  unfold Text.upper
  simp [Function.comp_def, Char.toUpper_toUpper_eq_toUpper]

/-- The operation code of a source statement is in capital letters. -/
theorem SourceStatement.upper_of_code {s : SourceStatement} {code : String}
    (h : s.code? = some code) : Text.upper code = code := by
  unfold SourceStatement.code? at h
  split at h
  · simp at h
  · cases h
    exact Text.upper_upper _

/-- Open code has no diagnostics that were not fetched. -/
structure OpenCode.Silent (o : OpenCode) : Prop where
  own : o.own = []
  machine : o.machine = []
  directives : o.directives = []

/-- Released checks take no diagnostics back. -/
theorem OpenCode.silent_of_replayAll {o o' : OpenCode} {a a' : Assembly} {ps : List Postponed}
    (h : o.replayAll a ps = .ok (o', a')) (hsilent : o'.Silent) : o.Silent := by
  induction ps generalizing o a with
  | nil =>
      cases h
      exact hsilent
  | cons p ps ih =>
      obtain ⟨⟨o₁, a₁⟩, hfirst, h⟩ := bind_eq_ok_iff.1 h
      have hsilent₁ := ih h
      unfold replay at hfirst
      split at hfirst
      · obtain ⟨faults, hmachine, hfirst⟩ := bind_eq_ok_iff.1 hfirst
        cases hfirst
        exact ⟨hsilent₁.own, (List.append_eq_nil_iff.1 hsilent₁.machine).1, hsilent₁.directives⟩
      · cases hfirst
        exact hsilent₁

/-- An instruction to the assembler other than EQU and DS only learns names. -/
theorem Assembly.processDirective_learns (a : Assembly) {s : Statement OperandField} {id : NameId}
    {code : String} (hopcode : s.opcode.name = some id) (hfind : a.names.find? code = some id)
    (hequate : ∀ name, Instruction.assembler? code ≠ some ⟨name, .equate⟩)
    (hreserve : ∀ name, Instruction.assembler? code ≠ some ⟨name, .reserve⟩) :
    a.Learns (a.processDirective s).2 ∧ Plain (a.processDirective s).1 ∧
    a.directiveMoves s = [] := by
  obtain ⟨hgrows, hamong⟩ := s.read_spec .assembler a.names
  have hopcode' : (a.read s .assembler).1.opcode = s.opcode := s.opcode_read .assembler a.names
  have hlearns : a.Learns (a.read s .assembler).2.2 := ⟨rfl, rfl, hgrows⟩
  have hplain' : Plain (a.read s .assembler).2.1 := hamong.plain (by decide)
  unfold processDirective directiveMoves
  generalize a.read s .assembler = read at hopcode' hlearns hplain'
  obtain ⟨st, faults, b⟩ := read
  dsimp only at hopcode' hlearns hplain' ⊢
  have hname : (st.opcode.name.map b.names.nameOf).getD "" = code := by
    rw [hopcode', hopcode]
    exact NameTable.nameOf_of_find? (hlearns.names.find? hfind)
  rw [hname]
  rcases hfound : Instruction.assembler? code with _ | ⟨name, _ | _ | _ | _⟩
  case some.equate => exact absurd hfound (hequate _)
  case some.reserve => exact absurd hfound (hreserve _)
  all_goals exact ⟨hlearns.trans (.report _ _), hplain', rfl⟩

namespace OpenCode

variable {o : OpenCode} {a a' : Assembly} {s : Statement OperandField}

/-- Open code processes an instruction to the assembler. -/
theorem process_of_assembler (hs : s.opcode.kind = .assembler) :
    o.process a s = .ok ({ o with directives := o.directives ++ (a.processDirective s).1 },
      (a.processDirective s).2, []) := by
  unfold process
  rw [hs]

/-- Open code processes a machine instruction. -/
theorem process_of_machine {faults : List Diagnostic} (hs : s.opcode.kind = .machine)
    (hok : a.processMachine s = .ok (faults, a')) :
    o.process a s = .ok ({ o with machine := o.machine ++ faults }, a', []) := by
  unfold process
  rw [hs]
  dsimp only
  rw [hok]
  rfl

/-- Open code reports an operation code that is unknown. -/
theorem process_of_undefined (hs : s.opcode.kind = .undefined) :
    o.process a s = .ok ({ o with own := o.own ++ (a.processUndefined s.operation).1 },
      (a.processUndefined s.operation).2, []) := by
  unfold process
  rw [hs]

/-- Open code skips an instruction of conditional assembly other than MACRO. -/
theorem process_of_conditional {id : NameId} {code : String}
    (hs : s.opcode = ⟨some id, .conditional⟩) (hname : a.names.nameOf id = code)
    (hupper : Text.upper code = code) (hnoStart : code ≠ "MACRO") :
    o.process a s = .ok (o, a.report (.conditionalSkipped code s.range), []) := by
  unfold process Assembly.processConditional
  simp [hs, hname, hupper, hnoStart]

end OpenCode

namespace Assembly

variable {a : Assembly} {s : Statement OperandField}

theorem openMoves_of_assembler (hs : s.opcode.kind = .assembler) :
    a.openMoves s = a.directiveMoves s := by
  unfold openMoves
  rw [hs]

theorem openMoves_of_machine (hs : s.opcode.kind = .machine) :
    a.openMoves s = a.machineMoves s := by
  unfold openMoves
  rw [hs]

theorem openMoves_of_none (hassembler : s.opcode.kind ≠ .assembler)
    (hmachine : s.opcode.kind ≠ .machine) : a.openMoves s = [] := by
  unfold openMoves
  split <;> simp_all

end Assembly

namespace Session

/-- No macro is defined, being defined, or about to be. -/
structure Flat (s : Session) : Prop where
  collectors : s.collectors = []
  pendingStart : s.pendingStart = none
  completed : s.completed = []
  library : s.assembly.library = []

/-- A session starts without macros. -/
theorem flat_start (file : String) (tracing : Tracing) : (start file tracing).Flat :=
  ⟨rfl, rfl, rfl, rfl⟩

/-- The session when it turns to the next statement of a source. -/
def facing (s : Session) (p : SourceStatement × Nat) : Session :=
  (s.readNext p).2.turnTo (s.readNext p).1

/-- The assembly that open code gets with the next statement. -/
def opened (s : Session) (p : SourceStatement × Nat) (form : OperandForm) : Assembly :=
  (s.facing p).assembly.report (.statementRead .openCode (s.readNext p).1.range form)

/-- The next statement with its operation code looked up. -/
def coded (s : Session) (p : SourceStatement × Nat) (opcode : Opcode) : Statement OperandField :=
  { (s.readNext p).1 with opcode }

/-- The session behind a statement, before it settles. -/
def behind (s : Session) (o : OpenCode) (a : Assembly) : Session :=
  { s with openCode := o, assembly := a }

variable {s s' : Session} {h : History Postponed} {p : SourceStatement × Nat} {code : String}

/-- Turning to a statement only moves the place in the source. -/
theorem turnTo_spec (s : Session) (st : Statement OperandField) :
    (s.turnTo st).assembly.layout = s.assembly.layout ∧
      (s.turnTo st).assembly.names = s.assembly.names ∧
      (s.turnTo st).openCode = s.openCode ∧ (s.turnTo st).diagnostics = s.diagnostics ∧
      (s.Flat → (s.turnTo st).Flat) := by
  obtain ⟨a, heq, hlearns, hnames⟩ := s.turnTo_eq st
  rw [heq]
  exact ⟨hlearns.layout, hnames, rfl, rfl, fun hs => ⟨hs.collectors, hs.pendingStart, hs.completed,
    hlearns.library.trans hs.library⟩⟩

/-- Turning to the next statement only learns its names and moves the place in the source. -/
theorem facing_spec (s : Session) (p : SourceStatement × Nat) :
    (s.facing p).assembly.layout = s.assembly.layout ∧
      (s.facing p).assembly.names = (s.readNext p).2.assembly.names ∧
      (s.facing p).openCode = s.openCode ∧ (s.facing p).diagnostics = s.diagnostics ∧
      (s.Flat → (s.facing p).Flat) := by
  obtain ⟨hlayout, hnames, hopen, hdiagnostics, hflat⟩ :=
    (s.readNext p).2.turnTo_spec (s.readNext p).1
  refine ⟨hlayout, hnames, hopen, hdiagnostics, fun hs => hflat ?_⟩
  exact ⟨hs.collectors, hs.pendingStart, hs.completed, hs.library⟩

/-- What open code gets is the assembly that faces the statement. -/
theorem opened_spec (s : Session) (p : SourceStatement × Nat) (form : OperandForm) :
    (s.opened p form).layout = s.assembly.layout ∧
      (s.opened p form).names = (s.facing p).assembly.names ∧
      (s.facing p).assembly.Learns (s.opened p form) :=
  ⟨(s.facing_spec p).1, rfl, .report _ _⟩

/-- Open code takes a session over a statement to the assembly `a` by the moves `ms`. The session
then settles. -/
structure Passes (s : Session) (p : SourceStatement × Nat) (o : OpenCode) (a : Assembly)
    (ms : List (Move Postponed)) : Prop where
  step : s.step p = ((s.facing p).behind o a).settle
  moves : s.stepMoves p = ms ++ settleMoves a.names

/-- Where no definition is open, a statement is handed to open code. -/
theorem dispatch_eq_of_nil (hnil : s.collectors = []) (st : Statement OperandField) :
    let reading := s.assembly.openReading st.operation
    s.dispatch st =
      s.openCode.process (s.assembly.report (.statementRead .openCode st.range reading.form))
        { st with opcode := reading.opcode } >>= fun r =>
          .ok ((s.behind r.1 r.2.1).noticeAll r.2.2) := by
  unfold dispatch
  split
  · rfl
  · rename_i hcons
    rw [hnil] at hcons
    cases hcons

/-- A flat session hands a statement to open code. -/
theorem Flat.passes (hflat : s.Flat) {reading : Reading} {o : OpenCode} {a : Assembly}
    (hreading : (s.facing p).assembly.openReading (s.readNext p).1.operation = reading)
    (hprocess : s.openCode.process (s.opened p reading.form) (s.coded p reading.opcode) =
      .ok (o, a, [])) {ms : List (Move Postponed)}
    (hmoves : (s.opened p reading.form).openMoves (s.coded p reading.opcode) = ms) :
    s.Passes p o a ms := by
  obtain ⟨-, -, hopen, -, hfacing⟩ := s.facing_spec p
  rw [← hopen] at hprocess
  have hdispatch : (s.facing p).dispatch (s.readNext p).1 = .ok ((s.facing p).behind o a) := by
    rw [dispatch_eq_of_nil (hfacing hflat).collectors, hreading]
    exact congrArg (· >>= fun r => Except.ok (((s.facing p).behind r.1 r.2.1).noticeAll r.2.2))
      hprocess
  have hmoves' : (s.facing p).dispatchMoves (s.readNext p).1 = ms := by
    unfold dispatchMoves
    split
    · simp only [hreading]
      exact hmoves
    · rename_i hcons
      simp [(hfacing hflat).collectors] at hcons
  constructor
  · show (s.facing p).dispatch (s.readNext p).1 >>= settle = _
    rw [hdispatch]
    rfl
  · rw [stepMoves, moves, ← facing, hmoves', hdispatch]
    rfl

/-! ## The statements by their operation codes -/

/-- The operation of a source statement with a code is read by that code. -/
theorem operation_of_code (hcode : p.1.code? = some code) :
    ∃ id range, (s.readNext p).1.operation = .ordinary id range ∧
      (s.facing p).assembly.names.find? code = some id ∧
      (s.facing p).assembly.names.nameOf id = code := by
  obtain ⟨id, range, hoperation, hfind⟩ :=
    p.1.operation_toStatement p.2 s.assembly.names hcode
  obtain ⟨-, hnames, -⟩ := s.facing_spec p
  have hfound : (s.facing p).assembly.names.find? code = some id := hnames ▸ hfind
  exact ⟨id, range, hoperation, hfound, NameTable.nameOf_of_find? hfound⟩

/-- No name is bound where nothing is. -/
theorem binds_of_flat (hflat : s.Flat) (id : NameId) : s.assembly.library.binds id = false := by
  rw [hflat.library]
  rfl

/-- An instruction to the assembler is processed as one. -/
theorem Flat.passes_directive (hflat : s.Flat) (hcode : p.1.code? = some code)
    (hkind : Instruction.kind? code = some .assembler) :
    ∃ id, (s.facing p).assembly.names.find? code = some id ∧
      let b := s.opened p .assembler
      let st := s.coded p ⟨some id, .assembler⟩
      let o := { s.openCode with
        directives := s.openCode.directives ++ (b.processDirective st).1 }
      s.Passes p o (b.processDirective st).2 (b.directiveMoves st) := by
  obtain ⟨id, range, hoperation, hfind, hname⟩ := operation_of_code (s := s) hcode
  obtain ⟨-, -, -, -, hfacing⟩ := s.facing_spec p
  have hreading : (s.facing p).assembly.openReading (s.readNext p).1.operation =
      { reader := .openCode, form := .assembler, opcode := ⟨some id, .assembler⟩ } := by
    simp [hoperation, Assembly.openReading, binds_of_flat (hfacing hflat), hname, hkind]
  exact ⟨id, hfind, hflat.passes hreading (OpenCode.process_of_assembler rfl)
    (Assembly.openMoves_of_assembler rfl)⟩

/-- An EQU or a DS is processed by its action. -/
theorem Flat.passes_action (hflat : s.Flat) (hcode : p.1.code? = some code)
    (hkind : Instruction.kind? code = some .assembler) {name : String} {action : AssemblerAction}
    (hfound : Instruction.assembler? code = some ⟨name, action⟩) (id : NameId)
    (hfind : (s.opened p .assembler).names.find? code = some id) :
    let r := (s.opened p .assembler).read (s.coded p ⟨some id, .assembler⟩) .assembler
    let passes (handled : List Diagnostic × Assembly) : Prop :=
      s.Passes p
        { s.openCode with directives := s.openCode.directives ++ (r.2.1 ++ handled.1) }
        handled.2 (r.2.2.actionMoves r.1 action)
    (action = .equate → passes (r.2.2.processEquate r.1)) ∧
      (action = .reserve → passes (r.2.2.processReserve r.1)) := by
  obtain ⟨id', hfind', hpasses⟩ := hflat.passes_directive hcode hkind
  rw [← (s.opened_spec p .assembler).2.1, hfind] at hfind'
  cases hfind'
  have hprocess := Assembly.process_of_code (s := s.coded p ⟨some id, .assembler⟩) rfl hfind hfound
  dsimp only at hpasses hprocess
  rw [hprocess.1] at hpasses
  constructor
  · intro haction
    rw [hprocess.2.1 haction] at hpasses
    exact hpasses
  · intro haction
    rw [hprocess.2.2 haction] at hpasses
    exact hpasses

/-- A machine instruction is processed as one. -/
theorem Flat.passes_machine (hflat : s.Flat) (hcode : p.1.code? = some code)
    (hkind : Instruction.kind? code = some .machine ∨ Instruction.kind? code = some .mnemonic)
    (hencoded : (Instruction.encoded? code).isSome = true) :
    ∃ id, (s.facing p).assembly.names.find? code = some id ∧
      let b := s.opened p .machine
      let st := s.coded p ⟨some id, .machine⟩
      ∀ faults a, b.processMachine st = .ok (faults, a) →
        s.Passes p { s.openCode with machine := s.openCode.machine ++ faults } a
          (b.machineMoves st) := by
  obtain ⟨id, range, hoperation, hfind, hname⟩ := operation_of_code (s := s) hcode
  obtain ⟨-, -, -, -, hfacing⟩ := s.facing_spec p
  refine ⟨id, hfind, fun faults a hok => ?_⟩
  have hreading : (s.facing p).assembly.openReading (s.readNext p).1.operation =
      { reader := .openCode, form := .machine, opcode := ⟨some id, .machine⟩ } := by
    rcases hkind with hkind | hkind <;>
      simp [hoperation, Assembly.openReading, Assembly.machineReading,
        binds_of_flat (hfacing hflat), hname, hkind, hencoded]
  exact hflat.passes hreading (OpenCode.process_of_machine rfl hok)
    (Assembly.openMoves_of_machine rfl)

/-- A machine instruction is processed with what the tables say of it. -/
theorem Flat.passes_encoded (hflat : s.Flat) (hcode : p.1.code? = some code)
    (hkind : Instruction.kind? code = some .machine ∨ Instruction.kind? code = some .mnemonic)
    {i : MachineInstruction} {formats : List OperandFormat}
    (hfound : Instruction.encoded? code = some (i, formats)) (id : NameId)
    (hfind : (s.opened p .machine).names.find? code = some id) :
    let r := (s.opened p .machine).read (s.coded p ⟨some id, .machine⟩) .machine
    let labelled := r.2.2.defineMachineLabel r.1 i
    let checked := labelled.2.checkOrPostpone r.1 i formats
    s.Passes p
      { s.openCode with machine := s.openCode.machine ++ (r.2.1 ++ labelled.1 ++ checked.1) }
      (checked.2.request (·.reserve (Int32.ofNat i.bytes) .none)).2
      (r.2.2.machineLabelMoves r.1 i ++ labelled.2.checkMoves r.1 ++
        [.reserve (Int32.ofNat i.bytes) .none, .takeEvents]) := by
  obtain ⟨id', hfind', hpasses⟩ := hflat.passes_machine hcode hkind (by simp [hfound])
  rw [← (s.opened_spec p .machine).2.1, hfind] at hfind'
  cases hfind'
  obtain ⟨hprocess, hmoves⟩ := Assembly.processMachine_of_code
    (s := s.coded p ⟨some id, .machine⟩) rfl hfind hfound
  have hwhole := hpasses _ _ hprocess
  rw [hmoves] at hwhole
  exact hwhole

/-- Open code takes a session over a statement that asks nothing of the layout. -/
def Skips (s : Session) (p : SourceStatement × Nat) : Prop :=
  ∃ o a, s.Passes p o a [] ∧ (s.facing p).assembly.Learns a ∧
    (s.openCode.Quiet → o.Quiet) ∧ (o.Silent → s.openCode.Silent)

/-- A statement with an unknown operation code asks nothing of the layout. -/
theorem Flat.skips_undefined (hflat : s.Flat) (reading : Reading)
    (hreading : (s.facing p).assembly.openReading (s.readNext p).1.operation = reading)
    (hkind : reading.opcode.kind = .undefined) : s.Skips p := by
  have hkind' : (s.coded p reading.opcode).opcode.kind = .undefined := hkind
  obtain ⟨hamong, hlearns⟩ := Assembly.processUndefined_spec (s.opened p reading.form)
    (s.coded p reading.opcode).operation
  refine ⟨_, _, hflat.passes hreading (OpenCode.process_of_undefined hkind')
    (Assembly.openMoves_of_none (by simp [hkind']) (by simp [hkind'])),
    .trans (.report _ _) hlearns, fun ho => ?_, fun ho => ?_⟩
  · exact ⟨plain_append.2 ⟨ho.own, hamong.plain (by decide)⟩, ho.machine, ho.directives⟩
  · exact ⟨(List.append_eq_nil_iff.1 ho.own).1, ho.machine, ho.directives⟩

/-- An instruction of conditional assembly other than MACRO asks nothing of the layout. -/
theorem Flat.skips_conditional (hflat : s.Flat) (hcode : p.1.code? = some code)
    (hkind : Instruction.kind? code = some .conditional) (hnoStart : code ≠ "MACRO") :
    s.Skips p := by
  obtain ⟨id, range, hoperation, -, hname⟩ := operation_of_code (s := s) hcode
  obtain ⟨-, -, -, -, hfacing⟩ := s.facing_spec p
  have hopcode : ((s.facing p).assembly.openReading (s.readNext p).1.operation).opcode =
      ⟨some id, .conditional⟩ := by
    simp [hoperation, Assembly.openReading, binds_of_flat (hfacing hflat), hname, hkind]
  refine ⟨_, _, hflat.passes rfl (OpenCode.process_of_conditional hopcode hname
    (p.1.upper_of_code hcode) hnoStart) (Assembly.openMoves_of_none ?_ ?_),
    .trans (.report _ _) (.report _ _), fun ho => ho, fun ho => ho⟩
  · simp [coded, hopcode]
  · simp [coded, hopcode]

/-- An instruction to the assembler other than EQU and DS asks nothing of the layout. -/
theorem Flat.skips_directive (hflat : s.Flat) (hcode : p.1.code? = some code)
    (hkind : Instruction.kind? code = some .assembler)
    (hequate : ∀ name, Instruction.assembler? code ≠ some ⟨name, .equate⟩)
    (hreserve : ∀ name, Instruction.assembler? code ≠ some ⟨name, .reserve⟩) : s.Skips p := by
  obtain ⟨id, hfind, hpasses⟩ := hflat.passes_directive hcode hkind
  obtain ⟨hlearns, hplain, hmoves⟩ := (s.opened p .assembler).processDirective_learns
    (s := s.coded p ⟨some id, .assembler⟩) rfl hfind hequate hreserve
  dsimp only at hpasses
  rw [hmoves] at hpasses
  refine ⟨_, _, hpasses, .trans (.report _ _) hlearns, fun ho => ?_, fun ho => ?_⟩
  · exact ⟨ho.own, ho.machine, plain_append.2 ⟨ho.directives, hplain⟩⟩
  · exact ⟨ho.own, ho.machine, (List.append_eq_nil_iff.1 ho.directives).1⟩

/-- A statement that is neither a machine instruction nor EQU nor DS, and starts no macro, asks
nothing of the layout. -/
theorem Flat.skips_other (hflat : s.Flat) (hother : p.1.action = .other)
    (hnoStart : p.1.code? ≠ some "MACRO") : s.Skips p := by
  obtain ⟨-, -, -, -, hfacing⟩ := s.facing_spec p
  cases hcode : p.1.code? with
  | none =>
      have hnone := p.1.operation_toStatement_of_none p.2 s.assembly.names hcode
      change ∀ id range, (s.readNext p).1.operation ≠ .ordinary id range at hnone
      cases hoperation : (s.readNext p).1.operation with
      | ordinary id range => exact absurd hoperation (hnone id range)
      | empty | concatenation => exact hflat.skips_undefined _ rfl (by rw [hoperation]; rfl)
  | some code =>
      obtain ⟨id, range, hoperation, -, hname⟩ := operation_of_code (s := s) hcode
      have hbinds := binds_of_flat (hfacing hflat) id
      have haction : SourceStatement.actionOf code = .other := by
        simpa [SourceStatement.action, hcode] using hother
      unfold SourceStatement.actionOf at haction
      cases hkind : Instruction.kind? code with
      | none =>
          refine hflat.skips_undefined
            { reader := .openCode, form := .unknown, opcode := ⟨some id, .undefined⟩ } ?_ rfl
          simp [hoperation, Assembly.openReading, hbinds, hname, hkind]
      | some kind =>
          cases kind with
          | machine | mnemonic =>
              -- an instruction without an encoding is unknown
              have hencoded : Instruction.encoded? code = none := by
                cases hfound : Instruction.encoded? code with
                | none => rfl
                | some found => simp [hkind, hfound] at haction
              refine hflat.skips_undefined
                { reader := .openCode, form := .unknown, opcode := ⟨some id, .undefined⟩ } ?_ rfl
              simp [hoperation, Assembly.openReading, Assembly.machineReading, hbinds, hname, hkind,
                hencoded]
          | conditional =>
              exact hflat.skips_conditional hcode hkind fun heq =>
                hnoStart (hcode.trans (congrArg some heq))
          | assembler =>
              exact hflat.skips_directive hcode hkind
                (fun name hfound => by simp [hkind, hfound] at haction)
                (fun name hfound => by simp [hkind, hfound] at haction)

/-! ## Behind a statement -/

/-- A flat session `s'` has settled behind a statement that took `s` to the assembly `a`. -/
structure Settles (h : History Postponed) (s : Session) (ms : List (Move Postponed))
    (o : OpenCode) (a : Assembly) (s' : Session) : Prop where
  proceeds : Proceeds h s (ms ++ settleMoves a.names) s'
  flat : s'.Flat
  table : s'.assembly.layout.table = a.layout.table
  counter : s'.assembly.layout.counter = a.layout.counter
  names : s'.assembly.names = a.names
  /-- No diagnostic is lost. -/
  silent : s'.diagnostics = [] → s.diagnostics = [] ∧ o.Silent

/-- A flat session that faces a statement follows the same history. -/
theorem Follows.facing (hs : s.Follows h) (p : SourceStatement × Nat) : (s.facing p).Follows h :=
  ((hs.readNext p).follows.turnTo _).follows

/-- Making released checks takes no diagnostics back. -/
theorem silent_of_replay {o : OpenCode} {a : Assembly}
    (hok : s.replay = .ok (s.behind o a)) (ho : o.Silent) : s.openCode.Silent := by
  obtain ⟨⟨o', a'⟩, hall, hok⟩ := bind_eq_ok_iff.1 hok
  have hsame : s.behind o' a' = s.behind o a := Except.ok.inj hok
  obtain rfl : o' = o := congrArg Session.openCode hsame
  exact OpenCode.silent_of_replayAll hall ho

/-- What open code gets goes on like the assembly that faces the statement. -/
theorem proceeds_of_opened {ms : List (Move Postponed)} {a : Assembly} {form : OperandForm}
    (hp : Assembly.Proceeds h (s.opened p form) ms a) :
    Assembly.Proceeds h (s.facing p).assembly ms a :=
  ⟨hp.follows, hp.legal, hp.asks, hp.table, hp.names, hp.library⟩

/-- What open code gets follows the same history. -/
theorem Follows.opened (hs : s.Follows h) (p : SourceStatement × Nat) (form : OperandForm) :
    (s.opened p form).Follows h :=
  (hs.facing p).assembly.grow rfl (.refl _)

/-- In a flat session settling only makes the released checks and gathers the diagnostics. -/
theorem Flat.settle_eq (hflat : s.Flat) : s.settle = s.replay >>= fun s => .ok s.collect := by
  have hstart : s.startPending.registerCompleted = s := by
    unfold startPending
    rw [hflat.pendingStart]
    unfold registerCompleted
    rw [hflat.completed]
    exact congrArg (fun ds => { s with completed := ds }) hflat.completed.symm
  unfold settle
  rw [hstart]
  rfl

/-- A flat session settles behind a statement. -/
theorem Flat.settles (hflat : s.Flat) (hs : s.Follows h) {ms : List (Move Postponed)} {a : Assembly}
    {o : OpenCode} (hp : Assembly.Proceeds h (s.facing p).assembly ms a) (ho : o.Quiet) :
    ∃ s', ((s.facing p).behind o a).settle = .ok s' ∧ Settles h s ms o a s' := by
  obtain ⟨hlayout, hnames, hopen, hdiagnostics, hfacing⟩ := s.facing_spec p
  have hfaces := hs.facing p
  let b := (s.facing p).behind o a
  have hbehind : Proceeds h (s.facing p) ms b :=
    hfaces.proceed hp.follows hp.legal (fun hm => hp.asks _ hm) (fetched_makeAll hp.asks) hp.table
      hp.names ho hfaces.collectors plain_nil (List.append_nil _).symm
  obtain ⟨o', a', hok, hreplay, hnames', hlibrary⟩ := hbehind.follows.replay
  have hboth : Proceeds (h.makeAll ms) b
      ([.takeReady, .takeEvents] ++ [.takeDiagnostics a'.names]) (b.behind o' a').collect :=
    hreplay.trans hreplay.follows.collect
  have hflatBehind : b.Flat := ⟨(hfacing hflat).collectors, (hfacing hflat).pendingStart,
    (hfacing hflat).completed, hp.library.trans (hfacing hflat).library⟩
  have hmoves : [Move.takeReady, .takeEvents] ++ [.takeDiagnostics a'.names] =
      settleMoves a.names := by
    rw [hnames']
    rfl
  rw [hmoves] at hboth
  have hall : Proceeds h s _ _ :=
    (hs.readNext p).trans (((hs.readNext p).follows.turnTo _).trans (hbehind.trans hboth))
  have hfetches : ∀ m ∈ settleMoves a.names, m.Fetches := by simp [settleMoves, Move.Fetches]
  have hsettled := (h.makeAll ms).settled_makeAll hfetches
  have hbefore : (h.makeAll ms).layout = a.layout := hp.follows.layout
  have hafter := hboth.follows.assembly.layout
  refine ⟨(b.behind o' a').collect, ?_, hall, ⟨?_, ?_, ?_, ?_⟩, ?_, ?_, hnames', fun hnil => ?_⟩
  · rw [hflatBehind.settle_eq, hok]
    rfl
  · show ((s.facing p).collectors.map Collector.collect).map Prod.snd = []
    rw [(hfacing hflat).collectors]
    rfl
  · exact hflatBehind.pendingStart
  · exact hflatBehind.completed
  · exact hlibrary.trans hflatBehind.library
  · exact (congrArg Layout.table hafter).symm.trans
      (hsettled.table.trans (congrArg Layout.table hbefore))
  · exact (congrArg Layout.counter hafter).symm.trans
      (hsettled.counter.trans (congrArg Layout.counter hbefore))
  -- all diagnostics are among the gathered ones, those of open code behind the released checks
  · have hfound :
        (s.facing p).diagnostics ++ _ ++ (o'.own ++ o'.machine ++ o'.directives) ++ _ = [] :=
      hnil
    simp only [List.append_eq_nil_iff] at hfound
    obtain ⟨⟨⟨hbefore, -⟩, ⟨hown, hmachine⟩, hdirectives⟩, -⟩ := hfound
    exact ⟨hdiagnostics ▸ hbefore, silent_of_replay hok ⟨hown, hmachine, hdirectives⟩⟩

/-- The fields of a statement are those of a source statement, as the assembler reads them. -/
structure Reads (a : Assembly) (source : SourceStatement) (st : Statement OperandField) : Prop where
  label : ∀ name, source.symbol? = some name →
    ∃ id range, st.label = .ordinary id range ∧ a.names.find? name = some id
  operand : ∀ e, source.operand? = some e →
    ∃ e', (a.firstOperand st).1 = some e' ∧ e.Numbered (a.firstOperand st).2 e'
  noOperand : source.operand? = none → (a.firstOperand st).1 = none

/-- The next statement has the fields of its source. -/
theorem reads_coded (s : Session) (p : SourceStatement × Nat) (form : OperandForm)
    (opcode : Opcode) : Reads (s.opened p form) p.1 (s.coded p opcode) where
  label name hname := by
    obtain ⟨id, range, hlabel, hfind⟩ :=
      p.1.label_toStatement p.2 s.assembly.names hname
    refine ⟨id, range, hlabel, ?_⟩
    rw [(s.opened_spec p form).2.1, (s.facing_spec p).2.1]
    exact hfind
  operand _ he := Field.readField_of_operand he _ _
  noOperand hnone := Field.readField_of_no_operand hnone _ _

/-- An instruction to the assembler is processed, and the session settles behind it. -/
theorem Flat.settles_directive (hflat : s.Flat) (hs : s.Follows h) (hcode : p.1.code? = some code)
    (hkind : Instruction.kind? code = some .assembler) {name : String} {action : AssemblerAction}
    (hfound : Instruction.assembler? code = some ⟨name, action⟩) :
    ∃ st s', s.step p = .ok s' ∧
      let b := s.opened p .assembler
      let handled := b.processDirective st
      Reads b p.1 st ∧ b.Directs st action ∧
        Assembly.Proceeds h b (b.directiveMoves st) handled.2 ∧
        Settles h s (b.directiveMoves st)
          { s.openCode with directives := s.openCode.directives ++ handled.1 } handled.2 s' := by
  obtain ⟨id, hfind, hpasses⟩ := hflat.passes_directive hcode hkind
  obtain ⟨-, hnames, -⟩ := s.opened_spec p .assembler
  obtain ⟨hamong, hp⟩ := (hs.opened p .assembler).directive (s.coded p ⟨some id, .assembler⟩)
  obtain ⟨s', hsettle, hset⟩ := hflat.settles hs (proceeds_of_opened hp)
    (o := { s.openCode with directives := s.openCode.directives ++
      ((s.opened p .assembler).processDirective (s.coded p ⟨some id, .assembler⟩)).1 })
    ⟨hs.quiet.own, hs.quiet.machine,
      plain_append.2 ⟨hs.quiet.directives, hamong.plain (by decide)⟩⟩
  exact ⟨s.coded p ⟨some id, .assembler⟩, s', hpasses.step.trans hsettle, s.reads_coded p _ _,
    ⟨id, code, name, rfl, hnames ▸ hfind, hfound⟩, hp, hset⟩

/-! ## The end of the source -/

/-- Making released checks fetches no diagnostic. -/
theorem diagnostics_replay (hok : s.replay = .ok s') : s'.diagnostics = s.diagnostics := by
  obtain ⟨found, -, hok⟩ := bind_eq_ok_iff.1 hok
  cases hok
  rfl

/-- Gathering diagnostics loses none. -/
theorem diagnostics_collect (s : Session) : s.diagnostics <+: s.collect.diagnostics :=
  ⟨_, (List.append_assoc _ _ _).symm.trans (List.append_assoc _ _ _).symm⟩

/-- Settling loses no diagnostic. -/
theorem diagnostics_settle (hok : s.settle = .ok s') : s.diagnostics <+: s'.diagnostics := by
  have hstart : s.startPending.registerCompleted.diagnostics = s.diagnostics := by
    unfold startPending
    split <;> rfl
  obtain ⟨t, hreplay, hok⟩ := bind_eq_ok_iff.1 hok
  cases hok
  rw [← hstart, ← diagnostics_replay hreplay]
  exact t.diagnostics_collect

/-- Giving up what still waits loses no diagnostic. -/
theorem diagnostics_giveUp (hok : s.giveUp = .ok s') : s.diagnostics <+: s'.diagnostics := by
  obtain ⟨t, hreplay, hok⟩ := bind_eq_ok_iff.1 hok
  cases hok
  show s.givenUp.diagnostics <+: _
  rw [← diagnostics_replay hreplay]
  exact t.diagnostics_collect

/-- Where no definition is open, none is ended with the source. -/
theorem providerFinished_of_nil (hnil : s.collectors = []) :
    s.providerFinished .openCode = .ok s := by
  change s.endCollectors s.collectors.length = .ok s
  rw [hnil]
  rfl

/-- The end of a flat session loses no diagnostic. -/
theorem Flat.diagnostics_finish (hflat : s.Flat) (hok : s.finish = .ok s') :
    s.diagnostics <+: s'.diagnostics := by
  rw [finish_eq, providerFinished_of_nil hflat.collectors] at hok
  obtain ⟨t, hsettle, hgiveUp⟩ := bind_eq_ok_iff.1 hok
  exact (diagnostics_settle hsettle).trans (diagnostics_giveUp hgiveUp)

/-- The moves at the end of the source: the end, and fetching before and behind it. -/
theorem finishMoves_eq (s : Session) : ∃ ns ns', s.finishMoves = ns ++ .finish :: ns' ∧
    (∀ m ∈ ns, m.Fetches) ∧ ∀ m ∈ ns', m.Fetches := by
  have hsettle : ∀ m ∈ settleMoves s.assembly.names, m.Fetches := by
    simp [settleMoves, Move.Fetches]
  refine ⟨s.closingMoves, _, rfl, fun m hm => ?_, by simpa [Move.Fetches] using hsettle⟩
  obtain ⟨ms, hms, hm⟩ := List.mem_flatten.1 hm
  exact hsettle m ((List.mem_replicate.1 hms).2 ▸ hm)

/-- The end `s'` of a flat session `s`, with the history `f` of its layout. -/
structure Finishes (h : History Postponed) (s : Session) (f : History Postponed) (s' : Session) :
    Prop where
  made : f = h.makeAll s.finishMoves
  ended : f.Ended
  layout : f.layout = s'.assembly.layout
  leads : h.Leads f
  names : s'.assembly.names = s.assembly.names
  counter : s'.assembly.layout.counter = s.assembly.layout.counter
  silent : s'.diagnostics = [] → s.diagnostics = [] ∧ f.errors = []

/-- A flat session comes to its end. -/
theorem Flat.finishes (hflat : s.Flat) (hs : s.Follows h) {ms : List (Move Postponed)}
    (hh : h = .makeAll {} ms) (hlegal : Layout.Legal ({} : Layout Postponed) ms)
    (hrunning : Move.finish ∉ ms) : ∃ f s', s.finish = .ok s' ∧ Finishes h s f s' := by
  obtain ⟨s', hok, hfinished, -, herrors, hnames⟩ := hs.finish
  obtain ⟨ns, ns', hmoves, hns, hns'⟩ := s.finishMoves_eq
  rw [hmoves] at hfinished
  have hlayout := hfinished.assembly.layout
  have hbody : h.makeAll (ns ++ .finish :: ns') = .makeAll {} ((ms ++ ns) ++ .finish :: ns') := by
    rw [hh, ← History.makeAll_append, List.append_assoc]
  have hlegal' : Layout.Legal ({} : Layout Postponed) (ms ++ ns) :=
    Layout.legal_append.2 ⟨hlegal, Layout.legal_of_fetches hns⟩
  have hrunning' : Move.finish ∉ ms ++ ns := by
    intro hm
    rcases List.mem_append.1 hm with hm | hm
    · exact hrunning hm
    · exact hns _ hm
  refine ⟨_, s', hok, congrArg h.makeAll hmoves.symm,
    hbody ▸ Layout.ended_makeAll hlegal' hrunning' hns', hlayout, ⟨h.registered_subset _, ?_⟩,
    hnames, ?_, fun hnil => ⟨?_, ?_⟩⟩
  · rw [History.layout_makeAll]
    refine hs.assembly.tracked.extends_makeAll (Layout.legal_append.2
      ⟨Layout.legal_of_fetches hns, trivial, Layout.legal_of_fetches hns'⟩)
  · rw [← hlayout, Layout.counter_end h hns hns', hs.assembly.layout]
  · exact List.prefix_nil.1 (hnil ▸ hflat.diagnostics_finish hok)
  -- each fetched error has become a diagnostic, and none is left in the layout
  · have hfetched : (h.makeAll (ns ++ .finish :: ns')).fetched = [] :=
      List.eq_nil_of_length_eq_zero (Nat.le_zero.1 (by simpa [hnil] using hfinished.fetched))
    rw [History.errors, hfetched, hlayout, herrors]
    rfl

end Session

end MacroAssembler
