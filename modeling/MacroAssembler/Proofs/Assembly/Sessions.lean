import MacroAssembler.Console.Command
import MacroAssembler.Proofs.Assembly.Macros

/-!
# Sessions and their layout

The moves of the layout that a session makes. Whatever the statements are, no contract between the
parts is broken: the session goes on, and its layout is the result of its moves (`Follows.process`,
`Follows.finish`). On a file the labels that wait have names, and the diagnostics that tell of
circles are those of the layout (`processAll_follows`).
-/

namespace MacroAssembler

open Layout (Move History circular)

/-! ## Open code -/

/-- The diagnostics of open code tell of no circle. -/
structure OpenCode.Quiet (o : OpenCode) : Prop where
  own : Plain o.own
  machine : Plain o.machine
  directives : Plain o.directives

namespace Assembly

variable {a : Assembly} {h : History Postponed}

/-- The moves that process a statement of open code. -/
def openMoves (a : Assembly) (s : Statement OperandField) : List (Move Postponed) :=
  match s.opcode.kind with
  | .machine => a.machineMoves s
  | .assembler => a.directiveMoves s
  | _ => []

/-- A statement of open code lets at most its label wait, and its check. -/
theorem named_openMoves (a : Assembly) {s : Statement OperandField} {names : NameTable}
    (hlabel : s.label.Named names) : ∀ m ∈ a.openMoves s, m.Named names := by
  unfold openMoves
  split
  · exact a.named_machineMoves hlabel
  · exact fun m hm => (a.lays_directiveMoves s m hm).named hlabel
  · simp

/-- The checks that are made when a statement of open code is processed. -/
def openChecks (a : Assembly) (s : Statement OperandField) : List Check :=
  match s.opcode.kind with
  | .machine => (a.checkNow? s).toList
  | _ => []

/-- What the parts of open code blame a statement for, apart from its check. -/
def remarks (a : Assembly) (s : Statement OperandField) : OpenCode :=
  match s.opcode.kind with
  | .conditional => {}
  | .machine => { machine := a.machineRemarks s }
  | .assembler => { directives := (a.processDirective s).1 }
  | .definedMacro =>
      match a.processCall s with
      | .ok (faults, _) => { own := faults }
      | .error _ => {}
  | .undefined => { own := (a.processUndefined s.operation).1 }

/-- An operation code found in open code is a known instruction, or a macro in the library. -/
theorem openReading_spec (a : Assembly) (operation : Operation) :
    let code := (a.openReading operation).opcode
    (code.kind = .machine → ∃ id, code.name = some id ∧ id.index < a.names.size ∧
      (Instruction.encoded? (a.names.nameOf id)).isSome = true) ∧
    (code.kind = .definedMacro → ∃ id, code.name = some id ∧ a.library.binds id = true) := by
  -- the reading as a machine instruction is the only one that could miss, and it tests for the
  -- encoding itself
  have hmachine {id range} :
      let code := (a.machineReading (.ordinary id range)).opcode
      (code.kind = .machine → ∃ id, code.name = some id ∧ id.index < a.names.size ∧
        (Instruction.encoded? (a.names.nameOf id)).isSome = true) ∧
      (code.kind = .definedMacro → ∃ id, code.name = some id ∧ a.library.binds id = true) := by
    unfold machineReading
    dsimp only
    split
    · rename_i hsome
      exact ⟨fun _ => ⟨id, rfl, NameTable.lt_size_of_encoded? hsome, hsome⟩, by simp⟩
    · simp
  cases operation with
  | empty | concatenation => simp [openReading]
  | ordinary id range =>
      unfold openReading
      dsimp only
      split
      · rename_i hbinds
        exact ⟨by simp, fun _ => ⟨id, rfl, hbinds⟩⟩
      · split
        · simp
        · exact hmachine
        · exact hmachine
        · simp
        · simp

/-- An instruction of conditional assembly asks nothing of the layout. -/
theorem processConditional_learns (a : Assembly) (s : Statement OperandField) :
    a.Learns (a.processConditional s).1 := by
  unfold processConditional
  dsimp only
  split
  · exact .refl a
  · exact .report a _

/-- A statement whose operation code is unknown asks nothing of the layout. -/
theorem processUndefined_spec (a : Assembly) (operation : Operation) :
    Among [.undefinedOperationCode] (a.processUndefined operation).1 ∧
    a.Learns (a.processUndefined operation).2 := by
  unfold processUndefined
  split
  · exact ⟨by simp, .refl a⟩
  · exact ⟨by simp, .refl a⟩
  · exact ⟨by simp, .report a _⟩

end Assembly

namespace OpenCode

variable {a : Assembly} {h : History Postponed} {o : OpenCode}

/-- What open code itself can blame a statement for. -/
def ownCodes : List DiagnosticCode := .undefinedOperationCode :: callCodes

/-- What open code holds when a statement has been processed: behind what was held before, the
remarks on the statement, and among those on machine statements what the checks have found. -/
structure Adds (o r : OpenCode) (checks : List Check) (o' : OpenCode) : Prop where
  own : o'.own = o.own ++ r.own
  machine : o'.machine = o.machine ++ (r.machine ++ checks.flatMap (·.diagnostics))
  directives : o'.directives = o.directives ++ r.directives

/-- Remarks are of the kinds of the parts that make them. -/
structure Remarks (r : OpenCode) : Prop where
  own : Among ownCodes r.own
  machine : Among Assembly.remarkCodes r.machine
  directives : Among Assembly.directiveCodes r.directives

theorem openChecks_among (a : Assembly) (s : Statement OperandField) :
    Among OperandCheck.codes ((a.openChecks s).flatMap (·.diagnostics)) := by
  unfold Assembly.openChecks
  split
  · exact a.checkNow_among s
  · simp

/-- What is added tells of no circle. -/
theorem Adds.quiet {r o' : OpenCode} {checks : List Check} (h : o.Adds r checks o') (hr : r.Remarks)
    (hchecks : Among OperandCheck.codes (checks.flatMap (·.diagnostics))) (ho : o.Quiet) :
    o'.Quiet where
  own := h.own ▸ plain_append.2 ⟨ho.own, hr.own.plain (by decide)⟩
  machine := h.machine ▸ plain_append.2 ⟨ho.machine,
    plain_append.2 ⟨hr.machine.plain (by decide), hchecks.plain (by decide)⟩⟩
  directives := h.directives ▸ plain_append.2 ⟨ho.directives, hr.directives.plain (by decide)⟩

/-- A statement of open code is processed. -/
theorem process_spec (o : OpenCode) (hf : a.Follows h) {s : Statement OperandField}
    (hmachine : s.opcode.kind = .machine → s.Encodable a.names)
    (hdefined : s.opcode.kind = .definedMacro →
      ∃ id, s.opcode.name = some id ∧ a.library.binds id = true) :
    ∃ o' a' notices, o.process a s = .ok (o', a', notices) ∧
      o.Adds (a.remarks s) (a.openChecks s) o' ∧ (a.remarks s).Remarks ∧
      Assembly.Proceeds h a (a.openMoves s) a' := by
  unfold process Assembly.openMoves Assembly.openChecks Assembly.remarks
  cases hkind : s.opcode.kind with
  | conditional =>
      exact ⟨_, _, _, rfl, ⟨by simp, by simp, by simp⟩, ⟨by simp, by simp, by simp⟩,
        (a.processConditional_learns s).proceeds hf⟩
  | machine =>
      obtain ⟨a', hok, hamong, hproceeds⟩ := hf.machine (hmachine hkind)
      simp only [hok]
      exact ⟨_, _, _, rfl, ⟨by simp, rfl, by simp⟩, ⟨by simp, hamong, by simp⟩, hproceeds⟩
  | assembler =>
      obtain ⟨hamong, hproceeds⟩ := hf.directive s
      exact ⟨_, _, _, rfl, ⟨by simp, by simp, rfl⟩, ⟨by simp, by simp, hamong⟩, hproceeds⟩
  | definedMacro =>
      obtain ⟨id, hname, hbinds⟩ := hdefined hkind
      obtain ⟨faults, a', call, hok, hamong, hlearns⟩ := Assembly.processCall_learns hname hbinds
      simp only [hok]
      exact ⟨_, _, _, rfl, ⟨rfl, by simp, by simp⟩,
        ⟨hamong.mono (List.subset_cons_self _ _), by simp, by simp⟩, hlearns.proceeds hf⟩
  | undefined =>
      obtain ⟨hamong, hlearns⟩ := a.processUndefined_spec s.operation
      exact ⟨_, _, _, rfl, ⟨rfl, by simp, by simp⟩,
        ⟨hamong.mono (by simp [ownCodes]), by simp, by simp⟩, hlearns.proceeds hf⟩

/-- Released checks that can be made are made, and ask nothing of the layout. -/
theorem replayAll_spec (o : OpenCode) (a : Assembly) (ps : List Postponed)
    (hps : ∀ p ∈ ps, p.statement.Encodable a.names) :
    ∃ events, o.replayAll a ps =
      .ok ({ o with machine := o.machine ++ (a.replays ps).flatMap (·.diagnostics) },
        a.reportAll events) := by
  induction ps generalizing o a with
  | nil => exact ⟨[], by simp [replayAll, Assembly.replays, Assembly.reportAll]⟩
  | cons p ps ih =>
      obtain ⟨i, formats, hencoded⟩ := (hps p (by simp)).encoded
      obtain ⟨event, hfirst⟩ : ∃ event, o.replay a p = .ok
          ({ o with machine := o.machine ++ (a.replays [p]).flatMap (·.diagnostics) },
            a.report event) := by
        unfold replay
        split
        · rename_i hkind
          have hchecks : a.replays [p] =
              [⟨p.statement, formats, a.checkOperands p.statement formats⟩] := by
            simp [Assembly.replays, Assembly.replay?, Assembly.check?, hkind, hencoded]
          refine ⟨.checkReplayed p.statement.range, ?_⟩
          rw [hchecks]
          simp only [Assembly.replayMachine, hencoded]
          simp [pure, Except.pure, bind, Except.bind]
          rfl
        · rename_i hkind
          have hchecks : a.replays [p] = [] :=
            List.filterMap_cons_none (if_neg fun hmachine => hkind hmachine)
          exact ⟨.replayRefused p.statement.range p.statement.opcode.kind, by simp [hchecks]⟩
      obtain ⟨events, hrest⟩ := ih
        { o with machine := o.machine ++ (a.replays [p]).flatMap (·.diagnostics) } (a.report event)
        fun q hq => hps q (by simp [hq])
      refine ⟨event :: events, ?_⟩
      unfold replayAll
      simp only [hfirst]
      refine hrest.trans ?_
      have hsplit : a.replays (p :: ps) = a.replays [p] ++ a.replays ps :=
        List.filterMap_append (l := [p])
      have hsame : (a.report event).replays ps = a.replays ps := rfl
      rw [hsplit, hsame]
      simp [Assembly.reportAll, Assembly.report]

end OpenCode

/-! ## The moves of a session -/

namespace Session

variable {s s' s'' : Session} {h : History Postponed} {ms ms' : List (Move Postponed)}

/-- The session when it turns to a statement. -/
def turnTo (s : Session) (st : Statement OperandField) : Session :=
  let line := st.range.start.line + 1
  let s := if s.tracing.includes line then s.report (.traced line (s.subject st.operation)) else s
  { s with assembly := s.assembly.moveTo st.range.start }

/-- The moves that hand a statement on. -/
def dispatchMoves (s : Session) (st : Statement OperandField) : List (Move Postponed) :=
  match s.collectors with
  | [] =>
      let reading := s.assembly.openReading st.operation
      let a := s.assembly.report (.statementRead .openCode st.range reading.form)
      a.openMoves { st with opcode := reading.opcode }
  | _ :: _ => []

/-- The moves after each statement. -/
def settleMoves (names : NameTable) : List (Move Postponed) :=
  [.takeReady, .takeEvents, .takeDiagnostics names]

/-- The moves that process a statement. -/
def moves (s : Session) (st : Statement OperandField) : List (Move Postponed) :=
  (s.turnTo st).dispatchMoves st ++
    match (s.turnTo st).dispatch st with
    | .ok s => settleMoves s.assembly.names
    | .error _ => []

/-- The moves that end the definitions which are still open, and what is done after that. -/
def closingMoves (s : Session) : List (Move Postponed) :=
  (List.replicate (s.collectors.length + 1) (settleMoves s.assembly.names)).flatten

/-- The moves at the end of the source. -/
def finishMoves (s : Session) : List (Move Postponed) :=
  s.closingMoves ++ .finish :: .takeEvents :: settleMoves s.assembly.names

/-- The next statement of a source, and the session that has learned its names. -/
def readNext (s : Session) (p : SourceStatement × Nat) : Statement OperandField × Session :=
  let (st, names) := p.1.toStatement p.2 s.assembly.names
  (st, { s with assembly := { s.assembly with names } })

/-- Process a statement of a source. -/
def step (s : Session) (p : SourceStatement × Nat) : Except Fault Session :=
  (s.readNext p).2.process (s.readNext p).1

/-- The moves that process a statement of a source. -/
def stepMoves (s : Session) (p : SourceStatement × Nat) : List (Move Postponed) :=
  (s.readNext p).2.moves (s.readNext p).1

/-- The moves on the statements of a source and at its end. -/
def fileMoves (s : Session) : List (SourceStatement × Nat) → List (Move Postponed)
  | [] => s.finishMoves
  | p :: rest =>
      s.stepMoves p ++
        match s.step p with
        | .ok s => s.fileMoves rest
        | .error _ => []

/-- The history of the layout of a session on a file. -/
def history (file : String) (tracing : Tracing) (statements : List SourceStatement) :
    History Postponed :=
  .makeAll {} ((start file tracing).fileMoves statements.zipIdx)

/-! ## Following a history -/

/-- A diagnostic that tells of a circle. -/
def isCircular (d : Diagnostic) : Bool := d.code == .circularDependency

/-- The parts of a session follow a history. -/
structure Follows (s : Session) (h : History Postponed) : Prop where
  assembly : s.assembly.Follows h
  collectors : ∀ c ∈ s.collectors, c.finished = false ∧ Plain c.diagnostics
  quiet : s.openCode.Quiet
  fetched : h.fetched.length ≤ s.diagnostics.length

/-- The diagnostics of a session that tell of circles are those fetched from its layout. All symbols
that were let wait have names, so that the diagnostics can name them. -/
structure Blames (s : Session) (h : History Postponed) : Prop where
  named : ∀ e ∈ h.registered, ∀ n, e.target = some (.symbol n) → n.index < s.assembly.names.size
  circular : s.diagnostics.filter isCircular =
    (circular h.fetched).map fun p => p.2.diagnostic s.assembly.names p.1

/-- A session goes on from `s` to `s'` by the given moves, without an end. -/
structure Proceeds (h : History Postponed) (s : Session) (ms : List (Move Postponed))
    (s' : Session) : Prop where
  follows : s'.Follows (h.makeAll ms)
  legal : h.layout.Legal ms
  running : Move.finish ∉ ms
  table : s.assembly.layout.table.Extends s'.assembly.layout.table
  names : s.assembly.names.Grows s'.assembly.names
  blames : s.Blames h → (∀ m ∈ ms, m.Named s.assembly.names) → s'.Blames (h.makeAll ms)

theorem Proceeds.refl (hs : s.Follows h) : Proceeds h s [] s :=
  ⟨hs, trivial, by simp, .refl _, .refl _, fun hb _ => hb⟩

theorem Proceeds.trans (hp : Proceeds h s ms s') (hp' : Proceeds (h.makeAll ms) s' ms' s'') :
    Proceeds h s (ms ++ ms') s'' where
  follows := History.makeAll_append h ms ms' ▸ hp'.follows
  legal := Layout.legal_append.2 ⟨hp.legal, History.layout_makeAll h ms ▸ hp'.legal⟩
  running hm := (List.mem_append.1 hm).elim hp.running hp'.running
  table := hp.table.trans hp'.table
  names := hp.names.trans hp'.names
  blames hb hnamed := by
    obtain ⟨hfirst, hsecond⟩ := List.forall_mem_append.1 hnamed
    rw [History.makeAll_append]
    exact hp'.blames (hp.blames hb hfirst) fun m hm => (hsecond m hm).grows hp.names

/-- The diagnostic of an error that tells of a circle says the same when there are more names. -/
theorem Blames.diagnostic_grows (hb : s.Blames h) (hs : s.Follows h) {names : NameTable}
    (hgrows : s.assembly.names.Grows names) {p : Range × LayoutError}
    (hp : p ∈ Layout.circular h.errors) :
    p.2.diagnostic names p.1 = p.2.diagnostic s.assembly.names p.1 := by
  -- a circle is blamed on a registered entry, and the name of its target was in use by then
  obtain ⟨ms, hlegal, rfl⟩ := hs.assembly.run
  rw [History.circular_errors_makeAll _ _ rfl] at hp
  obtain ⟨e, he, rfl⟩ := List.mem_map.1 hp
  have hregistered := History.blamed_makeAll Layout.tracked_empty hlegal (by simp) he
  unfold Layout.blame Entry.targetName?
  dsimp only
  split
  · rename_i n htarget
    simp [LayoutError.diagnostic, LayoutError.args,
      hgrows.nameOf (hb.named e hregistered n htarget)]
  · rfl

/-- Moves that ask something fetch no errors. -/
theorem fetched_makeAll (hasks : ∀ m ∈ ms, m.Asks) : (h.makeAll ms).fetched = h.fetched := by
  induction ms generalizing h with
  | nil => rfl
  | cons m ms ih =>
      rw [History.makeAll_cons, ih fun m' hm' => hasks m' (by simp [hm'])]
      have hm := hasks m (by simp)
      cases m <;> simp_all [History.make, History.fetches, Move.Asks]

/-- Diagnostics that tell of no circle do not count. -/
theorem filter_of_plain {ds : List Diagnostic} (hds : Plain ds) : ds.filter isCircular = [] := by
  rw [List.filter_eq_nil_iff]
  intro d hd
  simpa [isCircular] using hds d hd

/-- The names that moves let wait are in use if they were before, or were in use already. -/
theorem named_makeAll {names : NameTable}
    (hnamed : ∀ e ∈ h.registered, ∀ n, e.target = some (.symbol n) → n.index < names.size)
    (hmoves : ∀ m ∈ ms, m.Named names) :
    ∀ e ∈ (h.makeAll ms).registered, ∀ n, e.target = some (.symbol n) → n.index < names.size := by
  induction ms generalizing h with
  | nil => exact hnamed
  | cons m ms ih =>
      refine ih (h := h.make m) (fun e he n htarget => ?_) fun m' hm' => hmoves m' (by simp [hm'])
      have hm := hmoves m (by simp)
      rcases List.mem_append.1 he with he | he
      · exact hnamed e he n htarget
      · cases m <;> simp only [Move.registration?, Option.map_some, Option.map_none,
          Option.toList_some, Option.toList_none, List.mem_singleton, List.not_mem_nil] at he
        all_goals
          subst he
          cases htarget
        exact hm

/-- A session goes on when its assembly does, no errors are fetched, and its diagnostics stay, or
get some behind them that tell of no circle. -/
theorem Follows.proceed (hs : s.Follows h) (hf : s'.assembly.Follows (h.makeAll ms))
    (hlegal : h.layout.Legal ms) (hrunning : Move.finish ∉ ms)
    (hfetched : (h.makeAll ms).fetched = h.fetched)
    (htable : s.assembly.layout.table.Extends s'.assembly.layout.table)
    (hnames : s.assembly.names.Grows s'.assembly.names) (hquiet : s'.openCode.Quiet)
    (hcollectors : ∀ c ∈ s'.collectors, c.finished = false ∧ Plain c.diagnostics)
    {ds : List Diagnostic} (hplain : Plain ds)
    (hdiagnostics : s'.diagnostics = s.diagnostics ++ ds) :
    Proceeds h s ms s' where
  follows := by
    refine ⟨hf, hcollectors, hquiet, ?_⟩
    rw [hfetched, hdiagnostics, List.length_append]
    exact Nat.le_trans hs.fetched (Nat.le_add_right _ _)
  legal := hlegal
  running := hrunning
  table := htable
  names := hnames
  blames hb hnamed := by
    refine ⟨fun e he n htarget => hnames.lt_size (named_makeAll hb.named hnamed e he n htarget), ?_⟩
    rw [hdiagnostics, List.filter_append, filter_of_plain hplain, List.append_nil, hb.circular,
      hfetched]
    refine List.map_congr_left fun p hmem => (hb.diagnostic_grows hs hnames ?_).symm
    rw [History.errors, Layout.circular_append]
    exact List.mem_append_left _ hmem

/-- A session goes on when its layout and its open code stay, and its diagnostics stay, or get some
behind them that tell of no circle. -/
theorem Follows.keep (hs : s.Follows h) (hlayout : s'.assembly.layout = s.assembly.layout)
    (hnames : s.assembly.names.Grows s'.assembly.names) (hopen : s'.openCode = s.openCode)
    (hcollectors : ∀ c ∈ s'.collectors, c.finished = false ∧ Plain c.diagnostics)
    {ds : List Diagnostic} (hplain : Plain ds)
    (hdiagnostics : s'.diagnostics = s.diagnostics ++ ds) :
    Proceeds h s [] s' :=
  hs.proceed (hs.assembly.grow hlayout hnames) trivial (by simp) rfl (hlayout ▸ .refl _) hnames
    (hopen ▸ hs.quiet) hcollectors hplain hdiagnostics

/-! ## What is done after a statement -/

/-- An error and its diagnostic tell of the same kind of fault. -/
theorem isCircular_diagnostic (e : LayoutError) (names : NameTable) (range : Range) :
    isCircular (e.diagnostic names range) = e.isCircular := by
  cases e <;> rfl

/-- The diagnostics of errors that tell of circles are those of the errors that do. -/
theorem filter_diagnostics (errors : List (Range × LayoutError)) (names : NameTable) :
    (errors.map fun p => p.2.diagnostic names p.1).filter isCircular =
      (circular errors).map fun p => p.2.diagnostic names p.1 := by
  rw [circular, List.filter_map]
  congr 2
  funext p
  exact isCircular_diagnostic p.2 names p.1

/-- Gathering the diagnostics fetches the errors of the layout. -/
theorem Follows.collect (hs : s.Follows h) :
    Proceeds h s [.takeDiagnostics s.assembly.names] s.collect := by
  have hf : s.collect.assembly.Follows (h.make (.takeDiagnostics s.assembly.names)) :=
    hs.assembly.make trivial trivial rfl rfl
  have hlayout := hs.assembly.layout
  have hmap : h.layout.errors = s.assembly.layout.errors := by rw [hlayout]
  have hcollectors : Plain ((s.collectors.map Collector.collect).reverse.flatMap Prod.fst) := by
    intro d hd
    obtain ⟨p, hp, hd⟩ := List.mem_flatMap.1 hd
    obtain ⟨c, hc, rfl⟩ := List.mem_map.1 (List.mem_reverse.1 hp)
    exact (hs.collectors c hc).2 d hd
  have hopen : Plain (s.openCode.own ++ s.openCode.machine ++ s.openCode.directives) :=
    plain_append.2 ⟨plain_append.2 ⟨hs.quiet.own, hs.quiet.machine⟩, hs.quiet.directives⟩
  refine ⟨⟨hf, fun c hc => ?_, ⟨plain_nil, plain_nil, plain_nil⟩, ?_⟩, ⟨trivial, trivial⟩,
    by simp, .refl _, .refl _, fun hb hnamed => ⟨named_makeAll hb.named hnamed, ?_⟩⟩
  · obtain ⟨p, hp, rfl⟩ := List.mem_map.1 hc
    obtain ⟨c', hc', rfl⟩ := List.mem_map.1 hp
    exact ⟨(hs.collectors c' hc').1, plain_nil⟩
  · have hfetched := hs.fetched
    show (h.fetched ++ h.layout.errors).length ≤ (s.diagnostics ++ _ ++ _ ++
      (s.assembly.layout.errors.map fun p => p.2.diagnostic s.assembly.names p.1)).length
    rw [hmap]
    simp only [List.length_append, List.length_map]
    omega
  · show (s.diagnostics ++ _ ++ _ ++ (s.assembly.layout.errors.map fun p =>
      p.2.diagnostic s.assembly.names p.1)).filter isCircular =
        (Layout.circular (h.fetched ++ h.layout.errors)).map _
    rw [List.filter_append, List.filter_append, List.filter_append, filter_of_plain hcollectors,
      filter_of_plain hopen, filter_diagnostics, hb.circular, Layout.circular_append,
      List.map_append, hmap]
    simp only [List.append_nil]
    rfl

/-- Released checks are made, and change nothing else. -/
theorem Follows.replay (hs : s.Follows h) :
    ∃ o a, s.replay = .ok { s with openCode := o, assembly := a } ∧
      Proceeds h s [.takeReady, .takeEvents] { s with openCode := o, assembly := a } ∧
      a.names = s.assembly.names ∧ a.library = s.assembly.library := by
  let ready := s.assembly.layout.ready
  let taken := (s.assembly.request (·.takeReady)).2
  obtain ⟨events, hok⟩ := s.openCode.replayAll_spec taken ready hs.assembly.carries.released
  let a : Assembly := taken.reportAll events
  let faults := (taken.replays ready).flatMap (·.diagnostics)
  let o : OpenCode := { s.openCode with machine := s.openCode.machine ++ faults }
  have hplain : Plain faults := (taken.replays_among ready).plain (by decide)
  have hquiet : o.Quiet :=
    ⟨hs.quiet.own, plain_append.2 ⟨hs.quiet.machine, hplain⟩, hs.quiet.directives⟩
  have htake : { s.assembly with layout := s.assembly.layout.make .takeReady }.Follows
      (h.make .takeReady) := hs.assembly.make trivial trivial rfl rfl
  have hf : a.Follows ((h.make .takeReady).make .takeEvents) :=
    htake.make (m := .takeEvents) trivial trivial rfl rfl
  refine ⟨o, a, ?_, ?_, rfl, rfl⟩
  · unfold Session.replay
    exact congrArg (· >>= fun p => Pure.pure { s with openCode := p.1, assembly := p.2 }) hok
  · exact hs.proceed hf ⟨trivial, trivial, trivial⟩ (by simp)
      (by simp [History.make, History.fetches]) (.refl _) (.refl _) hquiet hs.collectors plain_nil
      (List.append_nil _).symm

/-- Adding a definition to the library asks nothing of the layout. -/
theorem register_spec (a : Assembly) (d : MacroDefinition) :
    (register a d).layout = a.layout ∧ (register a d).names = a.names := by
  unfold register
  split <;> exact ⟨rfl, rfl⟩

/-- Adding definitions to the library asks nothing of the layout. -/
theorem registerCompleted_spec (ds : List MacroDefinition) (a : Assembly) :
    (ds.foldl register a).layout = a.layout ∧ (ds.foldl register a).names = a.names := by
  induction ds generalizing a with
  | nil => exact ⟨rfl, rfl⟩
  | cons d ds ih =>
      obtain ⟨hlayout, hnames⟩ := register_spec a d
      exact ⟨(ih _).1.trans hlayout, (ih _).2.trans hnames⟩

/-- A definition that is started is open and has no complaints. -/
theorem Follows.startPending (hs : s.Follows h) :
    Proceeds h s [] s.startPending ∧ s.startPending.assembly.names = s.assembly.names := by
  unfold Session.startPending
  split
  · exact ⟨.refl hs, rfl⟩
  · refine ⟨hs.keep rfl (.refl _) rfl (fun c hc => ?_) plain_nil (List.append_nil _).symm, rfl⟩
    rcases List.mem_cons.1 hc with rfl | hc
    · exact ⟨rfl, plain_nil⟩
    · exact hs.collectors c hc

/-- The session settles after a statement, and learns no name. -/
theorem Follows.settle (hs : s.Follows h) :
    ∃ s', s.settle = .ok s' ∧ Proceeds h s (settleMoves s.assembly.names) s' ∧
      s'.assembly.names = s.assembly.names := by
  obtain ⟨hstart, hnames⟩ := hs.startPending
  obtain ⟨hlayout', hnames'⟩ :=
    registerCompleted_spec s.startPending.completed s.startPending.assembly
  have hregister : Proceeds h s.startPending [] s.startPending.registerCompleted :=
    hstart.follows.keep hlayout' (hnames' ▸ .refl _) rfl hstart.follows.collectors plain_nil
      (List.append_nil _).symm
  obtain ⟨o, a, hok, hreplay, hnames'', -⟩ := hregister.follows.replay
  have hsame : a.names = s.assembly.names := hnames''.trans (hnames'.trans hnames)
  refine ⟨Session.collect { s.startPending.registerCompleted with openCode := o, assembly := a },
    ?_, hsame ▸ hstart.trans (hregister.trans (hreplay.trans hreplay.follows.collect)), hsame⟩
  unfold Session.settle
  rw [hok]
  rfl

/-! ## Statements -/

/-- Noting what a statement asks for leaves the assembly as it is. -/
theorem assembly_noticeAll (s : Session) (ns : List Notice) :
    (s.noticeAll ns).assembly = s.assembly := by
  induction ns generalizing s with
  | nil => rfl
  | cons n ns ih => exact (ih (s.notice n)).trans (by cases n <;> rfl)

/-- What a statement asks for can be noted. -/
theorem Follows.noticeAll (hs : s.Follows h) (ns : List Notice) :
    Proceeds h s [] (s.noticeAll ns) := by
  induction ns generalizing s with
  | nil => exact .refl hs
  | cons n ns ih =>
      have hnotice : Proceeds h s [] (s.notice n) := by
        cases n <;>
          exact hs.keep rfl (.refl _) rfl hs.collectors plain_nil (List.append_nil _).symm
      exact hnotice.trans (ih hnotice.follows)

/-- What a statement asks for can be noted afterwards. -/
theorem Proceeds.noticeAll (hp : Proceeds h s ms s') (ns : List Notice) :
    Proceeds h s ms (s'.noticeAll ns) :=
  List.append_nil ms ▸ hp.trans (hp.follows.noticeAll ns)

/-- Ending a definition asks nothing of the layout. The definition that is taken off may be
finished already. -/
theorem endInnermost_spec {c : Collector} {rest : List Collector} (hcons : s.collectors = c :: rest)
    (hc : Plain c.diagnostics) (hs : { s with collectors := rest }.Follows h) :
    Proceeds h { s with collectors := rest } [] s.endInnermost ∧
      s.endInnermost.assembly = s.assembly := by
  obtain ⟨ds, hds, -, hdiagnostics⟩ := c.finish_spec s.assembly
  have hfinish : Plain (c.finish s.assembly).1.diagnostics :=
    hdiagnostics ▸ plain_append.2 ⟨hc, hds.plain (by decide)⟩
  unfold Session.endInnermost
  rw [hcons]
  dsimp only
  clear hdiagnostics
  generalize c.finish s.assembly = finished at hfinish
  obtain ⟨c', notices⟩ := finished
  let taken : Session :=
    { s with collectors := rest, diagnostics := s.diagnostics ++ c'.collect.1 }
  have htaken : Proceeds h { s with collectors := rest } [] taken :=
    hs.keep rfl (.refl _) rfl hs.collectors hfinish rfl
  exact ⟨htaken.noticeAll notices, assembly_noticeAll taken notices⟩

theorem Follows.endInnermost (hs : s.Follows h) :
    Proceeds h s [] s.endInnermost ∧ s.endInnermost.assembly = s.assembly := by
  cases hcons : s.collectors with
  | nil =>
      have hsame : s.endInnermost = s := by
        unfold Session.endInnermost
        rw [hcons]
      rw [hsame]
      exact ⟨.refl hs, rfl⟩
  | cons c rest =>
      have hrest : Proceeds h s [] { s with collectors := rest } :=
        hs.keep rfl (.refl _) rfl
          (fun c' hc' => hs.collectors c' (by rw [hcons]; exact List.mem_cons_of_mem c hc'))
          plain_nil (List.append_nil _).symm
      obtain ⟨hended, hassembly⟩ :=
        endInnermost_spec hcons (hs.collectors c (by simp [hcons])).2 hrest.follows
      exact ⟨hrest.trans hended, hassembly⟩

/-- Open code processes every statement. -/
theorem Follows.dispatch_openCode (hs : s.Follows h) (st : Statement OperandField)
    (hnil : s.collectors = []) :
    ∃ s', s.dispatch st = .ok s' ∧ Proceeds h s (s.dispatchMoves st) s' := by
  unfold Session.dispatch dispatchMoves
  simp only [hnil]
  obtain ⟨hmachine, hdefined⟩ := s.assembly.openReading_spec st.operation
  generalize s.assembly.openReading st.operation = reading at hmachine hdefined
  have hreport : (s.assembly.report (.statementRead .openCode st.range reading.form)).Follows h :=
    hs.assembly.grow rfl (.refl _)
  obtain ⟨o, a, notices, hok, hadds, hremarks, hproceeds⟩ := s.openCode.process_spec hreport
    (s := { st with opcode := reading.opcode }) hmachine hdefined
  have hquiet := hadds.quiet hremarks (OpenCode.openChecks_among _ _) hs.quiet
  rw [hok]
  have hgone : Proceeds h s _ { s with openCode := o, assembly := a } :=
    hs.proceed hproceeds.follows hproceeds.legal (fun hm => hproceeds.asks _ hm)
      (fetched_makeAll hproceeds.asks) hproceeds.table hproceeds.names hquiet hs.collectors
      plain_nil (List.append_nil _).symm
  rw [hnil] at hgone
  exact ⟨_, rfl, hgone.noticeAll notices⟩

/-- The innermost definition takes every statement, and is ended if that closes it. -/
theorem dispatch_of_cons (st : Statement OperandField) {c : Collector} {rest : List Collector}
    (hcons : s.collectors = c :: rest) (hc : c.finished = false) :
    let (c', a) := c.take s.assembly st
    let after : Session := { s with assembly := a, collectors := c' :: rest }
    s.dispatch st = .ok (if c'.finished then after.endInnermost else after) := by
  have hopen : (c.reading s.assembly st.operation).2.1.finished = false := by
    unfold Collector.reading
    split
    · obtain ⟨id, ds, a', -, -, heq⟩ := Collector.prototypeReading_eq s.assembly st.operation
      rw [heq]
      exact hc
    · exact hc
  unfold Session.dispatch Collector.take
  rw [hcons]
  dsimp only
  rw [Collector.process_of_open hopen]
  rfl

/-- The innermost definition that is open processes every statement, and asks nothing of the
layout. -/
theorem Follows.dispatch_definition (hs : s.Follows h) (st : Statement OperandField)
    {c : Collector} {rest : List Collector} (hcons : s.collectors = c :: rest) :
    ∃ s', s.dispatch st = .ok s' ∧ Proceeds h s (s.dispatchMoves st) s' := by
  have hc := hs.collectors c (by simp [hcons])
  have hdispatch := dispatch_of_cons st hcons hc.1
  obtain ⟨hlearns, ds, hds, hdiagnostics⟩ := c.take_spec s.assembly st
  generalize c.take s.assembly st = taken at hdispatch hlearns hdiagnostics
  obtain ⟨c', a⟩ := taken
  dsimp only at hdispatch hlearns hdiagnostics
  have hplain : Plain c'.diagnostics :=
    hdiagnostics ▸ plain_append.2 ⟨hc.2, hds.plain (by decide)⟩
  have hmoves : s.dispatchMoves st = [] := by
    unfold dispatchMoves
    rw [hcons]
  have hrest : Proceeds h s [] { s with assembly := a, collectors := rest } :=
    hs.keep hlearns.layout hlearns.names rfl
      (fun c₁ hc₁ => hs.collectors c₁ (by rw [hcons]; exact List.mem_cons_of_mem c hc₁))
      plain_nil (List.append_nil _).symm
  let after : Session := { s with assembly := a, collectors := c' :: rest }
  rw [hdispatch, hmoves]
  -- the statement may be the MEND of the definition
  by_cases hfinished : c'.finished = true
  · obtain ⟨hended, -⟩ := endInnermost_spec (s := after) (h := h) rfl hplain hrest.follows
    exact ⟨after.endInnermost, by rw [if_pos hfinished], hrest.trans hended⟩
  · refine ⟨after, by rw [if_neg hfinished], hs.keep hlearns.layout hlearns.names rfl
      (fun c₁ hc₁ => ?_) plain_nil (List.append_nil _).symm⟩
    rcases List.mem_cons.1 hc₁ with rfl | hc₁
    · exact ⟨by simpa using hfinished, hplain⟩
    · exact hrest.follows.collectors c₁ hc₁

/-- Every statement is handed on. -/
theorem Follows.dispatch (hs : s.Follows h) (st : Statement OperandField) :
    ∃ s', s.dispatch st = .ok s' ∧ Proceeds h s (s.dispatchMoves st) s' := by
  cases hcons : s.collectors with
  | nil => exact hs.dispatch_openCode st hcons
  | cons c rest => exact hs.dispatch_definition st hcons

/-- Turning to a statement only moves the place in the source. -/
theorem turnTo_eq (s : Session) (st : Statement OperandField) :
    ∃ a, s.turnTo st = { s with assembly := a } ∧ s.assembly.Learns a ∧
      a.names = s.assembly.names := by
  have hmove (a : Assembly) (p : Position) :
      a.Learns (a.moveTo p) ∧ (a.moveTo p).names = a.names := by
    unfold Assembly.moveTo
    split <;> exact ⟨⟨rfl, rfl, .refl _⟩, rfl⟩
  unfold turnTo
  dsimp only
  split
  · let traced := s.assembly.report (.traced (st.range.start.line + 1) (s.subject st.operation))
    obtain ⟨hlearns, hnames⟩ := hmove traced st.range.start
    exact ⟨_, rfl, (Assembly.Learns.report _ _).trans hlearns, hnames⟩
  · exact ⟨_, rfl, hmove s.assembly st.range.start⟩

/-- Turning to a statement asks nothing of the layout. -/
theorem Follows.turnTo (hs : s.Follows h) (st : Statement OperandField) :
    Proceeds h s [] (s.turnTo st) := by
  obtain ⟨a, heq, hlearns, -⟩ := s.turnTo_eq st
  rw [heq]
  exact hs.keep hlearns.layout hlearns.names rfl hs.collectors plain_nil (List.append_nil _).symm

/-- Every statement is processed. -/
theorem Follows.process (hs : s.Follows h) (st : Statement OperandField) :
    ∃ s', s.process st = .ok s' ∧ Proceeds h s (s.moves st) s' := by
  have hturned := hs.turnTo st
  obtain ⟨d, hok, hdispatched⟩ := hturned.follows.dispatch st
  obtain ⟨s', hok', hsettled, -⟩ := hdispatched.follows.settle
  have hmoves : s.moves st = (s.turnTo st).dispatchMoves st ++ settleMoves d.assembly.names := by
    simp only [moves, hok]
  refine ⟨s', ?_, hmoves ▸ hturned.trans (hdispatched.trans hsettled)⟩
  show (s.turnTo st).dispatch st >>= (·.settle) = _
  rw [hok]
  exact hok'

/-- Settling lets no symbol wait. -/
theorem named_settleMoves (names names' : NameTable) :
    ∀ m ∈ settleMoves names, m.Named names' := by
  simp [settleMoves, Move.Named]

/-- A statement lets at most its label wait. -/
theorem named_moves (s : Session) {st : Statement OperandField} {names : NameTable}
    (hlabel : st.label.Named names) : ∀ m ∈ s.moves st, m.Named names := by
  refine List.forall_mem_append.2 ⟨?_, ?_⟩
  · unfold dispatchMoves
    split
    · exact Assembly.named_openMoves _ hlabel
    · simp
  · split
    · exact named_settleMoves _ names
    · simp

/-! ## Files -/

/-- Ending definitions settles the session once for each. -/
theorem Follows.endCollectors (hs : s.Follows h) (n : Nat) :
    ∃ s', s.endCollectors n = .ok s' ∧
      Proceeds h s (List.replicate n (settleMoves s.assembly.names)).flatten s' ∧
      s'.assembly.names = s.assembly.names := by
  induction n generalizing s h with
  | zero => exact ⟨s, rfl, .refl hs, rfl⟩
  | succ n ih =>
      obtain ⟨hended, hassembly⟩ := hs.endInnermost
      obtain ⟨d, hok, hsettled, hnames⟩ := hended.follows.settle
      rw [hassembly] at hsettled hnames
      obtain ⟨s', hok', hrest, hnames'⟩ := ih hsettled.follows
      rw [hnames] at hrest hnames'
      refine ⟨s', ?_, ?_, hnames'⟩
      · unfold Session.endCollectors
        rw [hok]
        exact hok'
      · rw [List.replicate_succ, List.flatten_cons]
        exact hended.trans (hsettled.trans hrest)

/-- The session when nothing waits any longer: it was released, or given up. -/
def givenUp (s : Session) : Session := { s with assembly := s.assembly.change (·.finish) }

/-- When the definitions have ended, what still waits is given up, and all diagnostics are
gathered. -/
def giveUp (s : Session) : Except Fault Session := do
  let s ← s.givenUp.replay
  let s := s.collect
  return s.report (.finished s.diagnostics.length)

/-- The end of the source ends the definitions first. -/
theorem finish_eq (s : Session) :
    s.finish = (s.providerFinished .openCode >>= (·.settle)) >>= giveUp :=
  (bind_assoc _ _ _).symm

/-- What is released in the end is checked before the diagnostics are gathered. -/
theorem giveUp_eq (hok : s.givenUp.replay = .ok s') :
    s.giveUp = .ok (s'.collect.report (.finished s'.collect.diagnostics.length)) := by
  unfold giveUp
  rw [hok]
  rfl

/-- The definitions that are still open end with the source. -/
theorem Follows.close (hs : s.Follows h) :
    ∃ s', (s.providerFinished .openCode >>= (·.settle)) = .ok s' ∧
      Proceeds h s s.closingMoves s' ∧ s'.assembly.names = s.assembly.names := by
  obtain ⟨d, hok, hended, hnames⟩ := hs.endCollectors s.collectors.length
  obtain ⟨s', hok', hsettled, hnames'⟩ := hended.follows.settle
  refine ⟨s', ?_, ?_, hnames'.trans hnames⟩
  · rw [show s.providerFinished .openCode = s.endCollectors s.collectors.length from rfl, hok]
    exact hok'
  · unfold closingMoves
    rw [List.replicate_succ', List.flatten_append, List.flatten_singleton]
    exact hended.trans (hnames ▸ hsettled)

/-- Giving up what waits reports no diagnostic, and learns no name. -/
theorem Follows.givenUp (hs : s.Follows h) :
    s.givenUp.Follows (h.makeAll [.finish, .takeEvents]) ∧
      (s.Blames h → s.givenUp.Blames (h.makeAll [.finish, .takeEvents])) := by
  have hf : s.givenUp.assembly.Follows ((h.make .finish).make .takeEvents) := by
    have hfinish : { s.assembly with layout := s.assembly.layout.make .finish }.Follows
        (h.make .finish) := hs.assembly.make trivial trivial rfl rfl
    exact hfinish.make (m := .takeEvents) trivial trivial rfl rfl
  -- the end itself fetches no errors; gathering the diagnostics behind it does
  have hfetched : (h.makeAll [.finish, .takeEvents]).fetched = h.fetched := by
    simp [History.make, History.fetches]
  refine ⟨⟨hf, hs.collectors, hs.quiet, hfetched ▸ hs.fetched⟩,
    fun hb => ⟨?_, hfetched ▸ hb.circular⟩⟩
  exact named_makeAll hb.named (by simp [Move.Named])

/-- What still waits is given up, and circles are blamed for it. -/
theorem Follows.giveUp (hs : s.Follows h) :
    let ms := .finish :: .takeEvents :: settleMoves s.assembly.names
    ∃ s', s.giveUp = .ok s' ∧ s'.Follows (h.makeAll ms) ∧ (s.Blames h → s'.Blames (h.makeAll ms)) ∧
      s'.assembly.layout.errors = [] ∧ s'.assembly.names = s.assembly.names := by
  intro ms
  obtain ⟨hgiven, hblames⟩ := hs.givenUp
  obtain ⟨o, a, hok, hreplay, hnames, -⟩ := hgiven.replay
  let last : Session := Session.collect { s.givenUp with openCode := o, assembly := a }
  have hcollect := hreplay.trans hreplay.follows.collect
  have hmoves : h.makeAll ms = (h.makeAll [.finish, .takeEvents]).makeAll
      ([.takeReady, .takeEvents] ++ [.takeDiagnostics a.names]) := by
    rw [hnames]
    rfl
  have hreport : Proceeds (h.makeAll ms) last []
      (last.report (.finished last.diagnostics.length)) := by
    have hlast := hmoves ▸ hcollect.follows
    exact hlast.keep rfl (.refl _) rfl hlast.collectors plain_nil (List.append_nil _).symm
  refine ⟨_, giveUp_eq hok, hreport.follows, fun hb => hreport.blames ?_ (by simp), rfl, hnames⟩
  exact hmoves ▸ hcollect.blames (hblames hb) (by simp [Move.Named])

/-- The end of the source ends the session. -/
theorem Follows.finish (hs : s.Follows h) :
    ∃ s', s.finish = .ok s' ∧ s'.Follows (h.makeAll s.finishMoves) ∧
      (s.Blames h → s'.Blames (h.makeAll s.finishMoves)) ∧
      s'.assembly.layout.errors = [] ∧ s'.assembly.names = s.assembly.names := by
  obtain ⟨c, hok, hclosed, hnames⟩ := hs.close
  obtain ⟨s', hok', hended, hblames, herrors, hnames'⟩ := hclosed.follows.giveUp
  rw [hnames] at hended hblames hnames'
  rw [finishMoves, History.makeAll_append]
  refine ⟨s', ?_, hended, fun hb => hblames (hclosed.blames hb fun m hm => ?_), herrors, hnames'⟩
  · rw [finish_eq, hok]
    exact hok'
  · obtain ⟨ms, hms, hm⟩ := List.mem_flatten.1 hm
    exact named_settleMoves _ _ m ((List.mem_replicate.1 hms).2 ▸ hm)

end Session

/-- The label of a statement that is read is in use. -/
theorem SourceStatement.toStatement_named (s : SourceStatement) (line : Nat) (t : NameTable) :
    (s.toStatement line t).1.label.Named (s.toStatement line t).2 := by
  have hlabel (t : NameTable) (text : String) (range : Range) :
      (Field.readLabel t text range).1.Named (Field.readLabel t text range).2 := by
    unfold Field.readLabel
    split
    · trivial
    · trivial
    · split
      · split <;> trivial
      · exact NameTable.lt_size_of_find? (t.find?_insert _)
  exact (hlabel _ _ _).grows (Field.readOperation_grows _ _ _)

namespace Session

variable {s : Session} {h : History Postponed}

/-- Reading the next statement only learns names. -/
theorem Follows.readNext (hs : s.Follows h) (p : SourceStatement × Nat) :
    Proceeds h s [] (s.readNext p).2 :=
  hs.keep rfl (p.1.toStatement_grows p.2 s.assembly.names) rfl hs.collectors plain_nil
    (List.append_nil _).symm

/-- A statement of a source is processed, and circles are blamed as before. -/
theorem Follows.step (hs : s.Follows h) (p : SourceStatement × Nat) :
    ∃ s', s.step p = .ok s' ∧ Proceeds h s (s.stepMoves p) s' ∧
      (s.Blames h → s'.Blames (h.makeAll (s.stepMoves p))) := by
  have hread := hs.readNext p
  obtain ⟨s', hok, hprocessed⟩ := hread.follows.process (s.readNext p).1
  refine ⟨s', hok, hread.trans hprocessed, fun hb => ?_⟩
  exact hprocessed.blames (hread.blames hb (by simp))
    (named_moves _ (p.1.toStatement_named p.2 s.assembly.names))

/-- Processing a file, statement by statement. -/
theorem processAll_eq (file : String) (tracing : Tracing) (statements : List SourceStatement) :
    Console.processAll file tracing statements =
      statements.zipIdx.foldlM step (start file tracing) >>= finish := rfl

/-- A session that follows a history processes the rest of a source. -/
theorem Follows.file (hs : s.Follows h) (ps : List (SourceStatement × Nat)) :
    ∃ s', (ps.foldlM Session.step s >>= Session.finish) = .ok s' ∧
      s'.Follows (h.makeAll (s.fileMoves ps)) ∧
      (s.Blames h → s'.Blames (h.makeAll (s.fileMoves ps))) ∧ s'.assembly.layout.errors = [] := by
  induction ps generalizing s h with
  | nil =>
      obtain ⟨s', hok, hfinished, hblames, herrors, -⟩ := hs.finish
      exact ⟨s', hok, hfinished, hblames, herrors⟩
  | cons p ps ih =>
      obtain ⟨d, hok, hstep, hblames⟩ := hs.step p
      obtain ⟨s', hok', hrest, hblames', herrors⟩ := ih hstep.follows
      have hmoves : s.fileMoves (p :: ps) = s.stepMoves p ++ d.fileMoves ps := by
        simp only [fileMoves, hok]
      rw [hmoves, History.makeAll_append]
      refine ⟨s', ?_, hrest, hblames' ∘ hblames, herrors⟩
      rw [List.foldlM_cons, hok]
      exact hok'

/-- The end of the source comes once, and only fetching comes behind it. -/
theorem Follows.fileMoves_eq (hs : s.Follows h) (ps : List (SourceStatement × Nat)) :
    ∃ body fetching, s.fileMoves ps = body ++ .finish :: fetching ∧ h.layout.Legal body ∧
      Move.finish ∉ body ∧ ∀ m ∈ fetching, m.Fetches := by
  induction ps generalizing s h with
  | nil =>
      obtain ⟨_, -, hclosed, -⟩ := hs.close
      refine ⟨_, _, rfl, hclosed.legal, hclosed.running, ?_⟩
      simp [settleMoves, Move.Fetches]
  | cons p ps ih =>
      obtain ⟨d, hok, hstep, -⟩ := hs.step p
      obtain ⟨body, fetching, heq, hlegal, hopen, hfetching⟩ := ih hstep.follows
      refine ⟨s.stepMoves p ++ body, fetching, by simp [fileMoves, hok, heq], ?_, ?_, hfetching⟩
      · exact Layout.legal_append.2 ⟨hstep.legal, History.layout_makeAll h _ ▸ hlegal⟩
      · exact fun hm => (List.mem_append.1 hm).elim hstep.running hopen

/-- The start of a session follows an empty history. -/
theorem follows_start (file : String) (tracing : Tracing) :
    (start file tracing).Follows {} := by
  refine ⟨⟨rfl, ⟨[], trivial, rfl⟩, ?_⟩, ?_, ⟨plain_nil, plain_nil, plain_nil⟩, ?_⟩
  · exact ⟨by simp [start, Assembly.start], by simp [start, Assembly.start]⟩
  · simp [start]
  · simp [start]

/-- At the start there is no circle to blame. -/
theorem blames_start (file : String) (tracing : Tracing) : (start file tracing).Blames {} :=
  ⟨by simp, rfl⟩

/-- The moves of a file: legal ones, the end of the source, and fetching. -/
theorem history_eq (file : String) (tracing : Tracing) (statements : List SourceStatement) :
    ∃ ms ns, history file tracing statements = .makeAll {} (ms ++ .finish :: ns) ∧
      Layout.Legal ({} : Layout Postponed) ms ∧ Move.finish ∉ ms ∧ ∀ m ∈ ns, m.Fetches := by
  obtain ⟨ms, ns, heq, hlegal, hopen, hns⟩ :=
    (follows_start file tracing).fileMoves_eq statements.zipIdx
  exact ⟨ms, ns, by rw [history, heq], hlegal, hopen, hns⟩

/-- Every file is processed. The session follows the history of its layout, has fetched all errors
and tells of the circles among them. -/
theorem processAll_follows (file : String) (tracing : Tracing) (statements : List SourceStatement) :
    ∃ s, Console.processAll file tracing statements = .ok s ∧
      s.Follows (history file tracing statements) ∧ s.Blames (history file tracing statements) ∧
      s.assembly.layout.errors = [] := by
  obtain ⟨s, hok, hs, hblames, herrors⟩ :=
    (follows_start file tracing).file statements.zipIdx
  exact ⟨s, hok, hs, hblames (blames_start file tracing), herrors⟩

end Session

end MacroAssembler
