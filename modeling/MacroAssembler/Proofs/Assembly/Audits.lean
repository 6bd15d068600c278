import MacroAssembler.Proofs.Assembly.Stock

/-!
# An account of all checks

An audit accompanies a session, and keeps account of the machine statements that open code handles,
of the checks that are made, at once or when the layout releases them, and of the statements that
the end of the source gives up. Each step adds to the diagnostics what its checks have found, with
remarks of other kinds before and behind that. The accounts balance, and every check has found what
it would find at the end (`Audit.file_balanced`).
-/

namespace MacroAssembler

open Layout (Move History works)

/-- What a step adds to the diagnostics of a session: what its checks have found, with the remarks
before and behind that. -/
structure Audit.Entry where
  before : List Diagnostic := []
  checks : List Check := []
  behind : List Diagnostic := []

/-- The diagnostics of an entry. -/
def Audit.Entry.diagnostics (e : Audit.Entry) : List Diagnostic :=
  e.before ++ e.checks.flatMap (·.diagnostics) ++ e.behind

namespace Session

/-- The machine statement that open code handles, with its operands read, when it is handed a
statement. -/
def handled (s : Session) (st : Statement OperandField) : List (Statement (List Operand)) :=
  match s.collectors with
  | [] =>
      let reading := s.assembly.openReading st.operation
      let a := s.assembly.report (.statementRead .openCode st.range reading.form)
      a.openHandled { st with opcode := reading.opcode }
  | _ :: _ => []

/-- The check that is made at once when open code is handed a statement. -/
def checksNow (s : Session) (st : Statement OperandField) : List Check :=
  match s.collectors with
  | [] =>
      let reading := s.assembly.openReading st.operation
      let a := s.assembly.report (.statementRead .openCode st.range reading.form)
      a.openChecks { st with opcode := reading.opcode }
  | _ :: _ => []

/-- What a statement is blamed for apart from its check. -/
def remarks (s : Session) (st : Statement OperandField) : OpenCode :=
  match s.collectors with
  | [] =>
      let reading := s.assembly.openReading st.operation
      let a := s.assembly.report (.statementRead .openCode st.range reading.form)
      a.remarks { st with opcode := reading.opcode }
  | c :: _ => { own := (c.take s.assembly st).1.diagnostics }

/-- What a session has to say of a statement before it settles. -/
def entry (s : Session) (st : Statement OperandField) : Audit.Entry where
  before := (s.remarks st).own ++ (s.remarks st).machine
  checks := s.checksNow st
  behind := (s.remarks st).directives

/-- What the innermost definition is blamed for by the time that it ends. -/
def endRemarks (s : Session) : List Diagnostic :=
  match s.collectors with
  | [] => []
  | c :: _ => (c.finish s.assembly).1.diagnostics

/-- What the layout is blamed for. -/
def layoutRemarks (s : Session) : List Diagnostic :=
  s.assembly.layout.errors.map fun p => p.2.diagnostic s.assembly.names p.1

end Session

/-- A session with an account of its checks. -/
structure Audit where
  session : Session
  /-- The machine statements that open code has handled, with their operands read. -/
  handled : List (Statement (List Operand)) := []
  entries : List Audit.Entry := []
  /-- The statements whose checks were given up at the end of the source. -/
  abandoned : List (Statement (List Operand)) := []

namespace Audit

/-- The checks that were made. -/
def checks (x : Audit) : List Check := x.entries.flatMap (·.checks)

/-- Settle the session, and enter what has been said before, together with the checks that are
released and the remarks on the layout. -/
def settle (x : Audit) (e : Entry) : Except Fault Audit := do
  let s ← x.session.settle
  let e : Entry :=
    { e with
      checks := e.checks ++ x.session.startPending.registerCompleted.released
      behind := e.behind ++ x.session.layoutRemarks }
  return { x with session := s, entries := x.entries ++ [e] }

/-- Process a statement, and note what becomes of it. -/
def process (x : Audit) (st : Statement OperandField) : Except Fault Audit := do
  let t := x.session.turnTo st
  let d ← t.dispatch st
  settle { x with session := d, handled := x.handled ++ t.handled st } (t.entry st)

/-- Process a statement of a source. -/
def step (x : Audit) (p : SourceStatement × Nat) : Except Fault Audit :=
  { x with session := (x.session.readNext p).2 }.process (x.session.readNext p).1

/-- End so many definitions, the innermost first. -/
def endCollectors (x : Audit) : Nat → Except Fault Audit
  | 0 => .ok x
  | n + 1 => do
      let x ← settle { x with session := x.session.endInnermost } { before := x.session.endRemarks }
      x.endCollectors n

/-- Give up what still waits: note what is released in the end, and what is given up. -/
def giveUp (x : Audit) : Except Fault Audit := do
  let s ← x.session.givenUp.replay
  let s := s.collect
  let e : Entry :=
    { checks := x.session.givenUp.released, behind := x.session.givenUp.layoutRemarks }
  return { x with
    session := s.report (.finished s.diagnostics.length)
    entries := x.entries ++ [e]
    abandoned := x.abandoned ++ (works x.session.assembly.layout.settle.entries).map (·.statement) }

/-- The end of the source. -/
def finish (x : Audit) : Except Fault Audit := do
  let x ← x.endCollectors x.session.collectors.length
  let x ← x.settle {}
  x.giveUp

/-- The audit of a session on a file. -/
def file (file : String) (tracing : Tracing) (statements : List SourceStatement) :
    Except Fault Audit := do
  (← statements.zipIdx.foldlM step { session := .start file tracing }).finish

/-! ## Entries -/

/-- The remarks of an entry tell of no misfits. -/
structure Entry.Clean (e : Entry) : Prop where
  before : Tells [] e.before
  behind : Tells [] e.behind

/-- Clean entries tell of the misfits that their checks have found, and of no others. -/
theorem tells_of_clean {es : List Entry} (h : ∀ e ∈ es, e.Clean) :
    Tells ((es.flatMap (·.checks)).flatMap (·.diagnostics)) (es.flatMap Entry.diagnostics) := by
  induction es with
  | nil => exact .refl []
  | cons e es ih =>
      obtain ⟨hfirst, hrest⟩ := List.forall_mem_cons.1 h
      rw [List.flatMap_cons, List.flatMap_cons, List.flatMap_append]
      exact ((hfirst.before.prepend (.refl _)).append_nil hfirst.behind).append (ih hrest)

/-- Remarks on the layout are no misfits. -/
theorem tells_layoutRemarks (s : Session) : Tells [] s.layoutRemarks :=
  .of_among (Session.among_errors _ _) (by decide)

/-! ## Balance -/

/-- The accounts of a session balance: the machine statements that were handled are those that were
checked, those that were given up and those whose checks wait. The stock of these is in order, and
all checks stand. -/
structure Balanced (s : Session) (handled : List (Statement (List Operand))) (checks : List Check)
    (abandoned : List (Statement (List Operand))) : Prop where
  stocked : s.assembly.Stocked
  balance : (handled : Multiset (Statement (List Operand))) = checks.map (·.statement) + abandoned +
    s.assembly.layout.stored.map (·.statement)
  stands : ∀ c ∈ checks, c.Stands s.assembly

/-- An audit of a session at rest: the accounts balance, and the diagnostics of the session are
those of the entries, none of which tells of a misfit that its checks have not found. -/
structure Sound (x : Audit) (h : History Postponed) : Prop where
  follows : x.session.Follows h
  sound : x.session.Sound
  quiescent : x.session.Quiescent
  balanced : Balanced x.session x.handled x.checks x.abandoned
  clean : ∀ e ∈ x.entries, e.Clean
  diagnostics : x.session.diagnostics = x.entries.flatMap Entry.diagnostics

/-- An audit in the course of a step. When the session settles, the diagnostics that it holds are
those of the entries made before, and those of the entry `e` with what the released checks find. -/
structure Pending (x : Audit) (e : Entry) : Prop where
  balanced : Balanced x.session x.handled (x.checks ++ e.checks) x.abandoned
  clean : (∀ e' ∈ x.entries, e'.Clean) ∧ e.Clean
  held : ∀ findings, { x.session with
      openCode := { x.session.openCode with
        machine := x.session.openCode.machine ++ findings } }.held =
    x.entries.flatMap Entry.diagnostics ++
      (e.before ++ (e.checks.flatMap (·.diagnostics) ++ findings) ++
        (e.behind ++ x.session.layoutRemarks))

/-- The audit behind a step, when the session has settled. -/
def settled (x : Audit) (e : Entry) (s : Session) : Audit :=
  { x with
    session := s
    entries := x.entries ++ [{ e with
      checks := e.checks ++ x.session.released
      behind := e.behind ++ x.session.layoutRemarks }] }

variable {x : Audit} {e : Entry} {h h' : History Postponed} {s s' : Session}
  {handled abandoned : List (Statement (List Operand))} {checks : List Check}

/-- The accounts do not look at what changes besides the layout, or at new names. -/
theorem Balanced.keep (hs : Balanced s handled checks abandoned)
    (hlayout : s'.assembly.layout = s.assembly.layout)
    (hnames : s.assembly.names.Grows s'.assembly.names) :
    Balanced s' handled checks abandoned where
  stocked := ⟨hlayout ▸ hs.stocked.machine, hlayout ▸ hs.stocked.supplied⟩
  balance := hlayout ▸ hs.balance
  stands c hc := (hs.stands c hc).grow hnames (hlayout ▸ .refl _)

/-- Settling a session balances the accounts if the released checks are noted. -/
theorem Balanced.settle (hs : Balanced s handled checks abandoned) (hchecks : s.assembly.Checkable)
    (hdrains : s.Drains s') : Balanced s' handled (checks ++ s.released) abandoned := by
  obtain ⟨hstatements, hstands⟩ := hs.stocked.stands hchecks.released
  have hgrow {c : Check} (hc : c.Stands s.assembly) : c.Stands s'.assembly := by
    refine hc.grow (hdrains.names ▸ .refl _) ?_
    rw [hdrains.layout]
    exact .refl _
  refine ⟨⟨?_, ?_⟩, ?_, ?_⟩
  · rw [hdrains.layout]
    exact ⟨hs.stocked.machine.waiting, by simp⟩
  · rw [hdrains.layout]
    exact ⟨hs.stocked.supplied.waiting, by simp⟩
  · have hreleased : (s.released.map (·.statement) : Multiset (Statement (List Operand))) =
        s.assembly.layout.ready.map (·.statement) := congrArg Multiset.ofList hstatements
    rw [hs.balance, hdrains.layout]
    simp only [Layout.stored, List.map_append, Multiset.map_add, Multiset.map_coe,
      ← Multiset.coe_add, Multiset.coe_nil, add_zero, hreleased]
    ac_rfl
  · intro c hc
    rcases List.mem_append.1 hc with hc | hc
    · exact hgrow (hs.stands c hc)
    · exact hgrow (hstands c hc)

/-- The checks that settling makes are those that the session has released. -/
theorem settle_eq (hok : x.session.settle = .ok s) (e : Entry) :
    x.settle e = .ok (x.settled e s) := by
  obtain ⟨hlayout, hnames, -⟩ := x.session.startPending_spec
  obtain ⟨hlayout', hnames'⟩ := Session.registerCompleted_spec x.session.startPending.completed
    x.session.startPending.assembly
  have hreleased : x.session.startPending.registerCompleted.released = x.session.released :=
    Session.released_congr (hlayout'.trans hlayout) (hnames'.trans hnames)
  unfold settle
  rw [hok, hreleased]
  rfl

/-- Behind a step the accounts balance again. -/
theorem Pending.settled (hx : x.Pending e) (hchecks : x.session.assembly.Checkable)
    (hdrains : x.session.Drains s) (hfollows : s.Follows h) (hsound : s.Sound)
    (hquiescent : s.Quiescent) : (x.settled e s).Sound h := by
  refine ⟨hfollows, hsound, hquiescent, ?_, ?_, ?_⟩
  · have hnoted : (x.settled e s).checks = (x.checks ++ e.checks) ++ x.session.released := by
      simp [Audit.checks, Audit.settled]
    rw [hnoted]
    exact hx.balanced.settle hchecks hdrains
  · obtain ⟨hentries, hclean⟩ := hx.clean
    refine List.forall_mem_append.2 ⟨hentries, List.forall_mem_singleton.2 ⟨hclean.before, ?_⟩⟩
    exact hclean.behind.append (tells_layoutRemarks _)
  · show s.diagnostics = _
    rw [hdrains.diagnostics, hx.held]
    simp [Audit.settled, Entry.diagnostics, Session.findings]

/-! ## Statements -/

/-- Noting what a statement asks for changes no other part of a session. -/
theorem noticeAll_eq (s : Session) (ns : List Notice) : ∃ pendingStart completed calls,
    s.noticeAll ns = { s with pendingStart, completed, calls } := by
  induction ns generalizing s with
  | nil => exact ⟨s.pendingStart, s.completed, s.calls, rfl⟩
  | cons n ns ih =>
      obtain ⟨p, c, k, heq⟩ := ih (s.notice n)
      refine ⟨p, c, k, heq.trans ?_⟩
      cases n <;> rfl

/-- Open code is handed a statement. -/
theorem Sound.dispatch_openCode (hx : x.Sound h) (st : Statement OperandField)
    (hnil : x.session.collectors = []) :
    ∃ d, x.session.dispatch st = .ok d ∧
      Pending { x with session := d, handled := x.handled ++ x.session.handled st }
        (x.session.entry st) := by
  obtain ⟨hmachine, hdefined⟩ := x.session.assembly.openReading_spec st.operation
  unfold Session.dispatch Session.entry Session.handled Session.checksNow Session.remarks
  rw [hnil]
  dsimp only
  generalize x.session.assembly.openReading st.operation = reading at hmachine hdefined
  let a := x.session.assembly.report (.statementRead .openCode st.range reading.form)
  let s : Statement OperandField := { st with opcode := reading.opcode }
  have hf : a.Follows h := hx.follows.assembly.grow rfl (.refl _)
  have hstocked : a.Stocked := ⟨hx.balanced.stocked.machine, hx.balanced.stocked.supplied⟩
  obtain ⟨o, a', notices, hok, hadds, hremarks, hp⟩ := x.session.openCode.process_spec hf (s := s)
    hmachine hdefined
  obtain ⟨hstocked', hstands, new, hstored, hhandled⟩ :=
    hstocked.openCode hf (s := s) hmachine hok hp
  rw [show x.session.openCode.process _ _ = _ from hok]
  obtain ⟨pendingStart, completed, calls, hnoticed⟩ :=
    noticeAll_eq { x.session with openCode := o, assembly := a', collectors := [] } notices
  refine ⟨_, congrArg Except.ok hnoticed, ⟨hstocked', ?_, ?_⟩, ⟨hx.clean, ?_, ?_⟩,
    fun findings => ?_⟩
  · have hsplit : (a.openHandled s : Multiset (Statement (List Operand))) =
        (a.openChecks s).map (·.statement) + new.map (·.statement) :=
      congrArg Multiset.ofList hhandled.symm
    have hbalance : (x.handled : Multiset (Statement (List Operand))) =
        x.checks.map (·.statement) + x.abandoned + a.layout.stored.map (·.statement) :=
      hx.balanced.balance
    show ((x.handled ++ a.openHandled s : List _) : Multiset (Statement (List Operand))) =
      (x.checks ++ a.openChecks s).map (·.statement) + x.abandoned +
        a'.layout.stored.map (·.statement)
    rw [← Multiset.coe_add, hbalance, hsplit, hstored, Multiset.map_add, List.map_append,
      ← Multiset.coe_add, Multiset.map_coe]
    ac_rfl
  · intro c hc
    rcases List.mem_append.1 hc with hc | hc
    · exact (hx.balanced.stands c hc).grow hp.names hp.table
    · exact hstands c hc
  · exact (Tells.of_among hremarks.own (by decide)).append (.of_among hremarks.machine (by decide))
  · exact .of_among hremarks.directives (by decide)
  · simp [Session.held, Session.buffered, Session.layoutRemarks, hadds.own, hadds.machine,
      hadds.directives, hx.quiescent.openCode, hx.diagnostics]
    rfl

/-- A definition is handed a statement, and makes no check. -/
theorem Sound.dispatch_definition (hx : x.Sound h) (st : Statement OperandField) {c : Collector}
    {rest : List Collector} (hcons : x.session.collectors = c :: rest) :
    ∃ d, x.session.dispatch st = .ok d ∧
      Pending { x with session := d, handled := x.handled ++ x.session.handled st }
        (x.session.entry st) := by
  obtain rfl := hx.quiescent.rest_eq_nil hcons
  have hopen : c.Open := hx.sound.collectors c (by simp [hcons])
  have hcomplaints : c.diagnostics = [] := hx.quiescent.complaints c (by simp [hcons])
  have hdispatch := Session.dispatch_of_open hcons hopen st
  unfold Session.entry Session.handled Session.checksNow Session.remarks
  rw [hcons]
  dsimp only
  obtain ⟨hlearns, ds, hamong, hdiagnostics⟩ := c.take_spec x.session.assembly st
  generalize c.take x.session.assembly st = taken at hdispatch hlearns hdiagnostics
  obtain ⟨c', a⟩ := taken
  dsimp only at hdispatch hlearns hdiagnostics ⊢
  rw [hcomplaints, List.nil_append] at hdiagnostics
  rw [List.append_nil, List.append_nil, hdiagnostics]
  refine ⟨_, hdispatch, ?_, ⟨hx.clean, .of_among hamong (by decide), .refl []⟩, fun findings => ?_⟩
  · rw [List.append_nil]
    refine hx.balanced.keep ?_ ?_
    · dsimp only
      split <;> exact hlearns.layout
    · dsimp only
      split <;> exact hlearns.names
  · dsimp only
    split <;> simp [Session.held, Session.buffered, Session.layoutRemarks, hdiagnostics,
      hx.quiescent.openCode, hx.diagnostics]

/-- Turning to a statement keeps the accounts. -/
theorem Sound.turnTo (hx : x.Sound h) (st : Statement OperandField) :
    { x with session := x.session.turnTo st }.Sound h := by
  have hf := (hx.follows.turnTo st).follows
  obtain ⟨a, hturned, hlearns, -⟩ := x.session.turnTo_eq st
  have hlayout : a.layout = x.session.assembly.layout := hlearns.layout
  have hq := hx.quiescent
  rw [hturned] at hf ⊢
  exact ⟨hf, ⟨hx.sound.checkable.grow hlayout hlearns.names, hx.sound.collectors⟩,
    ⟨hq.collectors, hlayout ▸ hq.ready, hlayout ▸ hq.errors, hlayout ▸ hq.events, hq.openCode,
      hq.complaints, hq.pendingStart, hq.completed⟩,
    hx.balanced.keep hlayout hlearns.names, hx.clean, hx.diagnostics⟩

/-- A statement is processed, and the accounts balance again. -/
theorem Sound.process (hx : x.Sound h) (st : Statement OperandField) :
    ∃ y h', x.process st = .ok y ∧ x.session.process st = .ok y.session ∧ y.Sound h' ∧
      y.abandoned = x.abandoned := by
  have ht := hx.turnTo st
  obtain ⟨d, hdispatch, hpending⟩ : ∃ d, (x.session.turnTo st).dispatch st = .ok d ∧
      Pending { x with session := d, handled := x.handled ++ (x.session.turnTo st).handled st }
        ((x.session.turnTo st).entry st) := by
    cases hcons : (x.session.turnTo st).collectors with
    | nil => exact ht.dispatch_openCode st hcons
    | cons c rest => exact ht.dispatch_definition st hcons
  obtain ⟨d', s', hdispatch', hd, hdrains, hreturns⟩ := hx.quiescent.process hx.sound st
  obtain rfl : d' = d := Except.ok.inj (hdispatch'.symm.trans hdispatch)
  obtain ⟨s'', hprocess, hp⟩ := hx.follows.process st
  obtain rfl : s'' = s' := Except.ok.inj (hprocess.symm.trans hreturns.call)
  have hsettle : d'.settle = .ok s'' := by
    have hcall : ((x.session.turnTo st).dispatch st >>= (·.settle)) = .ok s'' := hprocess
    rwa [hdispatch] at hcall
  refine ⟨_, _, ?_, hprocess, hpending.settled hd.sound.checkable hdrains hp.follows hreturns.sound
    hreturns.quiescent, rfl⟩
  unfold Audit.process
  dsimp only
  rw [hdispatch]
  exact settle_eq hsettle _

/-- A statement of a source is processed, and the accounts balance again. -/
theorem Sound.step (hx : x.Sound h) (p : SourceStatement × Nat) :
    ∃ y h', x.step p = .ok y ∧ x.session.step p = .ok y.session ∧ y.Sound h' ∧
      y.abandoned = x.abandoned := by
  have hread := hx.follows.readNext p
  have hread' : { x with session := (x.session.readNext p).2 }.Sound h := by
    have hq := hx.quiescent
    exact ⟨hread.follows, ⟨hx.sound.checkable.grow rfl hread.names, hx.sound.collectors⟩,
      ⟨hq.collectors, hq.ready, hq.errors, hq.events, hq.openCode, hq.complaints, hq.pendingStart,
        hq.completed⟩,
      hx.balanced.keep rfl hread.names, hx.clean, hx.diagnostics⟩
  exact hread'.process _

/-! ## The end of the source -/

/-- Settling a session at rest enters nothing new. -/
theorem Sound.settle (hx : x.Sound h) (hnil : x.session.collectors = []) :
    ∃ y h', x.settle {} = .ok y ∧ x.session.settle = .ok y.session ∧ y.Sound h' ∧
      y.session.collectors = [] ∧ y.abandoned = x.abandoned := by
  have hq := hx.quiescent
  have hpending : x.Pending {} := by
    refine ⟨?_, ⟨hx.clean, .refl [], .refl []⟩, fun findings => ?_⟩
    · rw [List.append_nil]
      exact hx.balanced
    · simp [Session.held, Session.buffered, Session.layoutRemarks, hnil, hq.openCode, hq.errors,
        hx.diagnostics]
  have hnone : x.session.startPending.collectors = [] := by
    simp [Session.startPending, hq.pendingStart, hnil]
  obtain ⟨s, hok, hdrains⟩ := Session.drains hx.sound.checkable
  obtain ⟨s', hok', hp, -⟩ := hx.follows.settle
  obtain rfl : s' = s := Except.ok.inj (hok'.symm.trans hok)
  refine ⟨x.settled {} s', _, settle_eq hok {}, hok, hpending.settled hx.sound.checkable hdrains
    hp.follows (hdrains.sound hx.sound) (hdrains.quiescent (by simp [hnone])), ?_, rfl⟩
  show s'.collectors = []
  rw [hdrains.collectors, hnone]
  rfl

/-- Ending a definition enters what it is blamed for. -/
theorem Sound.endInnermost (hx : x.Sound h) {c : Collector} (hcons : x.session.collectors = [c]) :
    Pending { x with session := x.session.endInnermost } { before := x.session.endRemarks } := by
  have hq := hx.quiescent
  obtain ⟨ds, hamong, -, hdiagnostics⟩ := c.finish_spec x.session.assembly
  have hended : x.session.endRemarks = ds := by
    rw [Session.endRemarks, hcons]
    exact hdiagnostics.trans (by simp [hq.complaints c (by simp [hcons])])
  obtain ⟨pendingStart, completed, calls, heq⟩ : ∃ pendingStart completed calls,
      x.session.endInnermost = { x.session with
        collectors := [], diagnostics := x.session.diagnostics ++ x.session.endRemarks
        pendingStart, completed, calls } := by
    unfold Session.endInnermost Session.endRemarks
    rw [hcons]
    exact noticeAll_eq _ _
  refine ⟨?_, ⟨hx.clean, ?_, .refl []⟩, fun findings => ?_⟩
  · rw [List.append_nil]
    exact hx.balanced.keep (by rw [heq]) (by rw [heq]; exact .refl _)
  · rw [hended]
    exact .of_among hamong (by decide)
  · rw [heq]
    simp [Session.held, Session.buffered, Session.layoutRemarks, hq.openCode, hq.errors,
      hx.diagnostics]

/-- Ending the definitions keeps the accounts. -/
theorem Sound.endCollectors (hx : x.Sound h) :
    ∃ y h', x.endCollectors x.session.collectors.length = .ok y ∧
      x.session.endCollectors x.session.collectors.length = .ok y.session ∧ y.Sound h' ∧
      y.session.collectors = [] ∧ y.abandoned = x.abandoned := by
  obtain ⟨s, hok, hended, -⟩ := hx.quiescent.endCollectors hx.sound
  obtain ⟨s', hok', hp, -⟩ := hx.follows.endCollectors x.session.collectors.length
  obtain rfl : s' = s := Except.ok.inj (hok'.symm.trans hok)
  cases hcons : x.session.collectors with
  | nil =>
      rw [hcons] at hok
      exact ⟨x, h, rfl, rfl, hx, hcons, rfl⟩
  | cons c rest =>
      obtain rfl := hx.quiescent.rest_eq_nil hcons
      have hinnermost := hx.endInnermost hcons
      have hchecks : x.session.endInnermost.assembly.Checkable := by
        rw [(hx.follows.endInnermost).2]
        exact hx.sound.checkable
      obtain ⟨u, hsettle, hdrains⟩ := Session.drains hchecks
      obtain rfl : u = s' := by
        rw [hcons] at hok
        obtain ⟨v, hsettle', hdone⟩ := bind_eq_ok_iff.1 hok
        cases hdone
        exact Except.ok.inj (hsettle.symm.trans hsettle')
      refine ⟨_, _, ?_, hcons ▸ hok, hinnermost.settled hchecks hdrains hp.follows hended.sound
        hended.quiescent, hended.collectors, rfl⟩
      show (Audit.settle { x with session := x.session.endInnermost } _ >>= fun x =>
        x.endCollectors 0) = _
      rw [settle_eq (x := { x with session := x.session.endInnermost }) hsettle]
      rfl

/-- Ending the definitions and settling keep the accounts. -/
theorem Sound.close (hx : x.Sound h) :
    ∃ y h', (x.endCollectors x.session.collectors.length >>= (·.settle {})) = .ok y ∧
      (x.session.providerFinished .openCode >>= (·.settle)) = .ok y.session ∧ y.Sound h' ∧
      y.session.collectors = [] ∧ y.abandoned = x.abandoned := by
  obtain ⟨y, h₁, hended, hended', hy, hnil, hsame⟩ := hx.endCollectors
  obtain ⟨z, h₂, hsettled, hsettled', hz, hnil', hsame'⟩ := hy.settle hnil
  refine ⟨z, h₂, ?_, ?_, hz, hnil', hsame'.trans hsame⟩
  · rw [hended]
    exact hsettled
  · rw [show x.session.providerFinished .openCode = .ok y.session from hended']
    exact hsettled'

/-- The accounts at the end: all statements that were handled were checked or given up, those given
up lack something that their checks need, all checks stand, and the diagnostics of the session are
those of the entries, none of which tells of a misfit that its checks have not found. -/
structure Closed (x : Audit) : Prop where
  balance : (x.checks.map (·.statement) ++ x.abandoned).Perm x.handled
  lacking : ∀ s ∈ x.abandoned, ∃ e ∈ s.checked, x.session.assembly.layout.table.unknowns e ≠ []
  stands : ∀ c ∈ x.checks, c.Stands x.session.assembly
  clean : ∀ e ∈ x.entries, e.Clean
  diagnostics : x.session.diagnostics = x.entries.flatMap Entry.diagnostics

theorem finish_eq (x : Audit) :
    x.finish = (x.endCollectors x.session.collectors.length >>= (·.settle {})) >>= giveUp :=
  (bind_assoc _ _ _).symm

/-- The audit gives up what the session does. -/
theorem giveUp_eq (hok : x.session.giveUp = .ok s) :
    x.giveUp = .ok { x with
      session := s
      entries := x.entries ++ [{
        checks := x.session.givenUp.released, behind := x.session.givenUp.layoutRemarks }]
      abandoned := x.abandoned ++
        (works x.session.assembly.layout.settle.entries).map (·.statement) } := by
  obtain ⟨u, hreplay, hreport⟩ := bind_eq_ok_iff.1 hok
  cases hreport
  unfold giveUp
  rw [hreplay]
  rfl

/-- Giving up what still waits keeps what is known, and the stock in order. -/
theorem Sound.givenUp (hx : x.Sound h) :
    x.session.assembly.layout.table.Extends x.session.givenUp.assembly.layout.table ∧
      x.session.givenUp.assembly.Stocked := by
  have hf := hx.follows.assembly
  have hlegal : h.layout.Legal [Move.finish, .takeEvents] := ⟨trivial, trivial, trivial⟩
  have hlayout : x.session.givenUp.assembly.layout =
      x.session.assembly.layout.makeAll [.finish, .takeEvents] := rfl
  refine ⟨?_, hx.balanced.stocked.makeAll hf hlegal (Layout.supplies_of_none (by simp [Move.work?]))
    (by simp [Move.work?]) hlayout⟩
  rw [hlayout, ← hf.layout]
  exact hf.tracked.extends_makeAll hlegal

/-- A check that still waits when all has settled lacks something. -/
theorem Sound.lacking (hx : x.Sound h) {w : Postponed}
    (hw : w ∈ works x.session.assembly.layout.settle.entries) :
    ∃ e ∈ w.statement.checked, x.session.givenUp.assembly.layout.table.unknowns e ≠ [] := by
  have hsound := hx.follows.assembly.tracked.sound
  rw [hx.follows.assembly.layout] at hsound
  exact (hx.balanced.stocked.supplied.settle hsound).exists_unknown (Layout.settle_quiescent _) hw

/-- Giving up what still waits closes the accounts. -/
theorem Sound.giveUp (hx : x.Sound h) (hnil : x.session.collectors = [])
    (hnone : x.abandoned = []) :
    ∃ y, x.giveUp = .ok y ∧ x.session.giveUp = .ok y.session ∧ y.Closed := by
  obtain ⟨s, hs⟩ := hx.quiescent.giveUp hx.sound hnil
  obtain ⟨htable, hstocked⟩ := hx.givenUp
  have hkeeps := x.session.keeps_givenUp
  obtain ⟨hstatements, hstands⟩ := hstocked.stands (hkeeps.checkable hx.sound.checkable).released
  let e : Entry :=
    { checks := x.session.givenUp.released, behind := x.session.givenUp.layoutRemarks }
  let y : Audit := { x with
    session := s
    entries := x.entries ++ [e]
    abandoned := x.abandoned ++ (works x.session.assembly.layout.settle.entries).map (·.statement) }
  have hnoted : y.checks = x.checks ++ x.session.givenUp.released := by simp [Audit.checks, y, e]
  refine ⟨y, giveUp_eq hs.giveUp, hs.giveUp, ?_, fun st hst => ?_, fun c hc => ?_, ?_, ?_⟩
  · have hbalance := hx.balanced.balance
    have hreleased : x.session.givenUp.released.map (·.statement) =
        x.session.givenUp.assembly.layout.ready.map (·.statement) := hstatements
    have hstored : x.session.assembly.layout.stored =
        (x.session.givenUp.assembly.layout.ready : Multiset Postponed) +
          works x.session.assembly.layout.settle.entries :=
      x.session.assembly.layout.stored_eq_finish
    rw [hnoted, ← Multiset.coe_eq_coe, show y.handled = x.handled from rfl, hbalance, hstored]
    simp only [y, List.map_append, hreleased, Multiset.map_add, Multiset.map_coe,
      ← Multiset.coe_add]
    ac_rfl
  · obtain ⟨w, hw, rfl⟩ : ∃ w ∈ works x.session.assembly.layout.settle.entries,
        w.statement = st := by
      simpa [y, hnone] using hst
    rw [hs.table]
    exact hx.lacking hw
  · have hgrow {c : Check} (hc : c.Stands x.session.givenUp.assembly) : c.Stands s.assembly := by
      refine hc.grow (hs.names ▸ .refl _) ?_
      rw [hs.table]
      exact .refl _
    rw [hnoted] at hc
    rcases List.mem_append.1 hc with hc | hc
    · exact hgrow ((hx.balanced.stands c hc).grow hkeeps.names htable)
    · exact hgrow (hstands c hc)
  · exact List.forall_mem_append.2
      ⟨hx.clean, List.forall_mem_singleton.2 ⟨.refl [], tells_layoutRemarks _⟩⟩
  · show s.diagnostics = (x.entries ++ [e]).flatMap Entry.diagnostics
    rw [hs.diagnostics, hx.diagnostics, List.flatMap_append, List.flatMap_singleton]
    rfl

/-- The end of the source closes the accounts. -/
theorem Sound.finish (hx : x.Sound h) (hnone : x.abandoned = []) :
    ∃ y, x.finish = .ok y ∧ x.session.finish = .ok y.session ∧ y.Closed := by
  obtain ⟨z, h', haudit, hok, hclosed, hnil, hsame⟩ := hx.close
  obtain ⟨y, hgiveUp, hgiveUp', hy⟩ := hclosed.giveUp hnil (hsame.trans hnone)
  refine ⟨y, ?_, ?_, hy⟩
  · rw [finish_eq, haudit]
    exact hgiveUp
  · rw [Session.finish_eq, hok]
    exact hgiveUp'

/-! ## Files -/

/-- The accounts of a new session are in order. -/
theorem sound_start (file : String) (tracing : Tracing) :
    Sound { session := .start file tracing } {} := by
  obtain ⟨hsound, hquiescent⟩ := Session.quiescent_start file tracing
  have hlayout : (Session.start file tracing).assembly.layout = {} := rfl
  have hstocked : (Session.start file tracing).assembly.Stocked :=
    ⟨hlayout ▸ ⟨by simp, by simp⟩, hlayout ▸ ⟨by simp, by simp⟩⟩
  exact ⟨Session.follows_start file tracing, hsound, hquiescent,
    ⟨hstocked, rfl, by simp [Audit.checks]⟩, by simp, rfl⟩

/-- The statements of a source are processed, and the accounts balance again. -/
theorem Sound.steps (hx : x.Sound h) (ps : List (SourceStatement × Nat))
    (hnone : x.abandoned = []) :
    ∃ y h', ps.foldlM Audit.step x = .ok y ∧ ps.foldlM Session.step x.session = .ok y.session ∧
      y.Sound h' ∧ y.abandoned = [] := by
  induction ps generalizing x h with
  | nil => exact ⟨x, h, rfl, rfl, hx, hnone⟩
  | cons p ps ih =>
      obtain ⟨y, h', hok, hsession, hy, hsame⟩ := hx.step p
      obtain ⟨z, h'', hok', hsession', hz⟩ := ih hy (hsame.trans hnone)
      refine ⟨z, h'', ?_, ?_, hz⟩
      · rw [List.foldlM_cons, hok]
        exact hok'
      · rw [List.foldlM_cons, hsession]
        exact hsession'

/-- The accounts of a session on a file are closed at its end. The machine statements that open code
has handled are those that were checked, at once or later, and those that the end of the source has
given up, each as often as it was handled; one is given up only if an expression of its operands
still waits. A check has found what the check of its operands against the formats of its
instruction finds with all symbols as they are at the end. The diagnostics of the session are those
of the entries: each step has added exactly what its checks have found, between the remarks on its
statement and those on the layout. So all that the checks have found stands among the diagnostics,
in the order of the checks, and no other diagnostic tells of a misfit. -/
theorem file_balanced (file : String) (tracing : Tracing) (statements : List SourceStatement) :
    ∃ x : Audit, Audit.file file tracing statements = .ok x ∧
      Console.processAll file tracing statements = .ok x.session ∧
      (x.checks.map (·.statement) ++ x.abandoned).Perm x.handled ∧
      (∀ s ∈ x.abandoned, ∃ e ∈ s.operands.flatMap Operand.machineExprs,
        x.session.assembly.layout.table.unknowns e ≠ []) ∧
      (∀ c ∈ x.checks, (∃ i, x.session.assembly.encoded c.statement = .ok (i, c.formats)) ∧
        c.diagnostics = OperandCheck.operands x.session.assembly.layout.table c.statement.operands
          c.formats c.statement.range) ∧
      x.session.diagnostics = x.entries.flatMap Entry.diagnostics ∧
      (x.checks.flatMap (·.diagnostics)).Sublist x.session.diagnostics ∧
      x.session.diagnostics.filter Diagnostic.isMisfit =
        (x.checks.flatMap (·.diagnostics)).filter Diagnostic.isMisfit := by
  obtain ⟨y, h, hok, hsession, hy, hnone⟩ := (sound_start file tracing).steps statements.zipIdx rfl
  obtain ⟨x, hfinish, hend, hx⟩ := hy.finish hnone
  have htells := tells_of_clean hx.clean
  rw [← hx.diagnostics] at htells
  refine ⟨x, ?_, ?_, hx.balance, hx.lacking, fun c hc => ?_, hx.diagnostics, htells.sublist,
    htells.misfits⟩
  · unfold Audit.file
    rw [hok]
    exact hfinish
  · rw [Session.processAll_eq, hsession]
    exact hend
  · exact ⟨(hx.stands c hc).encoded, (hx.stands c hc).diagnostics⟩

end Audit

end MacroAssembler
