import MacroAssembler.Proofs.Assembly.Checkable
import MacroAssembler.Proofs.Assembly.Sessions
import MacroAssembler.Proofs.Reachability

/-!
# Between calls a session rests

A session may be told to process a statement, that a provider of statements has run out, and that
the source ends, in any order and as often as one likes. Each call fills buffers (released checks,
errors of the layout, diagnostics of the parts, a definition to start, definitions to add to the
library) and empties all of them before it returns, and at most one definition is open behind it.
A statement that goes to a definition leaves the layout and the list of calls as they are
(`calls_quiescent`).
-/

namespace MacroAssembler

open Layout (Move)

/-! ## Open code -/

/-- A statement of conditional assembly starts a definition. -/
def Assembly.Starts (a : Assembly) (code : Opcode) : Prop :=
  code.kind = .conditional ∧ Text.upper ((code.name.map a.names.nameOf).getD "") = "MACRO"

instance (a : Assembly) (code : Opcode) : Decidable (a.Starts code) :=
  inferInstanceAs (Decidable (_ ∧ _))

namespace OpenCode

variable {a : Assembly} {s : Statement OperandField}

/-- A statement is processed if its machine instruction or its macro is known. It starts a
definition, or calls at most a macro. -/
theorem process_keeps (o : OpenCode) (hmachine : s.opcode.kind = .machine → s.Encodable a.names)
    (hdefined : s.opcode.kind = .definedMacro →
      ∃ id, s.opcode.name = some id ∧ a.library.binds id = true) :
    ∃ o' a' notices, o.process a s = .ok (o', a', notices) ∧ a.Keeps a' ∧
      (a.Starts s.opcode ∧ o' = o ∧ a' = a ∧ notices = [.definitionStarted a.location] ∨
        ¬ a.Starts s.opcode ∧ ∀ n ∈ notices, ∃ c, n = .macroCalled c) := by
  unfold process Assembly.Starts
  cases hkind : s.opcode.kind with
  | conditional =>
      dsimp only [Assembly.processConditional]
      split
      · rename_i hmacro
        exact ⟨_, _, _, rfl, .refl a, .inl ⟨⟨rfl, hmacro⟩, rfl, rfl, rfl⟩⟩
      · rename_i hmacro
        exact ⟨_, _, _, rfl, .report a _, .inr ⟨fun h => hmacro h.2, by simp⟩⟩
  | machine =>
      obtain ⟨faults, a', hok, hkeeps⟩ := Assembly.processMachine_keeps (hmachine hkind)
      simp only [hok]
      exact ⟨_, _, _, rfl, hkeeps, .inr (by simp)⟩
  | assembler => exact ⟨_, _, _, rfl, a.processDirective_keeps s, .inr (by simp)⟩
  | definedMacro =>
      obtain ⟨id, hname, hbinds⟩ := hdefined hkind
      obtain ⟨faults, a', call, hok, -, hlearns⟩ := Assembly.processCall_learns hname hbinds
      simp only [hok]
      exact ⟨_, _, _, rfl, .of_learns hlearns, .inr (by simp)⟩
  | undefined =>
      exact ⟨_, _, _, rfl, .of_learns (a.processUndefined_spec s.operation).2, .inr (by simp)⟩

end OpenCode

/-! ## Definitions -/

namespace Collector

/-- The definition is neither complete nor handed on. -/
structure Open (c : Collector) : Prop where
  depth : 0 < c.depth
  finished : c.finished = false
  delivered : c.delivered = false

variable {c : Collector}

/-- An open definition that takes a statement stays open, or is complete and can be handed on. -/
theorem Open.take (hc : c.Open) (a : Assembly) (st : Statement OperandField) :
    (c.take a st).1.delivered = false ∧
      ((c.take a st).1.finished = false → (c.take a st).1.Open) := by
  cases hexpects : c.expectsPrototype with
  | true =>
      obtain ⟨ds, a', -, -, heq⟩ := take_prototype hexpects a st
      rw [heq]
      exact ⟨hc.delivered, fun _ => ⟨hc.depth, hc.finished, hc.delivered⟩⟩
  | false =>
      obtain ⟨marks, ds, a', -, -, heq⟩ := take_body hexpects a st
      rw [heq]
      dsimp only
      split
      · exact ⟨hc.delivered, fun h => by simp at h⟩
      · rename_i hclosing
        refine ⟨hc.delivered, fun _ => ⟨?_, hc.finished, hc.delivered⟩⟩
        show 0 < depthAfter _ c.depth
        have hdepth := hc.depth
        unfold depthAfter at hclosing ⊢
        split
        · omega
        · split
          · simp_all
            omega
          · exact hdepth

/-- A definition that was not handed on is handed on when it ends. -/
theorem finish_of_not_delivered (hc : c.delivered = false) (a : Assembly) :
    (c.finish a).2 = [.definitionFinished c.definition] ∧
      ∃ ds, (c.finish a).1.diagnostics = c.diagnostics ++ ds ∧
        Among [.unterminatedMacro] ds ∧ ds.length = if c.finished then 0 else 1 := by
  unfold finish
  rw [hc, if_neg Bool.false_ne_true]
  refine ⟨rfl, _, rfl, ?_⟩
  split <;> simp

end Collector

/-! ## Calls -/

namespace Session

/-- What a session can be told. -/
inductive Call where
  /-- A name occurs in a statement that is read. -/
  | learn (name : String)
  /-- Process a statement. -/
  | process (st : Statement OperandField)
  /-- A provider of statements has run out. -/
  | providerFinished (p : Provider)
  /-- The source ends. -/
  | finish

/-- The session after a call. -/
def call (s : Session) : Call → Except Fault Session
  | .learn name => .ok { s with assembly := (s.assembly.learn name).2 }
  | .process st => s.process st
  | .providerFinished p => s.providerFinished p
  | .finish => s.finish

/-- A session between calls: no buffer holds anything, and at most one definition is open. -/
structure Quiescent (s : Session) : Prop where
  collectors : s.collectors.length ≤ 1
  /-- The released checks are made. -/
  ready : s.assembly.layout.ready = []
  /-- The errors of the layout are fetched. -/
  errors : s.assembly.layout.errors = []
  /-- The events of the layout are reported. -/
  events : s.assembly.layout.events = []
  /-- The diagnostics of open code are fetched. -/
  openCode : s.openCode = {}
  /-- The diagnostics of the definitions are fetched. -/
  complaints : ∀ c ∈ s.collectors, c.diagnostics = []
  /-- No definition is about to be started. -/
  pendingStart : s.pendingStart = none
  /-- The definitions that are complete are in the library. -/
  completed : s.completed = []

/-- Nothing that a session holds can break a contract between its parts later. -/
structure Sound (s : Session) : Prop where
  checkable : s.assembly.Checkable
  collectors : ∀ c ∈ s.collectors, c.Open

/-- The diagnostics that the parts of a session hold, in the order in which they are gathered. -/
def buffered (s : Session) : List Diagnostic :=
  s.collectors.reverse.flatMap (·.diagnostics) ++
    (s.openCode.own ++ s.openCode.machine ++ s.openCode.directives) ++
    s.assembly.layout.errors.map fun p => p.2.diagnostic s.assembly.names p.1

/-- All diagnostics of a session: those in its list, and those that its parts hold. -/
def held (s : Session) : List Diagnostic := s.diagnostics ++ s.buffered

variable {s s' : Session}

/-- The parts hold the same if the definitions, open code and the layout do. -/
theorem buffered_congr
    (hcollectors : s'.collectors.reverse.flatMap (·.diagnostics) =
      s.collectors.reverse.flatMap (·.diagnostics))
    (hopen : s'.openCode = s.openCode)
    (herrors : s'.assembly.layout.errors = s.assembly.layout.errors)
    (hnames : s'.assembly.names = s.assembly.names) : s'.buffered = s.buffered := by
  unfold buffered
  rw [hcollectors, hopen, herrors, hnames]

/-- Nothing is left in the buffers of the layout that could be emptied. -/
theorem Quiescent.layout_emptied (hq : s.Quiescent) :
    { s.assembly.layout with ready := [], errors := [], events := [] } = s.assembly.layout := by
  rw [← hq.ready, ← hq.errors, ← hq.events]

theorem Quiescent.buffered (hq : s.Quiescent) : s.buffered = [] := by
  have hcomplaints : s.collectors.reverse.flatMap (·.diagnostics) = [] :=
    List.flatMap_eq_nil_iff.2 fun c hc => hq.complaints c (List.mem_reverse.1 hc)
  simp [Session.buffered, hcomplaints, hq.openCode, hq.errors]

/-- Gathering the diagnostics moves all that are held to the list. -/
theorem diagnostics_collect_eq (s : Session) : s.collect.diagnostics = s.held := by
  have hcollectors : (s.collectors.map Collector.collect).reverse.flatMap Prod.fst =
      s.collectors.reverse.flatMap (·.diagnostics) := by
    rw [← List.map_reverse, List.flatMap_map]
    rfl
  unfold held buffered collect
  dsimp only
  rw [hcollectors, List.append_assoc, List.append_assoc, List.append_assoc]
  rfl

/-- Behind the gathering the parts hold nothing. -/
theorem buffered_collect (s : Session) : s.collect.buffered = [] := by
  have hcollectors : s.collect.collectors.reverse.flatMap (·.diagnostics) = [] := by
    refine List.flatMap_eq_nil_iff.2 fun c hc => ?_
    obtain ⟨p, hp, rfl⟩ := List.mem_map.1 (List.mem_reverse.1 hc)
    obtain ⟨c', -, rfl⟩ := List.mem_map.1 hp
    rfl
  unfold buffered
  rw [hcollectors]
  rfl

/-- Noting what a statement asks for touches no diagnostic. -/
theorem held_noticeAll (s : Session) (ns : List Notice) : (s.noticeAll ns).held = s.held := by
  induction ns generalizing s with
  | nil => rfl
  | cons n ns ih => exact (ih (s.notice n)).trans (by cases n <;> rfl)

/-- Ending a definition makes no copy of its diagnostics, and adds at most that it was not
closed. -/
theorem length_held_endInnermost (s : Session) :
    s.endInnermost.held.length ≤ s.held.length + 1 := by
  cases hcons : s.collectors with
  | nil =>
      unfold endInnermost
      rw [hcons]
      exact Nat.le_succ _
  | cons c rest =>
      obtain ⟨ds, -, hone, hdiagnostics⟩ := c.finish_spec s.assembly
      unfold endInnermost
      rw [hcons]
      dsimp only
      rw [held_noticeAll]
      simp only [held, buffered, Collector.collect, hdiagnostics, hcons, List.reverse_cons,
        List.flatMap_append, List.flatMap_singleton, List.length_append]
      omega

/-- From one session to the next no diagnostic is lost: those that were held are held, in the same
order, and the list is only added to. -/
structure Hands (s s' : Session) : Prop where
  held : s.held.Sublist s'.held
  listed : s.diagnostics <+: s'.diagnostics

namespace Hands

/-- What touches no diagnostic. -/
theorem of_eq (hdiagnostics : s'.diagnostics = s.diagnostics)
    (hbuffered : s'.buffered = s.buffered) :
    s.Hands s' := by
  refine ⟨?_, hdiagnostics ▸ List.prefix_rfl⟩
  rw [Session.held, Session.held, hdiagnostics, hbuffered]

/-- What starts with empty buffers and only adds to the list. -/
theorem of_buffered (hnil : s.buffered = []) (hlisted : s.diagnostics <+: s'.diagnostics) :
    s.Hands s' := by
  refine ⟨?_, hlisted⟩
  rw [Session.held, hnil, List.append_nil]
  exact hlisted.sublist.trans (List.sublist_append_left _ _)

/-- Gathering the diagnostics. -/
theorem collect (s : Session) : s.Hands s.collect := by
  have hlist := s.diagnostics_collect_eq
  refine ⟨?_, ⟨s.buffered, hlist.symm⟩⟩
  show List.Sublist _ (s.collect.diagnostics ++ _)
  rw [hlist]
  exact List.sublist_append_left _ _

/-- Whatever is held on a path is held at its end. -/
theorem held_of_path {us : List Session} (h : Path Hands s us s') :
    ∀ u ∈ s :: us, u.held.Sublist s'.held := by
  induction h with
  | nil s => simp
  | cons hfirst _ ih =>
      refine List.forall_mem_cons.2 ⟨?_, ih⟩
      exact hfirst.held.trans (ih _ (by simp))

end Hands

/-! ### Settling -/

/-- The sessions in the course of settling. -/
def settleStages (s : Session) : List Session :=
  let r := s.startPending.registerCompleted
  s.startPending :: r ::
    match r.replay with
    | .ok u => [u, u.collect]
    | .error _ => []

/-- The checks that are made when a session replays. -/
def released (s : Session) : List Check := s.assembly.replays s.assembly.layout.ready

/-- What the released checks find. -/
def findings (s : Session) : List Diagnostic := s.released.flatMap (·.diagnostics)

theorem findings_among (s : Session) : Among OperandCheck.codes s.findings :=
  s.assembly.replays_among _

/-- The same checks are released if the layout and the names are the same. -/
theorem released_congr (hlayout : s'.assembly.layout = s.assembly.layout)
    (hnames : s'.assembly.names = s.assembly.names) : s'.released = s.released := by
  unfold released Assembly.replays Assembly.replay? Assembly.check? Assembly.encoded
    Assembly.checkOperands
  rw [hlayout, hnames]

theorem released_of_ready (hnil : s.assembly.layout.ready = []) : s.released = [] := by
  rw [released, hnil]
  rfl

/-- The released checks are made, and open code holds what they found. -/
theorem replay_eq (hc : s.assembly.Checkable) :
    ∃ events, s.replay = .ok { s with
      openCode := { s.openCode with machine := s.openCode.machine ++ s.findings }
      assembly := (s.assembly.request (·.takeReady)).2.reportAll events } := by
  obtain ⟨events, hok⟩ := s.openCode.replayAll_spec (s.assembly.request (·.takeReady)).2
    s.assembly.layout.ready hc.released
  refine ⟨events, ?_⟩
  unfold replay
  exact congrArg (· >>= fun p => Pure.pure { s with openCode := p.1, assembly := p.2 }) hok

/-- Making released checks loses no diagnostic. -/
theorem Hands.replay (hok : s.replay = .ok s') (hc : s.assembly.Checkable) : s.Hands s' := by
  obtain ⟨events, heq⟩ := replay_eq hc
  rw [heq] at hok
  cases hok
  refine ⟨?_, List.prefix_rfl⟩
  refine (List.Sublist.refl _).append (((List.Sublist.refl _).append ?_).append (.refl _))
  exact ((List.Sublist.refl _).append (List.sublist_append_left _ _)).append (.refl _)

/-- What settling leaves of a session: all buffers are empty, and their diagnostics are in the
list, together with those of the checks that were made. -/
structure Drains (s s' : Session) : Prop where
  path : Path Hands s s.settleStages s'
  collectors : s'.collectors = s.startPending.collectors.map (·.collect.2)
  layout : s'.assembly.layout =
    { s.assembly.layout with ready := [], errors := [], events := [] }
  names : s'.assembly.names = s.assembly.names
  openCode : s'.openCode = {}
  pendingStart : s'.pendingStart = none
  completed : s'.completed = []
  calls : s'.calls = s.calls
  diagnostics : s'.diagnostics = { s with
    openCode := { s.openCode with machine := s.openCode.machine ++ s.findings } }.held

/-- A definition that is started holds no diagnostics, and nothing else changes. -/
theorem startPending_spec (s : Session) :
    s.startPending.assembly.layout = s.assembly.layout ∧
      s.startPending.assembly.names = s.assembly.names ∧
      s.startPending.openCode = s.openCode ∧ s.startPending.pendingStart = none ∧
      s.startPending.calls = s.calls ∧ s.startPending.diagnostics = s.diagnostics ∧
      s.startPending.collectors.reverse.flatMap (·.diagnostics) =
        s.collectors.reverse.flatMap (·.diagnostics) := by
  unfold startPending
  split
  · rename_i hnone
    exact ⟨rfl, rfl, rfl, hnone, rfl, rfl, rfl⟩
  · exact ⟨rfl, rfl, rfl, rfl, rfl, rfl, by simp [Collector.start]⟩

/-- A session whose checks can be made settles. -/
theorem drains (hc : s.assembly.Checkable) : ∃ s', s.settle = .ok s' ∧ s.Drains s' := by
  obtain ⟨hlayout, hnames, hopen, hpending, hcalls, hdiagnostics, hcollectors⟩ :=
    s.startPending_spec
  obtain ⟨hlayout', hnames'⟩ :=
    registerCompleted_spec s.startPending.completed s.startPending.assembly
  let r := s.startPending.registerCompleted
  have hsame : r.assembly.layout = s.assembly.layout := hlayout'.trans hlayout
  have hsame' : r.assembly.names = s.assembly.names := hnames'.trans hnames
  have hchecks : r.assembly.Checkable := hc.grow hsame (hsame' ▸ .refl _)
  -- starting a definition and adding others to the library touches no diagnostic
  have hstart : s.Hands s.startPending :=
    .of_eq hdiagnostics (buffered_congr hcollectors hopen (congrArg Layout.errors hlayout) hnames)
  have hregister : s.startPending.Hands r :=
    .of_eq rfl (buffered_congr rfl rfl (congrArg Layout.errors hlayout') hnames')
  have hfindings : r.findings = s.findings :=
    congrArg (List.flatMap _) (released_congr hsame hsame')
  obtain ⟨events, hok⟩ := replay_eq hchecks
  let u : Session := { r with
    openCode := { r.openCode with machine := r.openCode.machine ++ r.findings }
    assembly := (r.assembly.request (·.takeReady)).2.reportAll events }
  have hsettle : s.settle = .ok u.collect := by
    rw [settle, hok]
    rfl
  have hstages : s.settleStages = [s.startPending, r, u, u.collect] := by
    unfold settleStages
    simp only [show s.startPending.registerCompleted.replay = .ok u from hok]
    rfl
  have hpath : Path Hands s s.settleStages u.collect := by
    rw [hstages]
    exact .cons hstart (.cons hregister (.cons (.replay hok hchecks) (.cons (.collect u) (.nil _))))
  refine ⟨u.collect, hsettle, hpath, List.map_map, ?_, hsame', rfl, hpending, rfl, hcalls, ?_⟩
  · show { { r.assembly.layout with ready := [], events := [] } with errors := [] } = _
    rw [hsame]
  · have hopen' : u.openCode = { s.openCode with machine := s.openCode.machine ++ s.findings } := by
      rw [← hfindings]
      exact congrArg (fun o : OpenCode => { o with machine := o.machine ++ r.findings }) hopen
    have herrors : u.assembly.layout.errors = s.assembly.layout.errors := by
      show r.assembly.layout.errors = _
      rw [hsame]
    rw [diagnostics_collect_eq, held, held]
    exact congrArg₂ (· ++ ·) hdiagnostics (buffered_congr hcollectors hopen' herrors hsame')

/-- A session that has settled rests. -/
theorem Drains.quiescent (h : s.Drains s') (hone : s.startPending.collectors.length ≤ 1) :
    s'.Quiescent := by
  refine ⟨?_, ?_, ?_, ?_, h.openCode, fun c hc => ?_, h.pendingStart, h.completed⟩
  · rw [h.collectors, List.length_map]
    exact hone
  · rw [h.layout]
  · rw [h.layout]
  · rw [h.layout]
  · rw [h.collectors] at hc
    obtain ⟨c', -, rfl⟩ := List.mem_map.1 hc
    rfl

/-- Settling keeps a session sound. -/
theorem Drains.sound (h : s.Drains s') (hs : s.Sound) : s'.Sound := by
  refine ⟨?_, fun c hc => ?_⟩
  · have hc := hs.checkable
    unfold Assembly.Checkable
    rw [h.layout, h.names]
    exact ⟨hc.waiting, by simp⟩
  · rw [h.collectors] at hc
    obtain ⟨c', hc', rfl⟩ := List.mem_map.1 hc
    have hopen : c'.Open := by
      unfold startPending at hc'
      split at hc'
      · exact hs.collectors c' hc'
      · rcases List.mem_cons.1 hc' with rfl | hc'
        · exact ⟨Nat.one_pos, rfl, rfl⟩
        · exact hs.collectors c' hc'
    exact ⟨hopen.depth, hopen.finished, hopen.delivered⟩

/-! ### Handing statements on -/

/-- A statement starts a definition: it is found to be a MACRO statement of conditional assembly
in open code. -/
def Starts (s : Session) (st : Statement OperandField) : Prop :=
  s.collectors.isEmpty = true ∧ s.assembly.Starts (s.assembly.openReading st.operation).opcode

instance (s : Session) (st : Statement OperandField) : Decidable (s.Starts st) :=
  inferInstanceAs (Decidable (_ ∧ _))

/-- Open code takes every statement. It keeps that checks can be made, and asks for a definition to
be started exactly at a statement that starts one. -/
theorem dispatch_of_nil (hnil : s.collectors = []) (st : Statement OperandField) :
    ∃ o a notices, s.dispatch st = .ok ({ s with openCode := o, assembly := a }.noticeAll notices) ∧
      s.assembly.Keeps a ∧
      (s.Starts st ∧ o = s.openCode ∧ a.layout = s.assembly.layout ∧
          a.names = s.assembly.names ∧ notices = [.definitionStarted s.assembly.location] ∨
        ¬ s.Starts st ∧ ∀ n ∈ notices, ∃ c, n = .macroCalled c) := by
  obtain ⟨hmachine, hdefined⟩ := s.assembly.openReading_spec st.operation
  unfold dispatch Starts
  rw [hnil]
  dsimp only
  generalize s.assembly.openReading st.operation = reading at hmachine hdefined
  let b := s.assembly.report (.statementRead .openCode st.range reading.form)
  have hreport : s.assembly.Keeps b := .report _ _
  obtain ⟨o, a, notices, hok, hkeeps, hnotices⟩ := s.openCode.process_keeps (a := b)
    (s := { st with opcode := reading.opcode }) hmachine hdefined
  rw [show s.openCode.process _ _ = _ from hok]
  refine ⟨o, a, notices, rfl, hreport.trans hkeeps, ?_⟩
  rcases hnotices with ⟨hstarts, rfl, rfl, rfl⟩ | ⟨hstarts, hcalls⟩
  · exact .inl ⟨⟨rfl, hstarts⟩, rfl, rfl, rfl, rfl⟩
  · exact .inr ⟨fun h => hstarts h.2, hcalls⟩

/-- Noting macro calls only adds them to the list. -/
theorem noticeAll_of_calls (s : Session) {ns : List Notice}
    (hns : ∀ n ∈ ns, ∃ c, n = .macroCalled c) :
    ∃ calls, s.noticeAll ns = { s with calls } := by
  induction ns generalizing s with
  | nil => exact ⟨s.calls, rfl⟩
  | cons n ns ih =>
      obtain ⟨c, rfl⟩ := hns n (by simp)
      exact ih (s.notice (.macroCalled c)) fun n hn => hns n (by simp [hn])

/-- The innermost definition is handed on when it is ended. If it was not closed, that is
complained of. -/
theorem endInnermost_of_cons {c : Collector} {rest : List Collector}
    (hcons : s.collectors = c :: rest) (hc : c.delivered = false) :
    ∃ ds, s.endInnermost = { s with
        collectors := rest
        diagnostics := s.diagnostics ++ (c.diagnostics ++ ds)
        completed := s.completed ++ [c.definition] } ∧
      Among [.unterminatedMacro] ds ∧ ds.length = if c.finished then 0 else 1 := by
  obtain ⟨hnotices, ds, hdiagnostics, hds⟩ := c.finish_of_not_delivered hc s.assembly
  refine ⟨ds, ?_, hds⟩
  unfold endInnermost
  rw [hcons]
  dsimp only
  rw [hnotices, Collector.collect, hdiagnostics]
  rfl

/-- The innermost definition takes every statement. If that closes it, it is handed on. -/
theorem dispatch_of_open {c : Collector} {rest : List Collector} (hcons : s.collectors = c :: rest)
    (hc : c.Open) (st : Statement OperandField) :
    let (c', a) := c.take s.assembly st
    s.dispatch st = .ok (if c'.finished then
        { s with
          assembly := a
          collectors := rest
          diagnostics := s.diagnostics ++ c'.diagnostics
          completed := s.completed ++ [c'.definition] }
      else { s with assembly := a, collectors := c' :: rest }) := by
  have hdispatch := dispatch_of_cons st hcons hc.finished
  obtain ⟨hdelivered, -⟩ := hc.take s.assembly st
  generalize c.take s.assembly st = taken at hdispatch hdelivered
  obtain ⟨c', a⟩ := taken
  dsimp only at hdispatch hdelivered ⊢
  rw [hdispatch]
  split
  · rename_i hfinished
    obtain ⟨ds, hended, -, hnone⟩ :=
      endInnermost_of_cons (s := { s with assembly := a, collectors := c' :: rest }) rfl hdelivered
    rw [if_pos hfinished, List.length_eq_zero_iff] at hnone
    rw [hended, hnone, List.append_nil]
  · rfl

/-- What becomes of a statement before the session settles: it went to open code or to the
definition, which it may have closed. -/
structure Dispatched (s : Session) (st : Statement OperandField) (d : Session) : Prop where
  sound : d.Sound
  /-- A definition is started or handed on, and all others stay. -/
  collectors : d.completed.length + d.startPending.collectors.length =
    s.collectors.length + if s.Starts st then 1 else 0
  /-- At most one definition is open or about to be started. -/
  single : d.startPending.collectors.length ≤ 1
  listed : s.diagnostics <+: d.diagnostics
  /-- A definition does not touch the layout and calls no macro. -/
  isolated : s.collectors ≠ [] →
    d.assembly.layout = s.assembly.layout ∧ d.openCode = s.openCode ∧ d.calls = s.calls

/-- At most one definition is open in a session at rest. -/
theorem Quiescent.rest_eq_nil (hq : s.Quiescent) {c : Collector} {rest : List Collector}
    (hcons : s.collectors = c :: rest) : rest = [] := by
  have hone := hq.collectors
  rw [hcons, List.length_cons] at hone
  exact List.length_eq_zero_iff.1 (by omega)

/-- A session at rest hands every statement on. -/
theorem Quiescent.dispatch (hq : s.Quiescent) (hs : s.Sound) (st : Statement OperandField) :
    ∃ d, s.dispatch st = .ok d ∧ s.Dispatched st d := by
  cases hcons : s.collectors with
  | nil =>
      obtain ⟨o, a, notices, hok, hkeeps, hnotices⟩ := dispatch_of_nil hcons st
      have hsound (s' : Session) (ha : s'.assembly = a) (hc : s'.collectors = []) : s'.Sound :=
        ⟨ha ▸ hkeeps.checkable hs.checkable, by simp [hc]⟩
      refine ⟨_, hok, ?_⟩
      rcases hnotices with ⟨hstarts, -, -, -, rfl⟩ | ⟨hstarts, hcalls⟩
      · refine ⟨hsound _ rfl hcons, ?_, ?_, List.prefix_rfl, fun h => absurd hcons h⟩ <;>
          simp [noticeAll, notice, startPending, hcons, hstarts, hq.completed]
      · obtain ⟨calls, hcalled⟩ := noticeAll_of_calls { s with openCode := o, assembly := a } hcalls
        rw [hcalled]
        refine ⟨hsound _ rfl hcons, ?_, ?_, List.prefix_rfl, fun h => absurd hcons h⟩ <;>
          simp [startPending, hq.pendingStart, hcons, hstarts, hq.completed]
  | cons c rest =>
      obtain rfl := hq.rest_eq_nil hcons
      have hopen : c.Open := hs.collectors c (by simp [hcons])
      have hstarts : ¬ s.Starts st := by simp [Starts, hcons]
      have hdispatch := dispatch_of_open hcons hopen st
      obtain ⟨-, hstays⟩ := hopen.take s.assembly st
      obtain ⟨hlearns, -⟩ := c.take_spec s.assembly st
      generalize c.take s.assembly st = taken at hdispatch hstays hlearns
      obtain ⟨c', a⟩ := taken
      dsimp only at hdispatch hstays hlearns
      have hchecks : a.Checkable := hs.checkable.grow hlearns.layout hlearns.names
      refine ⟨_, hdispatch, ?_⟩
      -- the statement may be the MEND of the definition
      by_cases hfinished : c'.finished = true
      · rw [if_pos hfinished]
        refine ⟨⟨hchecks, by simp⟩, ?_, ?_, List.prefix_append _ _,
          fun _ => ⟨hlearns.layout, rfl, rfl⟩⟩ <;>
          simp [startPending, hq.pendingStart, hq.completed, hcons, hstarts]
      · rw [if_neg hfinished]
        refine ⟨⟨hchecks, ?_⟩, ?_, ?_, List.prefix_rfl, fun _ => ⟨hlearns.layout, rfl, rfl⟩⟩
        · simpa using hstays (by simpa using hfinished)
        · simp [startPending, hq.pendingStart, hq.completed, hcons, hstarts]
        · simp [startPending, hq.pendingStart]

/-! ### The course of a call -/

/-- The sessions in the course of ending definitions. -/
def endStages (s : Session) : Nat → List Session
  | 0 => []
  | n + 1 =>
      s.endInnermost :: s.endInnermost.settleStages ++
        match s.endInnermost.settle with
        | .ok u => u.endStages n
        | .error _ => []

/-- The sessions in the course of giving up what still waits. -/
def finishStages (s : Session) : List Session :=
  let e : Session := { s with assembly := s.assembly.change (·.finish) }
  e :: match e.replay with
    | .ok u => [u, u.collect, u.collect.report (.finished u.collect.diagnostics.length)]
    | .error _ => []

/-- The sessions in the course of a call. -/
def stages (s : Session) : Call → List Session
  | .learn name => [{ s with assembly := (s.assembly.learn name).2 }]
  | .process st =>
      s.turnTo st ::
        match (s.turnTo st).dispatch st with
        | .ok d => d :: d.settleStages
        | .error _ => []
  | .providerFinished p => if Collector.endsWith p then s.endStages s.collectors.length else []
  | .finish =>
      s.endStages s.collectors.length ++
        match s.endCollectors s.collectors.length with
        | .error _ => []
        | .ok u =>
            u.settleStages ++
              match u.settle with
              | .ok u => u.finishStages
              | .error _ => []

/-- The session after a call, which rests again. -/
structure Returns (s : Session) (c : Call) (s' : Session) : Prop where
  call : s.call c = .ok s'
  sound : s'.Sound
  quiescent : s'.Quiescent
  path : Path Hands s (s.stages c) s'

/-- A session at rest processes every statement. -/
theorem Quiescent.process (hq : s.Quiescent) (hs : s.Sound) (st : Statement OperandField) :
    ∃ d s', (s.turnTo st).dispatch st = .ok d ∧ (s.turnTo st).Dispatched st d ∧ d.Drains s' ∧
      s.Returns (.process st) s' := by
  obtain ⟨a, hturned, hlearns, hnames⟩ := s.turnTo_eq st
  have hsound : (s.turnTo st).Sound := by
    rw [hturned]
    exact ⟨hs.checkable.grow hlearns.layout hlearns.names, hs.collectors⟩
  have hquiescent : (s.turnTo st).Quiescent := by
    rw [hturned]
    have hlayout : a.layout = s.assembly.layout := hlearns.layout
    exact ⟨hq.collectors, hlayout ▸ hq.ready, hlayout ▸ hq.errors, hlayout ▸ hq.events, hq.openCode,
      hq.complaints, hq.pendingStart, hq.completed⟩
  have hturn : s.Hands (s.turnTo st) := by
    rw [hturned]
    exact .of_eq rfl (buffered_congr rfl rfl (congrArg Layout.errors hlearns.layout) hnames)
  obtain ⟨d, hdispatch, hd⟩ := hquiescent.dispatch hsound st
  obtain ⟨s', hsettle, hdrains⟩ := drains hd.sound.checkable
  refine ⟨d, s', hdispatch, hd, hdrains, ?_, hdrains.sound hd.sound,
    hdrains.quiescent hd.single, ?_⟩
  · show (s.turnTo st).dispatch st >>= (·.settle) = _
    rw [hdispatch]
    exact hsettle
  · rw [stages, hdispatch]
    exact .cons hturn (.cons (.of_buffered hquiescent.buffered hd.listed) hdrains.path)

/-- What ending a definition and settling leave of a session at rest. -/
structure Ended (s s' : Session) : Prop where
  sound : s'.Sound
  quiescent : s'.Quiescent
  collectors : s'.collectors = []
  layout : s'.assembly.layout = s.assembly.layout
  names : s'.assembly.names = s.assembly.names
  /-- Each definition that was not closed is complained of. -/
  diagnostics : ∃ ds, s'.diagnostics = s.diagnostics ++ ds ∧ Among [.unterminatedMacro] ds ∧
    ds.length = s.collectors.length

/-- Settling keeps the list of a session whose layout and open code hold nothing. -/
theorem Drains.diagnostics_of_buffered (h : s.Drains s') (hready : s.assembly.layout.ready = [])
    (hnil : s.buffered = []) : s'.diagnostics = s.diagnostics := by
  have hsame :
      { s with openCode := { s.openCode with machine := s.openCode.machine ++ s.findings } } =
      s := by
    rw [findings, released_of_ready hready, List.flatMap_nil, List.append_nil]
  rw [h.diagnostics, hsame, held, hnil, List.append_nil]

/-- A session at rest ends its definition, if it has one. -/
theorem Quiescent.endCollectors (hq : s.Quiescent) (hs : s.Sound) :
    ∃ s', s.endCollectors s.collectors.length = .ok s' ∧ s.Ended s' ∧
      Path Hands s (s.endStages s.collectors.length) s' := by
  cases hcons : s.collectors with
  | nil =>
      exact ⟨s, rfl, ⟨hs, hq, hcons, rfl, rfl, [], by simp, among_nil, by simp [hcons]⟩, .nil s⟩
  | cons c rest =>
      obtain rfl := hq.rest_eq_nil hcons
      have hopen := hs.collectors c (by simp [hcons])
      obtain ⟨ds, hended, hds, hone⟩ := endInnermost_of_cons hcons hopen.delivered
      rw [hopen.finished, if_neg Bool.false_ne_true] at hone
      have hcomplaints : c.diagnostics = [] := hq.complaints c (by simp [hcons])
      have hsound : s.endInnermost.Sound := by
        rw [hended]
        exact ⟨hs.checkable, by simp⟩
      have hhands : s.Hands s.endInnermost := by
        refine .of_buffered hq.buffered ?_
        rw [hended]
        exact List.prefix_append _ _
      have hnone : s.endInnermost.startPending.collectors = [] := by
        rw [hended]
        simp [startPending, hq.pendingStart]
      obtain ⟨s', hsettle, hdrains⟩ := drains hsound.checkable
      refine ⟨s', ?_, ⟨hdrains.sound hsound, hdrains.quiescent (by simp [hnone]), ?_, ?_, ?_, ds,
        ?_, hds, by simp [hcons, hone]⟩, ?_⟩
      · show s.endInnermost.settle >>= (·.endCollectors 0) = _
        rw [hsettle]
        rfl
      · rw [hdrains.collectors, hnone]
        rfl
      · rw [hdrains.layout, hended]
        exact hq.layout_emptied
      · rw [hdrains.names, hended]
      · have hready : s.endInnermost.assembly.layout.ready = [] := by
          rw [hended]
          exact hq.ready
        have hnil : s.endInnermost.buffered = [] := by
          rw [hended]
          simp [Session.buffered, hq.openCode, hq.errors]
        rw [hdrains.diagnostics_of_buffered hready hnil, hended, hcomplaints, List.nil_append]
      · show Path Hands s (s.endStages 1) s'
        unfold endStages
        rw [hsettle]
        exact (Path.cons hhands hdrains.path).append (.nil s')

/-- What the layout complains of. -/
def layoutCodes : List DiagnosticCode :=
  [.symbolRedefinition, .circularDependency, .undefinedSymbol, .invalidStorageLength,
    .invalidExpression]

/-- What the end of the source can be blamed for, apart from definitions that were not closed. -/
def endCodes : List DiagnosticCode := layoutCodes ++ OperandCheck.codes

/-- The layout has its own kinds of errors. -/
theorem among_errors (errors : List (Range × LayoutError)) (names : NameTable) :
    Among layoutCodes (errors.map fun p => p.2.diagnostic names p.1) := by
  intro d hd
  obtain ⟨⟨range, e⟩, -, rfl⟩ := List.mem_map.1 hd
  show e.code ∈ layoutCodes
  cases e <;> simp [LayoutError.code, layoutCodes]

/-- What giving up what still waits leaves of a session at rest: what the released checks find is in
the list, and the errors of the layout. -/
structure GivesUp (s s' : Session) : Prop where
  giveUp : s.giveUp = .ok s'
  sound : s'.Sound
  quiescent : s'.Quiescent
  collectors : s'.collectors = []
  path : Path Hands s s.finishStages s'
  table : s'.assembly.layout.table = s.givenUp.assembly.layout.table
  names : s'.assembly.names = s.givenUp.assembly.names
  diagnostics : s'.diagnostics = s.diagnostics ++ (s.givenUp.findings ++
    s.givenUp.assembly.layout.errors.map fun p => p.2.diagnostic s.givenUp.assembly.names p.1)

theorem GivesUp.exists_diagnostics (h : s.GivesUp s') :
    ∃ ds, s'.diagnostics = s.diagnostics ++ ds ∧ Among endCodes ds :=
  ⟨_, h.diagnostics, among_append.2 ⟨s.givenUp.findings_among.mono (List.subset_append_right _ _),
    (among_errors _ _).mono (List.subset_append_left _ _)⟩⟩

/-- The layout can give up what waits. -/
theorem keeps_givenUp (s : Session) : s.assembly.Keeps s.givenUp.assembly :=
  .change fun hc => hc.make (m := .finish) nofun

/-- What still waits can be given up. -/
theorem Quiescent.giveUp (hq : s.Quiescent) (hs : s.Sound) (hnil : s.collectors = []) :
    ∃ s', s.GivesUp s' := by
  have hchecks : s.givenUp.assembly.Checkable := s.keeps_givenUp.checkable hs.checkable
  have hhands : s.Hands s.givenUp := .of_buffered hq.buffered List.prefix_rfl
  obtain ⟨events, hok⟩ := replay_eq hchecks
  let u : Session := { s.givenUp with
    openCode := { s.openCode with machine := s.openCode.machine ++ s.givenUp.findings }
    assembly := (s.givenUp.assembly.request (·.takeReady)).2.reportAll events }
  let last := u.collect.report (.finished u.collect.diagnostics.length)
  have hcollectors : last.collectors = [] := by
    show (s.collectors.map Collector.collect).map Prod.snd = []
    rw [hnil]
    rfl
  have hnone (P : Collector → Prop) : ∀ c ∈ last.collectors, P c := by simp [hcollectors]
  refine ⟨last, giveUp_eq hok, ⟨⟨hchecks.waiting, nofun⟩, hnone _⟩, ?_, hcollectors, ?_, rfl,
    rfl, ?_⟩
  · exact ⟨by simp [last, hcollectors], rfl, rfl, rfl, rfl, hnone _, hq.pendingStart, hq.completed⟩
  · have hreplay : Session.replay { s with assembly := s.assembly.change (·.finish) } = .ok u := hok
    have hreport : u.collect.Hands last := .of_eq rfl (buffered_congr rfl rfl rfl rfl)
    rw [finishStages, hreplay]
    exact .cons hhands (.cons (.replay hok hchecks)
      (.cons (.collect u) (.cons hreport (.nil last))))
  · show u.collect.diagnostics = _
    rw [u.diagnostics_collect_eq, Session.held, Session.buffered, show u.collectors = [] from hnil]
    simp [u, hq.openCode]
    rfl

/-- A session at rest ends with its source. -/
theorem Quiescent.finish (hq : s.Quiescent) (hs : s.Sound) :
    ∃ c s' ds, s.Ended c ∧ s.Returns .finish s' ∧ s'.collectors = [] ∧
      s'.diagnostics = c.diagnostics ++ ds ∧ Among endCodes ds := by
  obtain ⟨c, hclosed, hended, hpath⟩ := hq.endCollectors hs
  obtain ⟨d, hsettle, hdrains⟩ := drains hended.sound.checkable
  have hstart : c.startPending.collectors = [] := by
    simp [startPending, hended.quiescent.pendingStart, hended.collectors]
  have hdnil : d.collectors = [] := by
    rw [hdrains.collectors, hstart]
    rfl
  obtain ⟨s', hs'⟩ :=
    (hdrains.quiescent (by simp [hstart])).giveUp (hdrains.sound hended.sound) hdnil
  obtain ⟨ds, hdiagnostics, hds⟩ := hs'.exists_diagnostics
  rw [hdrains.diagnostics_of_buffered hended.quiescent.ready hended.quiescent.buffered]
    at hdiagnostics
  refine ⟨c, s', ds, hended, ⟨?_, hs'.sound, hs'.quiescent, ?_⟩, hs'.collectors, hdiagnostics, hds⟩
  · rw [Session.call, finish_eq, show s.providerFinished .openCode = .ok c from hclosed]
    show c.settle >>= Session.giveUp = _
    rw [hsettle]
    exact hs'.giveUp
  · rw [stages, hclosed]
    dsimp only
    rw [hsettle]
    exact hpath.append (hdrains.path.append hs'.path)

/-! ### Runs of calls -/

/-- A session at rest returns from every call, and rests again. -/
theorem Quiescent.call (hq : s.Quiescent) (hs : s.Sound) (c : Call) : ∃ s', s.Returns c s' := by
  cases c with
  | learn name =>
      let s' : Session := { s with assembly := (s.assembly.learn name).2 }
      have hlearns : s.assembly.Learns s'.assembly := .learn _ _
      refine ⟨s', rfl, ⟨hs.checkable.grow rfl hlearns.names, hs.collectors⟩, ?_, ?_⟩
      · exact ⟨hq.collectors, hq.ready, hq.errors, hq.events, hq.openCode, hq.complaints,
          hq.pendingStart, hq.completed⟩
      · exact .cons (.of_buffered hq.buffered List.prefix_rfl) (.nil s')
  | process st =>
      obtain ⟨-, s', -, -, -, hreturns⟩ := hq.process hs st
      exact ⟨s', hreturns⟩
  | providerFinished p =>
      by_cases hends : Collector.endsWith p = true
      · obtain ⟨s', hok, hended, hpath⟩ := hq.endCollectors hs
        refine ⟨s', ?_, hended.sound, hended.quiescent, ?_⟩
        · rw [Session.call, providerFinished, if_pos hends, hok]
        · rw [stages, if_pos hends]
          exact hpath
      · refine ⟨s, ?_, hs, hq, ?_⟩
        · rw [Session.call, providerFinished, if_neg hends]
        · rw [stages, if_neg hends]
          exact .nil s
  | finish =>
      obtain ⟨-, s', -, -, hreturns, -⟩ := hq.finish hs
      exact ⟨s', hreturns⟩

/-- A session at rest returns from every run of calls, and rests again. -/
theorem Quiescent.calls (hq : s.Quiescent) (hs : s.Sound) (cs : List Call) :
    ∃ s', cs.foldlM Session.call s = .ok s' ∧ s'.Sound ∧ s'.Quiescent := by
  induction cs generalizing s with
  | nil => exact ⟨s, rfl, hs, hq⟩
  | cons c cs ih =>
      obtain ⟨d, hd⟩ := hq.call hs c
      obtain ⟨s', hok, hs'⟩ := ih hd.quiescent hd.sound
      refine ⟨s', ?_, hs'⟩
      rw [List.foldlM_cons, hd.call]
      exact hok

/-- The start of a session rests. -/
theorem quiescent_start (file : String) (tracing : Tracing) :
    (start file tracing).Sound ∧ (start file tracing).Quiescent :=
  ⟨⟨⟨by simp [start, Assembly.start], by simp [start, Assembly.start]⟩, by simp [start]⟩,
    by simp [start], rfl, rfl, rfl, rfl, by simp [start], rfl, rfl⟩

/-- Every run of calls returns, and the session rests behind it: at most one definition is open,
and no released check, error of the layout, diagnostic of a part, definition to start or definition
to add to the library is left in a buffer. From whatever session is reached so, a further call
leads, step by step, to a session at rest. None of the steps loses a diagnostic. Gathering moves
those that are held to the list, and so does ending a definition, which adds at most that it was
not closed: all that any step has left in a buffer is in the list in the end, and no copy of it.
And while a definition is open, processing a statement leaves the layout and the list of macro calls
as they are. -/
theorem calls_quiescent (file : String) (tracing : Tracing) (calls : List Call) :
    ∃ s, calls.foldlM Session.call (start file tracing) = .ok s ∧ s.Quiescent ∧
      (∀ c, ∃ s', s.call c = .ok s' ∧ s'.Quiescent ∧
        (s :: s.stages c).getLast (List.cons_ne_nil _ _) = s' ∧
        (s :: s.stages c).IsChain
          (fun u v => u.held.Sublist v.held ∧ u.diagnostics <+: v.diagnostics) ∧
        ∀ u ∈ s.stages c, u.held.Sublist s'.diagnostics ∧
          u.collect.diagnostics = u.held ∧ u.collect.buffered = [] ∧
          u.endInnermost.held.length ≤ u.held.length + 1) ∧
      (s.collectors ≠ [] → ∀ st, ∃ s', s.process st = .ok s' ∧
        s'.assembly.layout = s.assembly.layout ∧ s'.calls = s.calls) := by
  obtain ⟨hsound₀, hquiescent₀⟩ := quiescent_start file tracing
  obtain ⟨s, hok, hsound, hquiescent⟩ := hquiescent₀.calls hsound₀ calls
  refine ⟨s, hok, hquiescent, fun c => ?_, fun hcollecting st => ?_⟩
  · obtain ⟨s', h⟩ := hquiescent.call hsound c
    refine ⟨s', h.call, h.quiescent, h.path.getLast,
      h.path.isChain.imp fun u v h => ⟨h.held, h.listed⟩,
      fun u hu => ⟨?_, u.diagnostics_collect_eq, u.buffered_collect, u.length_held_endInnermost⟩⟩
    have hheld := Hands.held_of_path h.path u (by simp [hu])
    rwa [held.eq_1 s', h.quiescent.buffered, List.append_nil] at hheld
  · obtain ⟨a, hturned, hlearns, -⟩ := s.turnTo_eq st
    obtain ⟨d, s', -, hd, hdrains, h⟩ := hquiescent.process hsound st
    have hopen : (s.turnTo st).collectors ≠ [] := by
      rw [hturned]
      exact hcollecting
    obtain ⟨hlayout, -, hcalls⟩ := hd.isolated hopen
    have hsame : d.assembly.layout = s.assembly.layout := by
      rw [hlayout, hturned]
      exact hlearns.layout
    refine ⟨s', h.call, ?_, ?_⟩
    · rw [hdrains.layout, hsame]
      exact hquiescent.layout_emptied
    · rw [hdrains.calls, hcalls, hturned]

end Session

end MacroAssembler
