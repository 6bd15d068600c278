import MacroAssembler.Proofs.Assembly.Calls
import MacroAssembler.Proofs.Assembly.Prototypes

/-!
# What a definition captures

A MACRO statement in open code starts a definition. The next statement is its prototype, and those
behind it are its body up to the MEND that brings the MEND operations one ahead of the MACRO
operations, or up to the end of the provider. Whatever the session is told behind the MACRO
statement, the definition is handed on once and with exactly these statements
(`definition_captures`).
-/

namespace MacroAssembler

/-- How many more MEND than MACRO operations there are. -/
def surplus (names : List (Option String)) : Int :=
  names.count (some "MEND") - names.count (some "MACRO")

namespace Session

variable {s s' u v : Session} {location : Location} {cs ps : List Session.Call}

/-! ## The record of a run -/

/-- What the calls of a run have, each in the session that it is made in. -/
def gather {α : Type} (f : Session → Call → List α) (s : Session) : List Call → List α
  | [] => []
  | c :: cs =>
      f s c ++
        match s.call c with
        | .ok s' => s'.gather f cs
        | .error _ => []

/-- What is gathered in a run of two parts. -/
theorem gather_append {α : Type} {f : Session → Call → List α}
    (hrun : cs.foldlM Session.call s = .ok u) (ps : List Call) :
    s.gather f (cs ++ ps) = s.gather f cs ++ u.gather f ps := by
  induction cs generalizing s with
  | nil =>
      cases hrun
      rfl
  | cons c cs ih =>
      rw [List.foldlM_cons] at hrun
      obtain ⟨s', hcall, hrun⟩ := bind_eq_ok_iff.1 hrun
      simp only [List.cons_append, gather, hcall, ih hrun, List.append_assoc]

/-- What is gathered in a single call. -/
theorem gather_singleton {α : Type} (f : Session → Call → List α) (s : Session) (c : Call) :
    s.gather f [c] = f s c := by
  unfold gather
  cases s.call c <;> simp [gather]

/-- The statement that a call processes, with the session that turns to it. -/
def receives (s : Session) : Call → List (Session × Statement OperandField)
  | .process st => [(s, st)]
  | _ => []

/-- The statement of a call, if it is a MACRO statement that starts a definition. -/
def starting (s : Session) : Call → List (Statement OperandField)
  | .process st => if s.Starts st then [st] else []
  | _ => []

/-- The definitions that are handed on when so many are ended. -/
def endings (s : Session) : Nat → List MacroDefinition
  | 0 => []
  | n + 1 =>
      s.endInnermost.completed ++
        match s.endInnermost.settle with
        | .ok u => u.endings n
        | .error _ => []

/-- The definitions that a call hands on. -/
def handedOn (s : Session) : Call → List MacroDefinition
  | .learn _ => []
  | .process st =>
      match (s.turnTo st).dispatch st with
      | .ok d => d.completed
      | .error _ => []
  | .providerFinished p => if Collector.endsWith p then s.endings s.collectors.length else []
  | .finish => s.endings s.collectors.length

/-- The statements that a run processes. -/
def received (s : Session) (cs : List Call) : List (Session × Statement OperandField) :=
  s.gather receives cs

/-- The MACRO statements of a run that start a definition. -/
def started (s : Session) (cs : List Call) : List (Statement OperandField) := s.gather starting cs

/-- The definitions that a run hands on. -/
def deliveries (s : Session) (cs : List Call) : List MacroDefinition := s.gather handedOn cs

/-- The statement that a call processes. -/
def Call.statement? : Call → Option (Statement OperandField)
  | .process st => some st
  | _ => none

/-- A run receives the statements of its calls. -/
theorem statements_received (hrun : cs.foldlM Session.call s = .ok u) :
    (s.received cs).map Prod.snd = cs.filterMap Call.statement? := by
  induction cs generalizing s with
  | nil => rfl
  | cons c cs ih =>
      rw [List.foldlM_cons] at hrun
      obtain ⟨s', hcall, hrun⟩ := bind_eq_ok_iff.1 hrun
      have hrest := ih hrun
      unfold received at hrest ⊢
      simp only [gather, hcall, List.map_append, hrest]
      cases c <;> rfl

/-- The name in the operation field of a statement. -/
def operationName (s : Session) (st : Statement OperandField) : Option String :=
  Collector.operationName s.assembly st.operation

/-- The names in the operation fields of statements. -/
def operationNames (received : List (Session × Statement OperandField)) : List (Option String) :=
  received.map fun g => g.1.operationName g.2

/-- The prototype that a session reads a statement as. -/
def prototypeOf (s : Session) (st : Statement OperandField) : Prototype :=
  Collector.prototypeOf (s.turnTo st).assembly st

/-- How often a session complains of a definition that was not closed. -/
def unterminated (s : Session) : Nat := s.diagnostics.countP (·.code == .unterminatedMacro)

/-- What a session reads a statement as is the prototype that the statement declares. -/
theorem isPrototype_prototypeOf (s : Session) (st : Statement OperandField) :
    Collector.IsPrototype s.assembly.names st (s.prototypeOf st) := by
  obtain ⟨a, heq, -, hnames⟩ := s.turnTo_eq st
  unfold prototypeOf
  rw [heq, ← hnames]
  exact Collector.isPrototype_prototypeOf a st

/-- The first of the statements is the prototype of the definition, as its label and its operands
declare it, and the others are its body, with nothing changed but the operation code. -/
def Captures (location : Location) (d : MacroDefinition) :
    List (Session × Statement OperandField) → Prop
  | [] => d.location = location ∧ d.prototype = {} ∧ d.body = []
  | (s, st) :: rest =>
      d.location = location ∧ d.prototype = s.prototypeOf st ∧
        Collector.IsPrototype s.assembly.names st d.prototype ∧
        List.Forall₂ (fun g b => b = { g.2 with opcode := b.opcode }) rest d.body

/-! ## Single calls -/

/-- Diagnostics of other kinds do not count. -/
theorem unterminated_append {codes : List DiagnosticCode} {ds : List Diagnostic}
    (hdiagnostics : s'.diagnostics = s.diagnostics ++ ds) (hds : Among codes ds)
    (hcodes : .unterminatedMacro ∉ codes) : s'.unterminated = s.unterminated := by
  have hnone : ds.countP (·.code == .unterminatedMacro) = 0 := by
    refine List.countP_eq_zero.2 fun d hd heq => hcodes ?_
    rw [← beq_iff_eq.1 heq]
    exact hds d hd
  rw [unterminated, unterminated, hdiagnostics, List.countP_append, hnone, Nat.add_zero]

/-- Every diagnostic of this kind counts. -/
theorem unterminated_of_ended {ds : List Diagnostic}
    (hdiagnostics : s'.diagnostics = s.diagnostics ++ ds) (hds : Among [.unterminatedMacro] ds) :
    s'.unterminated = s.unterminated + ds.length := by
  have hall : ds.countP (·.code == .unterminatedMacro) = ds.length :=
    List.countP_eq_length.2 fun d hd => beq_iff_eq.2 (List.mem_singleton.1 (hds d hd))
  rw [unterminated, unterminated, hdiagnostics, List.countP_append, hall]

/-- Turning to a statement does not change whether it starts a definition. -/
theorem starts_turnTo (s : Session) (st : Statement OperandField) :
    (s.turnTo st).Starts st ↔ s.Starts st := by
  obtain ⟨a, heq, hlearns, hnames⟩ := s.turnTo_eq st
  have hreading : a.openReading st.operation = s.assembly.openReading st.operation := by
    unfold Assembly.openReading Assembly.machineReading
    rw [hlearns.library, hnames]
  rw [heq]
  unfold Starts Assembly.Starts
  rw [hreading, hnames]

/-- A statement that starts a definition opens one, and does nothing else. -/
theorem Quiescent.start (hq : s.Quiescent) (hs : s.Sound) {st : Statement OperandField}
    (hst : s.Starts st) :
    ∃ s', s.Returns (.process st) s' ∧ s.handedOn (.process st) = [] ∧
      s'.collectors = [{ definition := { location := (s.turnTo st).assembly.location } }] ∧
      s'.unterminated = s.unterminated := by
  obtain ⟨a, hturned, hlearns, -⟩ := s.turnTo_eq st
  obtain ⟨d, s', hdispatch, -, hdrains, hreturns⟩ := hq.process hs st
  have hnil : (s.turnTo st).collectors = [] := by
    rw [hturned]
    exact List.isEmpty_iff.1 hst.1
  obtain ⟨o, b, notices, hok, -, ⟨-, rfl, hlayout, -, rfl⟩ | ⟨hnot, -⟩⟩ := dispatch_of_nil hnil st
  · rw [hdispatch] at hok
    cases hok
    have hready : b.layout.ready = [] := by
      rw [hlayout, hturned]
      exact hlearns.layout ▸ hq.ready
    have herrors : b.layout.errors = [] := by
      rw [hlayout, hturned]
      exact hlearns.layout ▸ hq.errors
    have hopen : (s.turnTo st).openCode = {} := by
      rw [hturned]
      exact hq.openCode
    refine ⟨s', hreturns, ?_, ?_, ?_⟩
    · rw [handedOn, hdispatch]
      show (s.turnTo st).completed = []
      rw [hturned]
      exact hq.completed
    · rw [hdrains.collectors]
      show List.map _ (_ :: (s.turnTo st).collectors) = _
      rw [hnil]
      rfl
    · have hlist : s'.diagnostics = (s.turnTo st).diagnostics := by
        refine hdrains.diagnostics_of_buffered hready ?_
        show (s.turnTo st).collectors.reverse.flatMap _ ++ (_ ++ _ ++ _) ++
          b.layout.errors.map _ = []
        rw [hnil, hopen, herrors]
        rfl
      rw [unterminated, hlist, hturned, unterminated]
  · exact absurd ((s.starts_turnTo st).2 hst) hnot

/-- An open definition takes the next statement, and the session complains of no definition that
was not closed. -/
theorem Quiescent.take (hq : s.Quiescent) (hs : s.Sound) {c : Collector}
    (hcons : s.collectors = [c]) (st : Statement OperandField) :
    ∃ s', s.Returns (.process st) s' ∧ s'.unterminated = s.unterminated ∧
      let c' := (c.take (s.turnTo st).assembly st).1
      (c'.finished = false ∧ s.handedOn (.process st) = [] ∧
          s'.collectors = [{ c' with diagnostics := [] }] ∨
        c'.finished = true ∧ s.handedOn (.process st) = [c'.definition] ∧ s'.collectors = []) := by
  obtain ⟨a, hturned, hlearns, -⟩ := s.turnTo_eq st
  obtain ⟨d, s', hdispatch, -, hdrains, hreturns⟩ := hq.process hs st
  refine ⟨s', hreturns, ?_⟩
  have hopen : c.Open := hs.collectors c (by simp [hcons])
  have hcomplaints : c.diagnostics = [] := hq.complaints c (by simp [hcons])
  have hcons' : (s.turnTo st).collectors = [c] := by
    rw [hturned]
    exact hcons
  have htaken := dispatch_of_open hcons' hopen st
  obtain ⟨hlearns', ds, hds, hdiagnostics⟩ := c.take_spec (s.turnTo st).assembly st
  have hhanded : s.handedOn (.process st) = d.completed := by rw [handedOn, hdispatch]
  generalize c.take (s.turnTo st).assembly st = taken at htaken hlearns' hdiagnostics
  obtain ⟨c', b⟩ := taken
  dsimp only at htaken hlearns' hdiagnostics ⊢
  rw [hcomplaints, List.nil_append] at hdiagnostics
  rw [hdispatch, hturned] at htaken
  have hlayout : b.layout = s.assembly.layout := by
    rw [hlearns'.layout, hturned]
    exact hlearns.layout
  have hready : b.layout.ready = [] := hlayout ▸ hq.ready
  have herrors : b.layout.errors = [] := hlayout ▸ hq.errors
  by_cases hfinished : c'.finished = true
  · rw [if_pos hfinished] at htaken
    cases htaken
    have hlist := hdrains.diagnostics_of_buffered hready
      (by simp [Session.buffered, hq.openCode, herrors])
    refine ⟨unterminated_append (hlist.trans (congrArg (_ ++ ·) hdiagnostics)) hds (by decide),
      .inr ⟨hfinished, ?_, ?_⟩⟩
    · simp [hhanded, hq.completed]
    · rw [hdrains.collectors]
      simp [startPending, hq.pendingStart]
  · rw [if_neg hfinished] at htaken
    cases htaken
    have hlist := hdrains.diagnostics
    rw [findings, released_of_ready hready] at hlist
    have hlist : s'.diagnostics = s.diagnostics ++ ds := by
      simpa [held, Session.buffered, hq.openCode, herrors, hdiagnostics] using hlist
    refine ⟨unterminated_append hlist hds (by decide),
      .inl ⟨by simpa using hfinished, ?_, ?_⟩⟩
    · simp [hhanded, hq.completed]
    · rw [hdrains.collectors]
      simp [startPending, hq.pendingStart, Collector.collect]

/-- A session at rest hands on its definition when that ends. -/
theorem Quiescent.endings (hq : s.Quiescent) (hs : s.Sound) :
    s.endings s.collectors.length = s.collectors.map (·.definition) := by
  cases hcons : s.collectors with
  | nil => rfl
  | cons c rest =>
      obtain rfl := hq.rest_eq_nil hcons
      obtain ⟨ds, hended, -⟩ :=
        endInnermost_of_cons hcons (hs.collectors c (by simp [hcons])).delivered
      have hsettle : ∃ u, s.endInnermost.settle = .ok u := by
        have hchecks : s.endInnermost.assembly.Checkable := by
          rw [hended]
          exact hs.checkable
        obtain ⟨u, hok, -⟩ := drains hchecks
        exact ⟨u, hok⟩
      obtain ⟨u, hok⟩ := hsettle
      show s.endInnermost.completed ++ _ = _
      rw [hok, hended]
      simp [Session.endings, hq.completed]

/-- Every definition that is started is handed on or stays open. -/
theorem Returns.count {c : Call} (hq : s.Quiescent) (hs : s.Sound) (h : s.Returns c s') :
    (s.handedOn c).length + s'.collectors.length =
      s.collectors.length + (s.starting c).length := by
  have hcall {t : Session} (ht : s.call c = .ok t) : t = s' := by
    have hok := h.call
    rw [ht] at hok
    exact Except.ok.inj hok
  cases c with
  | learn name =>
      obtain rfl := hcall rfl
      simp [handedOn, starting]
  | process st =>
      obtain ⟨d, t, hdispatch, hd, hdrains, hreturns⟩ := hq.process hs st
      obtain rfl := hcall hreturns.call
      have hcount := hd.collectors
      have hcollectors : (s.turnTo st).collectors = s.collectors := by
        obtain ⟨a, hturned, -⟩ := s.turnTo_eq st
        rw [hturned]
      simp only [s.starts_turnTo st, hcollectors] at hcount
      simp only [handedOn, hdispatch, hdrains.collectors, List.length_map, hcount, starting]
      split <;> rfl
  | providerFinished p =>
      by_cases hends : Collector.endsWith p = true
      · obtain ⟨t, hok, hended, -⟩ := hq.endCollectors hs
        obtain rfl := hcall (by rw [Session.call, providerFinished, if_pos hends, hok])
        simp [handedOn, hends, hq.endings hs, hended.collectors, starting]
      · obtain rfl := hcall (by rw [Session.call, providerFinished, if_neg hends])
        simp [handedOn, hends, starting]
  | finish =>
      obtain ⟨-, t, -, -, hreturns, hnil, -⟩ := hq.finish hs
      obtain rfl := hcall hreturns.call
      simp [handedOn, hq.endings hs, hnil, starting]

/-- In a run every definition that is started is handed on or stays open. -/
theorem Quiescent.count (hq : s.Quiescent) (hs : s.Sound)
    (hrun : cs.foldlM Session.call s = .ok s') :
    (s.deliveries cs).length + s'.collectors.length =
      s.collectors.length + (s.started cs).length := by
  induction cs generalizing s with
  | nil =>
      cases hrun
      simp [deliveries, started, gather]
  | cons c cs ih =>
      obtain ⟨d, hd⟩ := hq.call hs c
      rw [List.foldlM_cons, hd.call] at hrun
      have hfirst := hd.count hq hs
      have hrest := ih hd.quiescent hd.sound hrun
      simp only [deliveries, started, gather, hd.call, List.length_append] at hrest ⊢
      omega

/-! ## Runs -/

/-- Behind the calls `cs` from the session `s`, where a definition was started at a place, that
definition is still open in the session `u`. It has captured the statements received so far, its
depth follows their operations, and nothing was handed on. -/
structure Collecting (location : Location) (s : Session) (cs : List Call) (u : Session) : Prop where
  run : cs.foldlM Session.call s = .ok u
  rests : u.Sound ∧ u.Quiescent
  definition : ∃ c, u.collectors = [c] ∧ Captures location c.definition (s.received cs) ∧
    c.expectsPrototype = (s.received cs).isEmpty ∧
    (c.depth : Int) = 1 - surplus (operationNames (s.received cs).tail)
  deliveries : s.deliveries cs = []
  unterminated : u.unterminated = s.unterminated

/-- The call `c` ends the definition that is open in the session `u`: it closes it, or its provider
ends. The definition is handed on as `d`. -/
structure EndsWith (s : Session) (cs : List Call) (u : Session) (c : Call) (v : Session)
    (d : MacroDefinition) : Prop where
  call : u.call c = .ok v
  handedOn : u.handedOn c = [d]
  collectors : v.collectors = []
  cause :
    (∃ st, c = .process st ∧ u.operationName st = some "MEND" ∧
        surplus (operationNames (s.received (cs ++ [c])).tail) = 1 ∧
        v.unterminated = u.unterminated) ∨
      ((∃ p, Collector.endsWith p = true ∧ c = .providerFinished p) ∨ c = .finish) ∧
        v.unterminated = u.unterminated + 1

/-- Where only statements are told, a definition ends with the first of them by which the MEND
operations get one ahead. -/
theorem EndsWith.length_eq {c : Call} {d : MacroDefinition} {told rest : List Call} {n : Nat}
    (h : EndsWith s cs u c v d) (hsplit : told = cs ++ c :: rest)
    (hopen : ∀ ps, ps <+: cs → surplus (operationNames (s.received ps).tail) < 1)
    (hprocess : ∀ k < n, ∃ st, told[k]? = some (.process st))
    (hbefore : ∀ k < n, surplus (operationNames (s.received (told.take (k + 1))).tail) ≠ 1)
    (hbehind : surplus (operationNames (s.received (told.take (n + 1))).tail) = 1) :
    cs.length = n := by
  refine Nat.le_antisymm (Nat.le_of_not_lt fun hlong => ?_) (Nat.le_of_not_lt fun hshort => ?_)
  · have hless := hopen _ (List.take_prefix (n + 1) cs)
    have htake : told.take (n + 1) = cs.take (n + 1) := by
      rw [hsplit]
      exact List.take_append_of_le_length hlong
    rw [← htake, hbehind] at hless
    omega
  · obtain ⟨st, hst⟩ := hprocess _ hshort
    obtain rfl : c = .process st := by simpa [hsplit] using hst
    have htake : cs ++ [.process st] = told.take (cs.length + 1) := by
      simp [hsplit, List.take_append]
    obtain ⟨-, -, -, hsurplus, -⟩ | ⟨⟨p, -, hp⟩ | hp, -⟩ := h.cause
    · exact hbefore _ hshort (htake ▸ hsurplus)
    · cases hp
    · cases hp

/-- The operations count one by one. -/
theorem surplus_append (names : List (Option String)) (name : Option String) :
    surplus (names ++ [name]) = surplus names +
      if name = some "MEND" then 1 else if name = some "MACRO" then -1 else 0 := by
  unfold surplus
  simp only [List.count_append, List.count_singleton, beq_iff_eq]
  by_cases hmend : name = some "MEND"
  · subst hmend
    simp
    omega
  · by_cases hmacro : name = some "MACRO"
    · subst hmacro
      simp
      omega
    · simp [hmend, hmacro]

/-- The depth of an open definition follows the operations that it receives. -/
theorem depthAfter_eq_surplus {names : List (Option String)} {depth : Nat} (name : Option String)
    (hpositive : 0 < depth) (h : (depth : Int) = 1 - surplus names) :
    (Collector.depthAfter name depth : Int) = 1 - surplus (names ++ [name]) := by
  rw [surplus_append]
  unfold Collector.depthAfter
  split
  · rename_i hopening
    simp [hopening]
    omega
  · split <;> omega

/-- Turning to a statement does not change the name of its operation. -/
theorem operationName_turnTo (s : Session) (st : Statement OperandField) :
    Collector.operationName (s.turnTo st).assembly st.operation = s.operationName st := by
  obtain ⟨a, heq, -, hnames⟩ := s.turnTo_eq st
  unfold operationName Collector.operationName
  rw [heq, hnames]

namespace Collecting

/-- The record of a run with one more call. -/
theorem received_append (h : Collecting location s cs u) (c : Call) :
    s.received (cs ++ [c]) = s.received cs ++ u.receives c := by
  rw [received, gather_append h.run, gather_singleton]
  rfl

theorem deliveries_append (h : Collecting location s cs u) (c : Call) :
    s.deliveries (cs ++ [c]) = u.handedOn c := by
  rw [Session.deliveries, gather_append h.run, gather_singleton]
  exact congrArg (· ++ _) h.deliveries

/-- A run with one more call. -/
theorem run_append (h : Collecting location s cs u) {c : Call} (hreturns : u.Returns c v) :
    (cs ++ [c]).foldlM Session.call s = .ok v := by
  rw [List.foldlM_append, h.run]
  show [c].foldlM Session.call u = .ok v
  rw [List.foldlM_cons, hreturns.call]
  rfl

/-- A call that receives nothing and keeps the definition. -/
theorem keep (h : Collecting location s cs u) {c : Call} (hreturns : u.Returns c v)
    (hcollectors : v.collectors = u.collectors) (hreceives : u.receives c = [])
    (hhanded : u.handedOn c = []) (hlist : v.diagnostics = u.diagnostics) :
    Collecting location s (cs ++ [c]) v := by
  have hreceived : s.received (cs ++ [c]) = s.received cs := by
    rw [h.received_append, hreceives, List.append_nil]
  refine ⟨h.run_append hreturns, ⟨hreturns.sound, hreturns.quiescent⟩, ?_, ?_, ?_⟩
  · rw [hcollectors, hreceived]
    exact h.definition
  · rw [h.deliveries_append, hhanded]
  · rw [Session.unterminated, hlist]
    exact h.unterminated

/-- A statement that the definition takes and that does not close it. -/
theorem take (h : Collecting location s cs u) {st : Statement OperandField} {c : Collector}
    (hreturns : u.Returns (.process st) v) (hunterminated : v.unterminated = u.unterminated)
    (hcollectors : v.collectors = [c]) (hhanded : u.handedOn (.process st) = [])
    (hexpects : c.expectsPrototype = false)
    (hcaptures : Captures location c.definition (s.received cs ++ [(u, st)]))
    (hdepth : (c.depth : Int) = 1 - surplus (operationNames (s.received cs ++ [(u, st)]).tail)) :
    Collecting location s (cs ++ [.process st]) v := by
  have hreceived : s.received (cs ++ [.process st]) = s.received cs ++ [(u, st)] :=
    h.received_append (.process st)
  refine ⟨h.run_append hreturns, ⟨hreturns.sound, hreturns.quiescent⟩, ⟨c, hcollectors, ?_⟩, ?_, ?_⟩
  · rw [hreceived, hexpects]
    exact ⟨hcaptures, by simp, hdepth⟩
  · rw [h.deliveries_append, hhanded]
  · exact hunterminated.trans h.unterminated

/-- An open definition takes its first statement as its prototype. -/
theorem process_prototype (h : Collecting location s cs u) (hnil : s.received cs = [])
    (st : Statement OperandField) : ∃ v, Collecting location s (cs ++ [.process st]) v := by
  obtain ⟨hsound, hquiescent⟩ := h.rests
  obtain ⟨c, hcons, hcaptures, hexpects, hdepth⟩ := h.definition
  obtain ⟨v, hreturns, hunterminated, htaken⟩ := hquiescent.take hsound hcons st
  have hopen : c.Open := hsound.collectors c (by simp [hcons])
  rw [hnil] at hcaptures hexpects hdepth
  obtain ⟨ds, a, -, -, htake⟩ := Collector.take_prototype hexpects (u.turnTo st).assembly st
  rw [htake] at htaken
  obtain ⟨hlocation, -, hbody⟩ := hcaptures
  rcases htaken with ⟨-, hhanded, hcollectors⟩ | ⟨hfinished, -⟩
  · refine ⟨v, h.take hreturns hunterminated hcollectors hhanded rfl ?_ ?_⟩
    · rw [hnil]
      exact ⟨hlocation, rfl, u.isPrototype_prototypeOf st, hbody ▸ .nil⟩
    · rw [hnil]
      exact hdepth
  · exact absurd hfinished (by simp [hopen.finished])

/-- Behind its prototype, an open definition takes the next statement into its body, unless that
closes it. -/
theorem process_body (h : Collecting location s cs u) {first : Session × Statement OperandField}
    {rest : List (Session × Statement OperandField)} (hrecord : s.received cs = first :: rest)
    (st : Statement OperandField) :
    (∃ v, Collecting location s (cs ++ [.process st]) v) ∨
      ∃ v d, EndsWith s cs u (.process st) v d ∧ Captures location d (s.received cs) := by
  obtain ⟨hsound, hquiescent⟩ := h.rests
  obtain ⟨c, hcons, hcaptures, hexpects, hdepth⟩ := h.definition
  obtain ⟨v, hreturns, hunterminated, htaken⟩ := hquiescent.take hsound hcons st
  have hopen : c.Open := hsound.collectors c (by simp [hcons])
  have hreceived : s.received (cs ++ [.process st]) = s.received cs ++ [(u, st)] :=
    h.received_append (.process st)
  rw [hrecord] at hcaptures hexpects hdepth
  obtain ⟨marks, ds, a, -, -, htake⟩ := Collector.take_body hexpects (u.turnTo st).assembly st
  rw [htake, operationName_turnTo] at htaken
  obtain ⟨hlocation, hprototype, hdeclares, hbody⟩ := hcaptures
  have hsurplus : (Collector.depthAfter (u.operationName st) c.depth : Int) =
      1 - surplus (operationNames (first :: rest ++ [(u, st)]).tail) := by
    have hnames : operationNames (rest ++ [(u, st)]) =
        operationNames rest ++ [u.operationName st] :=
      List.map_append
    rw [List.cons_append, List.tail_cons, hnames]
    exact depthAfter_eq_surplus _ hopen.depth hdepth
  dsimp only at htaken
  by_cases hclosing : u.operationName st = some "MEND" ∧
      Collector.depthAfter (u.operationName st) c.depth = 0
  · rw [if_pos hclosing] at htaken
    rcases htaken with ⟨hfinished, -⟩ | ⟨-, hhanded, hcollectors⟩
    · cases hfinished
    · refine .inr ⟨v, _, ⟨hreturns.call, hhanded, hcollectors, .inl ?_⟩,
        hrecord ▸ ⟨hlocation, hprototype, hdeclares, hbody⟩⟩
      refine ⟨st, rfl, hclosing.1, ?_, hunterminated⟩
      rw [hreceived, hrecord]
      rw [hclosing.2] at hsurplus
      omega
  · rw [if_neg hclosing] at htaken
    rcases htaken with ⟨-, hhanded, hcollectors⟩ | ⟨hfinished, -⟩
    · refine .inl ⟨v, h.take hreturns hunterminated hcollectors hhanded hexpects ?_ ?_⟩
      · rw [hrecord]
        exact ⟨hlocation, hprototype, hdeclares, List.rel_append hbody (.cons rfl .nil)⟩
      · rw [hrecord]
        exact hsurplus
    · exact absurd hfinished (by simp [Collector.append, hopen.finished])

/-- An open definition takes the next statement as its prototype or into its body, unless that
closes it. -/
theorem process (h : Collecting location s cs u) (st : Statement OperandField) :
    (∃ v, Collecting location s (cs ++ [.process st]) v) ∨
      ∃ v d, EndsWith s cs u (.process st) v d ∧ Captures location d (s.received cs) := by
  cases hrecord : s.received cs with
  | nil => exact .inl (h.process_prototype hrecord st)
  | cons first rest => exact hrecord ▸ h.process_body hrecord st

/-- The end of a provider ends the definition, which then was not closed. -/
theorem ends (h : Collecting location s cs u) {c : Call}
    (hc : (∃ p, Collector.endsWith p = true ∧ c = .providerFinished p) ∨ c = .finish) :
    ∃ v d, EndsWith s cs u c v d ∧ Captures location d (s.received cs) := by
  obtain ⟨hsound, hquiescent⟩ := h.rests
  obtain ⟨o, hcons, hcaptures, -⟩ := h.definition
  have hendings : u.endings u.collectors.length = [o.definition] := by
    rw [hquiescent.endings hsound, hcons]
    rfl
  have hone {w : Session} (hw : u.Ended w) : w.unterminated = u.unterminated + 1 := by
    obtain ⟨ds, hdiagnostics, hds, hlength⟩ := hw.diagnostics
    rw [unterminated_of_ended hdiagnostics hds, hlength, hcons]
    rfl
  rcases hc with ⟨p, hp, rfl⟩ | rfl
  · obtain ⟨v, hok, hended, -⟩ := hquiescent.endCollectors hsound
    refine ⟨v, o.definition, ⟨?_, ?_, hended.collectors, .inr ⟨.inl ⟨p, hp, rfl⟩, hone hended⟩⟩,
      hcaptures⟩
    · rw [Session.call, providerFinished, if_pos hp, hok]
    · rw [handedOn, if_pos hp, hendings]
  · obtain ⟨w, v, ds, hended, hreturns, hnil, hdiagnostics, hds⟩ := hquiescent.finish hsound
    refine ⟨v, o.definition, ⟨hreturns.call, hendings, hnil, .inr ⟨.inr rfl, ?_⟩⟩, hcaptures⟩
    rw [unterminated_append hdiagnostics hds (by decide), hone hended]

/-- A definition that is open stays open or ends with the next call. -/
theorem step (h : Collecting location s cs u) (c : Call) :
    (∃ v, Collecting location s (cs ++ [c]) v) ∨
      ∃ v d, EndsWith s cs u c v d ∧ Captures location d (s.received cs) := by
  obtain ⟨hsound, hquiescent⟩ := h.rests
  obtain ⟨v, hreturns⟩ := hquiescent.call hsound c
  cases c with
  | learn name =>
      cases hreturns.call
      exact .inl ⟨_, h.keep hreturns rfl rfl rfl rfl⟩
  | process st => exact h.process st
  | providerFinished p =>
      by_cases hp : Collector.endsWith p = true
      · exact .inr (h.ends (.inl ⟨p, hp, rfl⟩))
      · have hsame : v = u := by
          have hok := hreturns.call
          rw [Session.call, providerFinished, if_neg hp] at hok
          exact (Except.ok.inj hok).symm
        subst hsame
        exact .inl ⟨v, h.keep hreturns rfl rfl (by simp [handedOn, hp]) rfl⟩
  | finish => exact .inr (h.ends (.inr rfl))

/-- An open definition ends by the end of the source at the latest. -/
theorem exists_ends (h : Collecting location s cs u) (after : List Call) :
    ∃ inside c rest u v d, after ++ [.finish] = inside ++ c :: rest ∧
      (∀ ps, ps <+: inside → ∃ w, Collecting location s (cs ++ ps) w) ∧
      Collecting location s (cs ++ inside) u ∧ EndsWith s (cs ++ inside) u c v d ∧
      Captures location d (s.received (cs ++ inside)) := by
  induction after generalizing cs u with
  | nil =>
      obtain ⟨v, d, hends, hcaptures⟩ := h.ends (c := .finish) (.inr rfl)
      rw [← List.append_nil cs] at h hends hcaptures
      refine ⟨[], .finish, [], u, v, d, rfl, fun ps hps => ?_, h, hends, hcaptures⟩
      exact ⟨u, List.prefix_nil.1 hps ▸ h⟩
  | cons c after ih =>
      rcases h.step c with ⟨v, hv⟩ | ⟨v, d, hends, hcaptures⟩
      · obtain ⟨inside, c', rest, u', v', d, hsplit, hprefixes, hu', hends, hcaptures⟩ := ih hv
        rw [List.append_assoc, List.singleton_append] at hu' hends hcaptures
        refine ⟨c :: inside, c', rest, u', v', d, congrArg (c :: ·) hsplit, fun ps hps => ?_, hu',
          hends, hcaptures⟩
        rcases List.prefix_cons_iff.1 hps with rfl | ⟨qs, rfl, hqs⟩
        · exact ⟨u, (List.append_nil cs).symm ▸ h⟩
        · obtain ⟨w, hw⟩ := hprefixes qs hqs
          rw [List.append_assoc, List.singleton_append] at hw
          exact ⟨w, hw⟩
      · rw [← List.append_nil cs] at h hends hcaptures
        refine ⟨[], c, after ++ [.finish], u, v, d, rfl, fun ps hps => ?_, h, hends, hcaptures⟩
        exact ⟨u, List.prefix_nil.1 hps ▸ h⟩

end Collecting

/-! ## Definitions -/

/-- Whatever a session has been told, a MACRO statement that it finds in open code opens a
definition there, and whatever it is told next, up to the end of the source, hands that definition
on. So many calls keep it open; behind each of them its depth is one and the MACRO operations less
the MEND operations since the prototype, these are not one ahead of those, nothing has been handed
on, and no complaint about an end has been made. The call behind them ends it, and hands on one
definition that has captured the statements received in between: the first as its prototype,
whatever that is, by the rules for prototypes, and the others as its body. Either that call
processes the MEND by which the MEND operations get one ahead, or the provider ends there, which is
complained of once. Open code gets what follows. And in all the calls hand on one definition more
than later MACRO statements start. -/
theorem definition_captures {file : String} {tracing : Tracing} {before : List Call}
    (hrun : before.foldlM Session.call (start file tracing) = .ok s)
    {st : Statement OperandField} (hst : s.Starts st) (after : List Call) :
    let location := (s.turnTo st).assembly.location
    let told := after ++ [.finish]
    ∃ s₁ t, s.call (.process st) = .ok s₁ ∧ told.foldlM Session.call s₁ = .ok t ∧
      s.handedOn (.process st) = [] ∧ s₁.unterminated = s.unterminated ∧
      (∃ inside c rest u v d, told = inside ++ c :: rest ∧
        (∀ ps, ps <+: inside → ∃ w, Collecting location s₁ ps w ∧
          surplus (operationNames (s₁.received ps).tail) < 1) ∧
        Collecting location s₁ inside u ∧ EndsWith s₁ inside u c v d ∧
        Captures location d (s₁.received inside)) ∧
      (s₁.deliveries told).length = (s₁.started told).length + 1 := by
  intro location told
  obtain ⟨hsound₀, hquiescent₀⟩ := quiescent_start file tracing
  obtain ⟨s', hok, hsound, hquiescent⟩ := hquiescent₀.calls hsound₀ before
  obtain rfl : s' = s := Except.ok.inj (hok.symm.trans hrun)
  obtain ⟨s₁, hreturns, hhanded, hcollectors, hunterminated⟩ := hquiescent.start hsound hst
  have hcollecting : Collecting location s₁ [] s₁ := by
    refine ⟨rfl, ⟨hreturns.sound, hreturns.quiescent⟩, ⟨_, hcollectors, ?_, rfl, rfl⟩, rfl, rfl⟩
    exact ⟨rfl, rfl, rfl⟩
  obtain ⟨t, htold, -⟩ := hreturns.quiescent.calls hreturns.sound told
  obtain ⟨inside, c, rest, u, v, d, hsplit, hprefixes, hopen, hends, hcaptures⟩ :=
    hcollecting.exists_ends after
  refine ⟨s₁, t, hreturns.call, htold, hhanded, hunterminated,
    ⟨inside, c, rest, u, v, d, hsplit, fun ps hps => ?_, hopen, hends, hcaptures⟩, ?_⟩
  · obtain ⟨w, hw⟩ := hprefixes ps hps
    obtain ⟨o, ho, -, -, hdepth⟩ := hw.definition
    have hpositive : 0 < o.depth := (hw.rests.1.collectors o (by simp [ho])).depth
    refine ⟨w, hw, ?_⟩
    change (o.depth : Int) = 1 - surplus (operationNames (s₁.received ps).tail) at hdepth
    omega
  · -- the end of the source leaves no definition open
    have hnil : t.collectors = [] := by
      obtain ⟨r, hr, hrsound, hrquiescent⟩ := hreturns.quiescent.calls hreturns.sound after
      obtain ⟨-, t', -, -, hfinish, hnil, -⟩ := hrquiescent.finish hrsound
      rw [List.foldlM_append, hr] at htold
      change [Call.finish].foldlM Session.call r = .ok t at htold
      rw [List.foldlM_cons, hfinish.call] at htold
      exact Except.ok.inj htold ▸ hnil
    have hcount := hreturns.quiescent.count hreturns.sound htold
    rw [hnil, hcollectors] at hcount
    simpa [Nat.add_comm] using hcount

/-- Six names are met. -/
def nestedNames : List Call :=
  ["MACRO", "MEND", "OUTER", "INNER", "P", "LR"].map .learn

/-- A session that has met these names, behind some calls. -/
def nestedSession (calls : List Call) : Session :=
  let s := start "nested" .off
  ((nestedNames ++ calls).foldlM Session.call s).toOption.getD s

theorem nestedSession_spec (calls : List Call) :
    (nestedNames ++ calls).foldlM Session.call (start "nested" .off) =
      .ok (nestedSession calls) := by
  obtain ⟨hsound, hquiescent⟩ := quiescent_start "nested" .off
  obtain ⟨s, hok, -⟩ := hquiescent.calls hsound (nestedNames ++ calls)
  rw [nestedSession, hok]
  rfl

/-- A statement with one of the names as its operation. -/
def plainStatement (operation : Nat) : Statement OperandField :=
  ⟨.empty, .ordinary ⟨operation⟩ {}, {}, .text "" {}, {}⟩

/-- `OUTER &P`, the prototype of a definition. -/
def outerPrototype : Statement OperandField :=
  { plainStatement 2 with
    operands := .operands [.concatenation [.reference (.named ⟨4⟩ [] {})] {}] }

/-- Behind the prototype a statement, and a whole definition. -/
def outerBody : List (Statement OperandField) :=
  [{ plainStatement 5 with operands := .text "1,&P" {} }, plainStatement 0, plainStatement 3,
    plainStatement 1]

/-- The definition with the MEND that closes it, and a statement of open code behind that. -/
def outerCalls : List Call :=
  (outerPrototype :: outerBody ++ [plainStatement 1, plainStatement 5]).map .process

/-- The definition with a definition in it ends with the second MEND. Its body is all that stands
between its prototype and that MEND, and there is no complaint that it was not closed. -/
theorem outerBody_captured :
    let s := nestedSession []
    let s₁ := nestedSession [.process (plainStatement 0)]
    let inside := (outerPrototype :: outerBody).map Call.process
    s.Starts (plainStatement 0) ∧ s.call (.process (plainStatement 0)) = .ok s₁ ∧
      ∃ u v d, Collecting d.location s₁ inside u ∧
        EndsWith s₁ inside u (.process (plainStatement 1)) v d ∧ v.unterminated = 0 ∧
        d.prototype = ⟨some ⟨2⟩, none, [.positional ⟨4⟩]⟩ ∧
        List.Forall₂ (fun st b => b = { st with opcode := b.opcode }) outerBody d.body ∧
        (s₁.deliveries (outerCalls ++ [.finish])).length = 1 := by
  intro s s₁ inside
  have hstarts : s.Starts (plainStatement 0) := by decide +kernel
  have hrun := nestedSession_spec []
  have hcall : s.call (.process (plainStatement 0)) = .ok s₁ := by
    have hnext := nestedSession_spec [.process (plainStatement 0)]
    rw [List.foldlM_append, ← List.append_nil nestedNames, hrun] at hnext
    obtain ⟨_, hs, hnext⟩ := bind_eq_ok_iff.1 hnext
    obtain rfl := Except.ok.inj hs
    simpa only [List.foldlM_cons, List.foldlM_nil, bind_pure] using hnext
  obtain ⟨s', t, hcall', -, -, hunterminated, ⟨inside', c, rest, u, v, d, hsplit, hprefixes, hopen,
      hends, hcaptures⟩, hcount⟩ := definition_captures hrun hstarts outerCalls
  obtain rfl : s₁ = s' := Except.ok.inj (hcall.symm.trans hcall')
  -- the MEND operations get ahead with the sixth call, and not before
  have hplace : inside'.length = 5 := by
    refine hends.length_eq hsplit (fun ps hps => ?_) (fun k hk => ?_) (by decide +kernel)
      (by decide +kernel)
    · obtain ⟨w, -, hless⟩ := hprefixes ps hps
      exact hless
    · interval_cases k <;> exact ⟨_, rfl⟩
  have hparts : inside ++ [.process (plainStatement 1), .process (plainStatement 5), .finish] =
      inside' ++ c :: rest := hsplit
  obtain ⟨rfl, hrest⟩ := List.append_inj hparts hplace.symm
  obtain ⟨rfl, -⟩ := List.cons.inj hrest
  obtain ⟨others, hreceived⟩ : ∃ others, s₁.received inside = (s₁, outerPrototype) :: others :=
    ⟨_, rfl⟩
  have hstatements := statements_received hopen.run
  rw [hreceived] at hcaptures hstatements
  obtain ⟨hlocation, hprototype, -, hbody⟩ := hcaptures
  refine ⟨hstarts, hcall, u, v, d, hlocation ▸ hopen, hends, ?_, hprototype.trans rfl, ?_, ?_⟩
  · have hnone : s.unterminated = 0 := by decide +kernel
    obtain ⟨-, -, -, -, hsame⟩ | ⟨⟨p, -, hp⟩ | hp, -⟩ := hends.cause
    · rw [hsame, hopen.unterminated, hunterminated, hnone]
    · cases hp
    · cases hp
  · have hothers : outerBody = others.map Prod.snd := (List.cons.inj hstatements).2.symm
    rw [hothers, List.forall₂_map_left_iff]
    exact hbody
  · have hstarted : (s₁.started (outerCalls ++ [.finish])).length = 0 := by decide +kernel
    rw [hcount, hstarted]

end Session

end MacroAssembler
