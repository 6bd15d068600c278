import MacroAssembler.Proofs.Assembly.Finality
import MacroAssembler.Proofs.Field.IndexedReading
import MacroAssembler.Proofs.Layout.Moments

/-!
# No contract is broken

Statements of sources may be converted, and converted statements be processed, at any time and in
any order, with any other calls of the session in between. Whatever is done, no part of the
assembler breaks a contract: none raises a fault, the count of open MACRO statements stays positive,
no space gets a length twice, and no reader of a field looks outside of its text
(`tasks_faultless`).
-/

namespace MacroAssembler

open Layout (Move History Journal)

/-! ## Tasks -/

/-- What can be done with a session and the statements of sources. -/
inductive Task where
  /-- Convert a statement of a source that stands in that line. -/
  | convert (statement : SourceStatement) (line : Nat)
  /-- Process the statement that was converted at that place, if there is one. -/
  | process (place : Nat)
  /-- Call the session. -/
  | call (c : Session.Call)

/-- A session and the statements that were converted for it. -/
structure Driver where
  session : Session
  converted : List (Statement OperandField) := []

namespace Driver

/-- The driver after a task. -/
def perform (d : Driver) : Task → Except Fault Driver
  | .convert statement line =>
      let (st, names) := statement.toStatement line d.session.assembly.names
      let assembly := { d.session.assembly with names }
      .ok { session := { d.session with assembly }, converted := d.converted ++ [st] }
  | .process place =>
      match d.converted[place]? with
      | some st => do return { d with session := ← d.session.process st }
      | none => .ok d
  | .call c => do return { d with session := ← d.session.call c }

/-- The moves of a task. -/
def moves (d : Driver) : Task → List (Move Postponed)
  | .convert _ _ => []
  | .process place =>
      match d.converted[place]? with
      | some st => d.session.moves st
      | none => []
  | .call c => d.session.callMoves c

/-- The moves of several tasks. -/
def allMoves (d : Driver) : List Task → List (Move Postponed)
  | [] => []
  | t :: ts =>
      d.moves t ++
        match d.perform t with
        | .ok d => d.allMoves ts
        | .error _ => []

/-- Nothing that a driver holds can break a contract later. -/
structure Safe (d : Driver) (h : History Postponed) : Prop where
  follows : d.session.Follows h
  sound : d.session.Sound
  quiescent : d.session.Quiescent

variable {d : Driver} {h : History Postponed}

/-- Converting a statement only learns names. -/
theorem Safe.convert (hd : d.Safe h) (statement : SourceStatement) (line : Nat) :
    ∃ d', d.perform (.convert statement line) = .ok d' ∧ d'.Safe h := by
  have hgrows := statement.toStatement_grows line d.session.assembly.names
  have hread := hd.follows.readNext (statement, line)
  have hq := hd.quiescent
  exact ⟨_, rfl, hread.follows, ⟨hd.sound.checkable.grow rfl hgrows, hd.sound.collectors⟩,
    ⟨hq.collectors, hq.ready, hq.errors, hq.events, hq.openCode, hq.complaints, hq.pendingStart,
      hq.completed⟩⟩

/-- A call breaks no contract. -/
theorem Safe.call (hd : d.Safe h) (c : Session.Call) :
    ∃ s', d.session.call c = .ok s' ∧
      { d with session := s' }.Safe (h.makeAll (d.session.callMoves c)) ∧
      h.layout.Legal (d.session.callMoves c) := by
  obtain ⟨s', hok, hfollows, hlegal⟩ := hd.follows.call c
  obtain ⟨u, hreturns⟩ := hd.quiescent.call hd.sound c
  obtain rfl : s' = u := Except.ok.inj (hok.symm.trans hreturns.call)
  exact ⟨s', hok, ⟨hfollows, hreturns.sound, hreturns.quiescent⟩, hlegal⟩

/-- A task breaks no contract. -/
theorem Safe.perform (hd : d.Safe h) (t : Task) :
    ∃ d', d.perform t = .ok d' ∧ d'.Safe (h.makeAll (d.moves t)) ∧ h.layout.Legal (d.moves t) := by
  cases t with
  | convert statement line =>
      obtain ⟨d', hok, hd'⟩ := hd.convert statement line
      exact ⟨d', hok, hd', trivial⟩
  | process place =>
      cases hst : d.converted[place]? with
      | none => exact ⟨d, by simp [Driver.perform, hst], by simpa [moves, hst] using hd,
          by simp [moves, hst, Layout.Legal]⟩
      | some st =>
          obtain ⟨s', hok, hd', hlegal⟩ := hd.call (.process st)
          simp only [Driver.perform, moves, hst, show d.session.process st = .ok s' from hok]
          exact ⟨_, rfl, hd', hlegal⟩
  | call c =>
      obtain ⟨s', hok, hd', hlegal⟩ := hd.call c
      simp only [Driver.perform, moves, hok]
      exact ⟨_, rfl, hd', hlegal⟩

/-- No run of tasks breaks a contract. -/
theorem Safe.performAll (hd : d.Safe h) (ts : List Task) :
    ∃ d', ts.foldlM Driver.perform d = .ok d' ∧ d'.Safe (h.makeAll (d.allMoves ts)) ∧
      h.layout.Legal (d.allMoves ts) := by
  induction ts generalizing d h with
  | nil => exact ⟨d, rfl, hd, trivial⟩
  | cons t ts ih =>
      obtain ⟨d₁, hok, hd₁, hlegal⟩ := hd.perform t
      obtain ⟨d', hok', hd', hlegal'⟩ := ih hd₁
      refine ⟨d', ?_, ?_, ?_⟩
      · rw [List.foldlM_cons, hok]
        exact hok'
      · rw [allMoves, hok, History.makeAll_append]
        exact hd'
      · rw [allMoves, hok]
        exact Layout.legal_append.2 ⟨hlegal, History.layout_makeAll h _ ▸ hlegal'⟩

/-- The start of a session is safe. -/
theorem safe_start (file : String) (tracing : Tracing) : Safe ⟨.start file tracing, []⟩ {} :=
  have ⟨hsound, hquiescent⟩ := Session.quiescent_start file tracing
  ⟨Session.follows_start file tracing, hsound, hquiescent⟩

/-- Statements of sources can be converted, converted statements be processed, and the session be
called, in any order and as often as one likes: no fault is raised. Whatever was done before, a
definition that is open takes statements and has MACRO statements to close, so that no MEND counts
below zero. The layout is that of the moves that were made, and at no moment of its run an entry
waits for the length of a space that has one already. And readers that go through the text of a
field by number, and fail when they leave it, read the same as those of the assembler: the three
fields of a statement that is converted, and the operands of one that is processed. -/
theorem tasks_faultless (file : String) (tracing : Tracing) (tasks : List Task) :
    let start : Driver := ⟨.start file tracing, []⟩
    let requests := (start.allMoves tasks).flatMap Move.requests
    ∃ d, tasks.foldlM perform start = .ok d ∧
      (∀ c ∈ d.session.collectors, c.finished = false ∧ 0 < c.depth) ∧
      d.session.assembly.layout = Layout.run {} requests ∧
      (∀ j ∈ Journal.story {} requests, ∀ e ∈ j.layout.entries, ∀ space,
        e.target = some (.space space) → j.layout.table.length? space = none) ∧
      (∀ (s : SourceStatement) line names,
        s.toStatementAt line names = some (s.toStatement line names)) ∧
      ∀ (s : Statement OperandField) form names,
        s.readAt form names = some (s.read form names) := by
  intro start requests
  obtain ⟨d, hok, hd, hlegal⟩ := (safe_start file tracing).performAll tasks
  refine ⟨d, hok, fun c hc => ?_, ?_, fun j hj e he space htarget => ?_,
    SourceStatement.toStatementAt_eq, Statement.readAt_eq⟩
  · have hopen := hd.sound.collectors c hc
    exact ⟨hopen.finished, hopen.depth⟩
  · rw [← hd.follows.assembly.layout, History.layout_makeAll, Layout.makeAll_eq_run]
  · obtain ⟨aside, hsound⟩ := Layout.tracked_empty.sound_story hlegal rfl hj
    exact hsound.length_eq_none he htarget

end Driver

end MacroAssembler
