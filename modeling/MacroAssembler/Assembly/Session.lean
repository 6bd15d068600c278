import MacroAssembler.Assembly.Collector
import MacroAssembler.Tracing

/-!
# Sessions

A session processes the statements of a file one after the other. Open code receives them until a
macro definition is started; the definition then receives them until it is closed. After each
statement completed definitions are added to the library, checks that the layout has released are
made, and the diagnostics of all parts are moved to the list of the session.
-/

namespace MacroAssembler

/-- The state of a session. -/
structure Session where
  assembly : Assembly := {}
  openCode : OpenCode := {}
  /-- The definitions that are being collected, the innermost first. -/
  collectors : List Collector := []
  /-- A definition that is to be started after the statement. -/
  pendingStart : Option Location := none
  /-- Definitions that are complete and not yet in the library. -/
  completed : List MacroDefinition := []
  calls : List MacroCall := []
  diagnostics : List Diagnostic := []
  tracing : Tracing := .off

namespace Session

/-- The start of a session on a file. -/
def start (file : String) (tracing : Tracing) : Session :=
  { assembly := .start file, tracing }

/-- Report something. -/
def report (s : Session) (e : Event) : Session := { s with assembly := s.assembly.report e }

/-- Note what a statement asks for. -/
def notice (s : Session) : Notice → Session
  | .definitionStarted location => { s with pendingStart := some location }
  | .definitionFinished d => { s with completed := s.completed ++ [d] }
  | .macroCalled c => { s with calls := s.calls ++ [c] }

/-- Note all that a statement asks for. -/
def noticeAll (s : Session) (ns : List Notice) : Session := ns.foldl notice s

/-- Start the definition that a statement asked for. -/
def startPending (s : Session) : Session :=
  match s.pendingStart with
  | none => s
  | some location =>
      let (c, assembly) := Collector.start s.assembly location
      { s with assembly, collectors := c :: s.collectors, pendingStart := none }

/-- Add a definition to the library; without a name it cannot be called and is dropped. -/
def register (a : Assembly) (d : MacroDefinition) : Assembly :=
  match d.prototype.name with
  | none => a.report .macroDropped
  | some name =>
      let a := a.report (.macroDefined name d.body.length)
      let a := { a with library := a.library.set name d }
      a.report (.macroRegistered (a.names.nameOf name))

/-- Add the completed definitions to the library. -/
def registerCompleted (s : Session) : Session :=
  { s with assembly := s.completed.foldl register s.assembly, completed := [] }

/-- Make the checks that the layout has released. -/
def replay (s : Session) : Except Fault Session := do
  let (ready, assembly) := s.assembly.request (·.takeReady)
  let (openCode, assembly) ← s.openCode.replayAll assembly ready
  return { s with openCode, assembly }

/-- Move the diagnostics of all parts to the list of the session: those of the definitions, the
outermost first, of open code, and of the layout. -/
def collect (s : Session) : Session :=
  let collected := s.collectors.map Collector.collect
  let (fromOpenCode, openCode) := s.openCode.collect
  let (fromLayout, assembly) := s.assembly.takeLayoutDiagnostics
  { s with
    assembly, openCode
    collectors := collected.map Prod.snd
    diagnostics :=
      s.diagnostics ++ (collected.reverse.flatMap Prod.fst) ++ fromOpenCode ++ fromLayout }

/-- What is done after each statement. -/
def settle (s : Session) : Except Fault Session := do
  let s ← s.startPending.registerCompleted.replay
  return s.collect

/-- The operation of a statement as it is traced. -/
def subject (s : Session) : Operation → String
  | .ordinary id _ => s.assembly.names.nameOf id
  | .concatenation _ _ => "<concatenation>"
  | .empty _ => "<empty>"

/-- End the innermost definition and take it off. -/
def endInnermost (s : Session) : Session :=
  match s.collectors with
  | [] => s
  | c :: rest =>
      let (c, notices) := c.finish s.assembly
      { s with
        collectors := rest
        diagnostics := s.diagnostics ++ c.collect.1 }.noticeAll notices

/-- Hand a statement to the innermost definition, or to open code. -/
def dispatch (s : Session) (st : Statement OperandField) : Except Fault Session :=
  match s.collectors with
  | [] => do
      let reading := s.assembly.openReading st.operation
      let a := s.assembly.report (.statementRead .openCode st.range reading.form)
      let (openCode, assembly, notices) ←
        s.openCode.process a { st with opcode := reading.opcode }
      return { s with openCode, assembly }.noticeAll notices
  | c :: rest => do
      let (reading, c, a) := c.reading s.assembly st.operation
      let a := a.report (.statementRead .definition st.range reading.form)
      let (c, assembly) ← c.process a { st with opcode := reading.opcode }
      let s := { s with assembly, collectors := c :: rest }
      return if c.finished then s.endInnermost else s

/-- Process a statement. -/
def process (s : Session) (st : Statement OperandField) : Except Fault Session := do
  let line := st.range.start.line + 1
  let s := if s.tracing.includes line then s.report (.traced line (s.subject st.operation)) else s
  let s := { s with assembly := s.assembly.moveTo st.range.start }
  let s ← s.dispatch st
  s.settle

/-- End so many definitions, the innermost first. -/
def endCollectors (s : Session) : Nat → Except Fault Session
  | 0 => .ok s
  | n + 1 => do
      let s ← s.endInnermost.settle
      s.endCollectors n

/-- A provider has run out of statements. The definitions that end with it are ended. -/
def providerFinished (s : Session) (p : Provider) : Except Fault Session :=
  if Collector.endsWith p then s.endCollectors s.collectors.length else .ok s

/-- The end of the source: end all definitions, and give up what still waits. -/
def finish (s : Session) : Except Fault Session := do
  let s ← s.providerFinished .openCode
  let s ← s.settle
  let s ← { s with assembly := s.assembly.change (·.finish) }.replay
  let s := s.collect
  return s.report (.finished s.diagnostics.length)

end Session

end MacroAssembler
