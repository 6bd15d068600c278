import MacroAssembler.Assembly.Event
import MacroAssembler.Field.Reading
import MacroAssembler.Layout.Requests
import MacroAssembler.Macro.Call

/-!
# The state of an assembly

What all readers of statements share: the names, the layout, the macros, and the place in the
source. A check of a machine statement that has to wait is kept in the layout together with the
place it came from.
-/

namespace MacroAssembler

/-- A contract between the parts of the assembler that a caller has broken. -/
inductive Fault where
  /-- A machine statement carries no operation code. -/
  | noOperationCode (range : Range)
  /-- The operation code of a machine statement is in no table. -/
  | unknownInstruction (name : String)
  /-- The operation code of a macro call is no macro. -/
  | undefinedMacro (range : Range)
  /-- A statement is given to a definition that is complete. -/
  | finishedDefinition (range : Range)
  deriving DecidableEq

/-- The broken contract in words. -/
def Fault.message : Fault → String
  | noOperationCode range => "Machine statement at " ++ range.text ++ " has no operation code"
  | unknownInstruction name =>
      "Machine instruction " ++ name ++ " is missing from the instruction tables"
  | undefinedMacro range => "Macro call at " ++ range.text ++ " names no defined macro"
  | finishedDefinition range =>
      "Statement at " ++ range.text ++ " given to a finished macro definition"

/-- A machine statement whose check waits, and the place it came from, outermost first. -/
structure Postponed where
  statement : Statement (List Operand)
  stack : List Location

/-- What the readers of statements share. -/
structure Assembly where
  names : NameTable := {}
  layout : Layout Postponed := {}
  library : MacroLibrary := []
  /-- The place in the source, outermost first. -/
  stack : List Location := []
  events : List Event := []

namespace Assembly

/-- The start of the assembly of a file. -/
def start (file : String) : Assembly := { stack := [⟨file, {}⟩] }

/-- The innermost place in the source. -/
def location (a : Assembly) : Location := a.stack.getLast?.getD {}

/-- Move the innermost place. -/
def moveTo (a : Assembly) (p : Position) : Assembly :=
  match a.stack.getLast? with
  | some top => { a with stack := a.stack.dropLast ++ [{ top with position := p }] }
  | none => a

/-- Report something. -/
def report (a : Assembly) (e : Event) : Assembly := { a with events := a.events ++ [e] }

/-- Report several things in order. -/
def reportAll (a : Assembly) (es : List Event) : Assembly := { a with events := a.events ++ es }

/-- Make a request to the layout, and report what it reports. -/
def request {α : Type} (a : Assembly) (f : Layout Postponed → α × Layout Postponed) :
    α × Assembly :=
  let (result, layout) := f a.layout
  let (events, layout) := layout.takeEvents
  (result, { a with layout, events := a.events ++ events.map .layout })

/-- Change the layout, and report what it reports. -/
def change (a : Assembly) (f : Layout Postponed → Layout Postponed) : Assembly :=
  (a.request fun l => ((), f l)).2

/-- The number of a name, which is learned if it is new. -/
def learn (a : Assembly) (name : String) : NameId × Assembly :=
  let (id, names) := a.names.insert name
  (id, { a with names })

/-- The symbol of that name is defined. -/
def defines (a : Assembly) (name : NameId) : Bool := a.layout.table.defines name

/-- An expression that waits for nothing. -/
def isSettled (a : Assembly) (e : OrdinaryExpr NameId) : Bool :=
  (a.layout.table.unknowns e).isEmpty

/-- Fetch the diagnostics of the layout. -/
def takeLayoutDiagnostics (a : Assembly) : List Diagnostic × Assembly :=
  let (diagnostics, layout) := a.layout.takeDiagnostics a.names
  (diagnostics, { a with layout })

/-- Read the operands of a statement in a form. -/
def read (a : Assembly) (s : Statement OperandField) (form : OperandForm) :
    Statement (List Operand) × List Diagnostic × Assembly :=
  let (s, diagnostics, names) := s.read form a.names
  (s, diagnostics, { a with names })

/-- Define the label at a range as an address. The value of a label behind spaces waits for their
lengths. -/
def defineLabel (a : Assembly) (name : NameId) (range : Range) (place : Address)
    (attributes : SymbolAttributes) : List Diagnostic × Assembly :=
  match a.layout.define ⟨name, .relocatable place, attributes, a.location⟩ with
  | .error e => ([e.diagnostic a.names range], a)
  | .ok layout =>
      let a := a.change fun _ => layout
      if place.hasSpaces then
        ([], a.change (·.await ⟨some (.symbol name), [.address place], none, range⟩))
      else ([], a)

/-- The diagnostic of a label that is defined already. -/
def redefinition (a : Assembly) (name : NameId) (range : Range) : Diagnostic :=
  ⟨.symbolRedefinition, [a.names.nameOf name], range⟩

end Assembly

end MacroAssembler
