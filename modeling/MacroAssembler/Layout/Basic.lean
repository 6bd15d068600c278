import MacroAssembler.Diagnostic
import MacroAssembler.Symbol.Table

/-!
# Layouts

A layout is the state of an assembly that depends on the order of statements: the symbol table,
the location counter, and the entries that wait for symbols and spaces. An entry may determine the
value of a symbol or the length of a space, and it may carry work that is released once nothing is
left to wait for. The type of the work is left open.
-/

namespace MacroAssembler

/-- One thing that waits: for its sources, to determine its target or to release its work. -/
structure Entry (Work : Type) where
  target : Option Unknown
  sources : List Source
  work : Option Work
  range : Range

/-- What can go wrong in a layout. -/
inductive LayoutError where
  | redefinition (name : NameId)
  | circularDependency (name : Option NameId)
  | undefinedSymbol (name : NameId)
  | invalidLength
  | invalidValue (error : ValueError)
  deriving DecidableEq

namespace LayoutError

/-- The catalog entry of an error. -/
def code : LayoutError → DiagnosticCode
  | redefinition _ => .symbolRedefinition
  | circularDependency _ => .circularDependency
  | undefinedSymbol _ => .undefinedSymbol
  | invalidLength => .invalidStorageLength
  | invalidValue _ => .invalidExpression

/-- The error in words. -/
def message (names : NameTable) : LayoutError → Except UnknownName String
  | redefinition name => do
      let text ← names.get name
      return "Symbol " ++ text ++ " already defined"
  | circularDependency (some name) => do
      let text ← names.get name
      return "Circular dependency involving " ++ text
  | circularDependency none => .ok "Circular dependency"
  | undefinedSymbol name => do
      let text ← names.get name
      return "Undefined symbol " ++ text
  | invalidLength => .ok "Invalid storage length"
  | invalidValue e => e.message names

/-- The arguments of the diagnostic of an error. A failure to name a symbol stands in its
place. -/
def args (names : NameTable) : LayoutError → List String
  | redefinition name => [names.nameOf name]
  | undefinedSymbol name => [names.nameOf name]
  | circularDependency (some name) => [names.nameOf name]
  | circularDependency none => []
  | invalidLength => []
  | invalidValue e =>
      match e.message names with
      | .ok text => [text]
      | .error unknown => [unknown.message]

/-- The diagnostic of an error at a range. -/
def diagnostic (e : LayoutError) (names : NameTable) (range : Range) : Diagnostic :=
  ⟨e.code, e.args names, range⟩

end LayoutError

/-- What a layout reports about its own working. -/
inductive LayoutEvent where
  /-- A target that waits for itself was turned away. -/
  | rejected (target : Unknown) (range : Range)
  /-- An entry was given up at the end. -/
  | abandoned (target : Option Unknown) (range : Range)
  /-- The work of an entry was released. -/
  | released (range : Range)
  deriving DecidableEq

/-- The state of a layout. -/
structure Layout (Work : Type) where
  table : SymbolTable := {}
  /-- The place behind the last statement, as it was known when it was reached. -/
  counter : Address := {}
  /-- The entries that still wait, in the order in which they came. -/
  entries : List (Entry Work) := []
  /-- The released work that was not fetched yet, in the order of release. -/
  ready : List Work := []
  errors : List (Range × LayoutError) := []
  events : List LayoutEvent := []

variable {Work : Type}

/-- What an entry waits for. -/
def Entry.unknowns (e : Entry Work) (t : SymbolTable) : List Unknown :=
  e.sources.flatMap t.unknownsOfSource

/-- An entry that waits for nothing. -/
def Entry.isSettled (e : Entry Work) (t : SymbolTable) : Bool := (e.unknowns t).isEmpty

namespace Layout

/-- Note an error. -/
def fail (l : Layout Work) (range : Range) (e : LayoutError) : Layout Work :=
  { l with errors := l.errors ++ [(range, e)] }

/-- Note an event. -/
def note (l : Layout Work) (e : LayoutEvent) : Layout Work :=
  { l with events := l.events ++ [e] }

/-- The place behind the last statement, as it is known now. -/
def place (l : Layout Work) : Address := l.table.normalize l.counter

/-- Something still waits. -/
def hasPending (l : Layout Work) : Bool := !l.entries.isEmpty

/-- Fetch the released work. -/
def takeReady (l : Layout Work) : List Work × Layout Work := (l.ready, { l with ready := [] })

/-- Fetch the errors as diagnostics. -/
def takeDiagnostics (l : Layout Work) (names : NameTable) : List Diagnostic × Layout Work :=
  (l.errors.map fun (range, e) => e.diagnostic names range, { l with errors := [] })

/-- Fetch the events. -/
def takeEvents (l : Layout Work) : List LayoutEvent × Layout Work :=
  (l.events, { l with events := [] })

end Layout

end MacroAssembler
