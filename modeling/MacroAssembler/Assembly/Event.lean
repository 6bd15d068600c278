import MacroAssembler.Layout.Basic
import MacroAssembler.Statement

/-!
# Events

What an assembly reports about its own working, apart from diagnostics: one constructor for each
kind of report, with its level, its wording, and the part of the assembler that it is about.
-/

namespace MacroAssembler

/-- How important a report is. -/
inductive LogLevel where
  | error
  | warn
  | info
  | debug
  | trace
  deriving DecidableEq

namespace LogLevel

/-- The level as it is shown. -/
def text : LogLevel → String
  | error => "ERROR"
  | warn => "WARN"
  | info => "INFO"
  | debug => "DEBUG"
  | trace => "TRACE"

/-- The place of a level in the order from errors to traces. -/
def rank : LogLevel → Nat
  | error => 1
  | warn => 2
  | info => 3
  | debug => 4
  | trace => 5

/-- The level that a name in small letters stands for. -/
def ofName? : String → Option LogLevel
  | "error" => some error
  | "warn" => some warn
  | "info" => some info
  | "debug" => some debug
  | "trace" => some trace
  | _ => none

/-- Reports of level `l` are shown when those up to `limit` are wanted. -/
def isWithin (l limit : LogLevel) : Bool := l.rank ≤ limit.rank

end LogLevel

/-- The short name of a reader. -/
def ReaderKind.text : ReaderKind → String
  | openCode => "Ordinary"
  | definition => "Macro"

/-- The short name of a form. -/
def OperandForm.text : OperandForm → String
  | machine => "Mach"
  | assembler => "Asm"
  | macroOperands => "Mac"
  | conditional => "Ca"
  | deferred => "Deferred"
  | unknown => "Unknown"

/-- The short name of what an operation code belongs to. -/
def OpcodeKind.text : OpcodeKind → String
  | undefined => "Undef"
  | conditional => "Ca"
  | machine => "Mach"
  | assembler => "Asm"
  | definedMacro => "Mac"

/-- The inner form of an unknown: what it is, and its number. -/
def Unknown.text : Unknown → String
  | symbol name => "Symbol(StringId(" ++ toString name.index ++ "))"
  | space id => "Space(SpaceId(" ++ toString id.index ++ "))"

/-- The inner form of the target of an entry. -/
def targetText : Option Unknown → String
  | some u => "Some(" ++ u.text ++ ")"
  | none => "None"

/-- The inner form of a failure to name something. -/
def UnknownName.text (e : UnknownName) : String :=
  "StringTableError(NotFound(StringId(" ++ toString e.id.index ++ ")))"

/-- A report. Names are given as texts. -/
inductive Event where
  | layout (e : LayoutEvent)
  /-- A statement is traced: its line, counted from 1, and its operation. -/
  | traced (line : Nat) (subject : String)
  | statementRead (reader : ReaderKind) (range : Range) (form : OperandForm)
  | macroRegistered (name : String)
  | macroDropped
  | finished (diagnostics : Nat)
  | macroDefined (name : NameId) (statements : Nat)
  | surplusArgument (place : Nat)
  | replayRefused (range : Range) (kind : OpcodeKind)
  | conditionalSkipped (name : String) (range : Range)
  | macroCalled (name : String) (range : Range) (operands : Nat)
  | labelNotRendered (e : UnknownName)
  | operandIgnored (range : Range)
  | operandNotRendered (e : UnknownName)
  | operationNotExpanded (range : Range)
  | checkPostponed (instruction : String) (range : Range) (expressions : Nat)
  | checkReplayed (range : Range)
  | copySkipped (range : Range)
  | directiveIgnored (name : String) (range : Range)
  | valuePostponed (name : String)
  | definitionStarted (position : Position)
  | prototypeRead (name : String) (params : Nat)
  | defaultNotRendered (e : UnknownName)
  | definitionNested (depth : Nat)
  | definitionClosed (range : Range)
  | operationNotRendered (e : UnknownName)

namespace Event

/-- How important a report is. -/
def level : Event → LogLevel
  | finished _ => .info
  | macroDefined .. => .info
  | prototypeRead .. => .info
  | replayRefused .. => .warn
  | labelNotRendered _ => .warn
  | operandIgnored _ => .warn
  | operandNotRendered _ => .warn
  | defaultNotRendered _ => .warn
  | operationNotRendered _ => .warn
  | _ => .debug

/-- The wording of a report. -/
def text : Event → String
  | layout (.rejected target range) =>
      "Rejecting circular dependency of " ++ target.text ++ " at " ++ range.text
  | layout (.abandoned target range) =>
      "Abandoning dependency of " ++ targetText target ++ " at " ++ range.text
  | layout (.released range) => "Statement at " ++ range.text ++ " is ready for replay"
  | traced line subject =>
      "hlasm_core::compiler::processing::manager::ProcessingManager::process <- L"
        ++ toString line ++ ": " ++ subject
  | statementRead reader range form =>
      reader.text ++ " processor reads statement at " ++ range.text ++ " as " ++ form.text
  | macroRegistered name => "Registered macro " ++ name
  | macroDropped => "Dropped a macro definition without a name"
  | finished n => "Processing finished with " ++ toString n ++ " diagnostics"
  | macroDefined name n =>
      "Macro " ++ toString name.index ++ " defined with " ++ toString n ++ " statements"
  | surplusArgument n => "Positional argument " ++ toString n ++ " has no parameter"
  | replayRefused range kind =>
      "Postponed statement at " ++ range.text ++ " of type " ++ kind.text ++ " is not replayed"
  | conditionalSkipped name range =>
      "Conditional assembly " ++ name ++ " at " ++ range.text ++ " is left to the CA processor"
  | macroCalled name range n =>
      "Macro " ++ name ++ " called at " ++ range.text ++ " with " ++ toString n ++ " operands"
  | labelNotRendered e => "Cannot render name field of macro call: " ++ e.message
  | operandIgnored range => "Operand at " ++ range.text ++ " is not a macro operand"
  | operandNotRendered e => "Cannot render macro operand: " ++ e.message
  | operationNotExpanded range =>
      "Operation field at " ++ range.text ++ " needs variable substitution"
  | checkPostponed name range n =>
      "Postponing " ++ name ++ " at " ++ range.text ++ ": " ++ toString n
        ++ " operand expressions wait on symbols"
  | checkReplayed range => "Replaying statement at " ++ range.text
  | copySkipped range => "COPY at " ++ range.text ++ " is expanded by the statement provider"
  | directiveIgnored name range =>
      name ++ " at " ++ range.text ++ " has no effect on the ordinal context"
  | valuePostponed name => "Value of " ++ name ++ " waits on undefined symbols"
  | definitionStarted p => "Macro definition started at " ++ p.text
  | prototypeRead name n =>
      "Prototype of " ++ name ++ " declares " ++ toString n ++ " parameters"
  | defaultNotRendered e => "Cannot render default of keyword parameter: " ++ e.text
  | definitionNested depth => "Inner macro definition, depth " ++ toString depth
  | definitionClosed range => "Macro definition closed at " ++ range.text
  | operationNotRendered e => "Cannot render operation field: " ++ e.text

/-- The part of the assembler that a report is about. -/
def topic (e : Event) : String :=
  "hlasm_core::compiler::" ++ match e with
    | layout _ => "context::ordinal"
    | traced .. | statementRead .. | macroRegistered _ | macroDropped | finished _ =>
        "processing::manager"
    | macroDefined .. | surplusArgument _ => "context::macros"
    | replayRefused .. | conditionalSkipped .. | macroCalled .. | labelNotRendered _
    | operandIgnored _ | operandNotRendered _ | operationNotExpanded _ =>
        "processing::ordinary_processor"
    | checkPostponed .. | checkReplayed _ => "processing::mach_processor"
    | copySkipped _ | directiveIgnored .. | valuePostponed _ => "processing::asm_processor"
    | definitionStarted _ | prototypeRead .. | defaultNotRendered _ | definitionNested _
    | definitionClosed _ | operationNotRendered _ => "processing::macrodef_processor"

end Event

end MacroAssembler
