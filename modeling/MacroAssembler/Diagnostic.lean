import MacroAssembler.Source

/-!
# Diagnostics

A diagnostic says what is wrong with a stretch of the source: an entry of a fixed catalog,
arguments for its message, and the range it applies to. A faulty statement never stops an
assembly; its diagnostics are gathered and reported at the end.
-/

namespace MacroAssembler

/-- How grave a diagnostic is. -/
inductive Severity where
  | error
  | warning
  deriving DecidableEq

/-- The severity as it is shown in a report. -/
def Severity.text : Severity → String
  | .error => "error"
  | .warning => "warning"

/-- The catalog: everything that can be wrong with a source. -/
inductive DiagnosticCode where
  | undefinedSymbol
  | duplicateSymbolicParameter
  | unknownKeywordParameter
  | symbolRedefinition
  | circularDependency
  | missingMacroName
  | invalidPrototypeVariable
  | illegalPrototypeLabel
  | duplicateSequenceSymbol
  | unterminatedMacro
  | invalidPrototypeOperand
  | undefinedOperationCode
  | equWithoutLabel
  | invalidStorageLength
  | invalidExpression
  | operandCount
  | registerOutOfRange
  | displacementOutOfRange
  | immediateOutOfRange
  | lengthOutOfRange
  | operandKind
  deriving DecidableEq

namespace DiagnosticCode

/-- The catalog in its order. -/
def all : List DiagnosticCode :=
  [undefinedSymbol, duplicateSymbolicParameter, unknownKeywordParameter, symbolRedefinition,
    circularDependency, missingMacroName, invalidPrototypeVariable, illegalPrototypeLabel,
    duplicateSequenceSymbol, unterminatedMacro, invalidPrototypeOperand, undefinedOperationCode,
    equWithoutLabel, invalidStorageLength, invalidExpression, operandCount, registerOutOfRange,
    displacementOutOfRange, immediateOutOfRange, lengthOutOfRange, operandKind]

/-- The name of the entry. -/
def name : DiagnosticCode → String
  | undefinedSymbol => "UndefinedSymbol"
  | duplicateSymbolicParameter => "DuplicateSymbolicParameter"
  | unknownKeywordParameter => "UnknownKeywordParameter"
  | symbolRedefinition => "SymbolRedefinition"
  | circularDependency => "CircularDependency"
  | missingMacroName => "MissingMacroName"
  | invalidPrototypeVariable => "InvalidPrototypeVariable"
  | illegalPrototypeLabel => "IllegalPrototypeLabel"
  | duplicateSequenceSymbol => "DuplicateSequenceSymbol"
  | unterminatedMacro => "UnterminatedMacro"
  | invalidPrototypeOperand => "InvalidPrototypeOperand"
  | undefinedOperationCode => "UndefinedOperationCode"
  | equWithoutLabel => "EquWithoutLabel"
  | invalidStorageLength => "InvalidStorageLength"
  | invalidExpression => "InvalidExpression"
  | operandCount => "OperandCount"
  | registerOutOfRange => "RegisterOutOfRange"
  | displacementOutOfRange => "DisplacementOutOfRange"
  | immediateOutOfRange => "ImmediateOutOfRange"
  | lengthOutOfRange => "LengthOutOfRange"
  | operandKind => "OperandKind"

/-- The short code that reports show. -/
def code : DiagnosticCode → String
  | undefinedSymbol => "E010"
  | duplicateSymbolicParameter => "E011"
  | unknownKeywordParameter => "E014"
  | symbolRedefinition => "E031"
  | circularDependency => "E033"
  | missingMacroName => "E042"
  | invalidPrototypeVariable => "E043"
  | illegalPrototypeLabel => "E044"
  | duplicateSequenceSymbol => "E045"
  | unterminatedMacro => "E046"
  | invalidPrototypeOperand => "E047"
  | undefinedOperationCode => "E049"
  | equWithoutLabel => "E053"
  | invalidStorageLength => "A010"
  | invalidExpression => "CE001"
  | operandCount => "M000"
  | registerOutOfRange => "M001"
  | displacementOutOfRange => "M002"
  | immediateOutOfRange => "M003"
  | lengthOutOfRange => "M004"
  | operandKind => "M005"

/-- A keyword that the prototype does not declare is a warning, all else is an error. -/
def severity : DiagnosticCode → Severity
  | unknownKeywordParameter => .warning
  | _ => .error

/-- The one line that the message of a diagnostic begins with. -/
def summary : DiagnosticCode → String
  | undefinedSymbol => "Undefined symbol"
  | duplicateSymbolicParameter => "Symbolic parameter already defined"
  | unknownKeywordParameter => "Keyword parameter not declared in prototype"
  | symbolRedefinition => "Symbol already defined"
  | circularDependency => "Circular dependency"
  | missingMacroName => "Macro name missing from prototype"
  | invalidPrototypeVariable => "Invalid variable symbol in macro prototype"
  | illegalPrototypeLabel => "Illegal name field in macro prototype"
  | duplicateSequenceSymbol => "Sequence symbol already defined"
  | unterminatedMacro => "Macro definition not terminated by MEND"
  | invalidPrototypeOperand => "Invalid macro prototype operand"
  | undefinedOperationCode => "Operation code not found"
  | equWithoutLabel => "EQU requires a label"
  | invalidStorageLength => "Invalid storage length"
  | invalidExpression => "Invalid expression"
  | operandCount => "Wrong number of operands"
  | registerOutOfRange => "Register operand out of range"
  | displacementOutOfRange => "Displacement out of range"
  | immediateOutOfRange => "Immediate operand out of range"
  | lengthOutOfRange => "Length operand out of range"
  | operandKind => "Operand has the wrong form"

/-- The entry with a name or a short code. -/
def find? (text : String) : Option DiagnosticCode :=
  all.find? fun c => c.name == text || c.code == text

end DiagnosticCode

/-- One complaint about the source. -/
structure Diagnostic where
  code : DiagnosticCode
  args : List String := []
  range : Range := {}
  deriving DecidableEq

namespace Diagnostic

/-- The summary, followed by the arguments if there are any. -/
def message (d : Diagnostic) : String :=
  if d.args.isEmpty then d.code.summary
  else d.code.summary ++ ": " ++ ", ".intercalate d.args

/-- The diagnostic with its place and its short code. -/
def text (d : Diagnostic) : String :=
  d.range.text ++ " " ++ d.code.code ++ ": " ++ d.message

/-- The diagnostic as a line of a report on a file. -/
def reportLine (file : String) (d : Diagnostic) : String :=
  file ++ ":" ++ d.range.text ++ " " ++ d.code.severity.text ++ " " ++ d.code.code ++ ": "
    ++ d.message

end Diagnostic

end MacroAssembler
