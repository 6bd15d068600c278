import MacroAssembler.Bindings
import MacroAssembler.Macro.Data
import MacroAssembler.Statement

/-!
# Macro definitions

A macro definition is a prototype, which names the macro and declares its parameters, and a body
of statements. Sequence symbols mark statements of the body. Definitions are kept under the names
of their macros, and a later definition of a name replaces an earlier one.
-/

namespace MacroAssembler

/-- A parameter of a macro. -/
inductive Parameter where
  /-- Takes the place of an operand and binds nothing. -/
  | placeholder
  | positional (name : NameId)
  | keyword (name : NameId) (value : MacroData)

namespace Parameter

/-- The parameter is bound by its name alone. -/
def isKeyword : Parameter → Bool
  | keyword .. => true
  | _ => false

/-- The name of a parameter. -/
def name? : Parameter → Option NameId
  | placeholder => none
  | positional name => some name
  | keyword name _ => some name

end Parameter

/-- The statement that says how a macro is called. -/
structure Prototype where
  /-- The name of the macro. -/
  name : Option NameId := none
  /-- The parameter that takes the name field of a call. -/
  label : Option NameId := none
  params : List Parameter := []

/-- A sequence symbol: the place of the statement that carries it, and how many statements of the
body stand before that. -/
structure SequenceMark where
  location : Location
  offset : Nat
  deriving DecidableEq

/-- A macro definition. -/
structure MacroDefinition where
  prototype : Prototype := {}
  body : List (Statement OperandField) := []
  marks : Bindings NameId SequenceMark := []
  location : Location := {}

/-- The macros that can be called, by their names. -/
abbrev MacroLibrary := Bindings NameId MacroDefinition

end MacroAssembler
