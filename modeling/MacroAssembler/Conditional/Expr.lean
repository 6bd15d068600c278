import MacroAssembler.Conditional.Function
import MacroAssembler.Conditional.Operator
import MacroAssembler.Names
import MacroAssembler.Source

/-!
# Expressions, variable symbols and concatenations

The three kinds of terms that conditional assembly substitutes into a source. They refer to each
other: an expression may read a variable symbol, a variable symbol may have a subscript of
expressions and a name that is itself the result of a concatenation, and a concatenation joins
literal text with variable symbols.
-/

namespace MacroAssembler.Conditional

mutual
/-- A conditional assembly expression. -/
inductive Expr where
  | number (value : Int32) (range : Range)
  | text (value : String) (range : Range)
  | reference (v : VariableSymbol)
  | unary (op : Operator) (operand : Expr) (range : Range)
  | binary (op : Operator) (left right : Expr) (range : Range)
  | call (f : Function) (args : List Expr) (range : Range)

/-- A reference to a variable symbol, with the subscript that selects an element. -/
inductive VariableSymbol where
  /-- The name is written: `&NAME`. -/
  | named (name : NameId) (subscript : List Expr) (range : Range)
  /-- The name is the text of a concatenation: `&(...)`. -/
  | created (name : List Fragment) (subscript : List Expr) (range : Range)

/-- A piece of a concatenation. -/
inductive Fragment where
  /-- Literal text. -/
  | text (s : String)
  /-- A variable symbol to be substituted. -/
  | reference (v : VariableSymbol)
  /-- The dot that ends the name of a variable symbol. -/
  | dot
  /-- The sign between a keyword and its value. -/
  | equals
  /-- Concatenations in parentheses, separated by commas. -/
  | sublist (items : List (List Fragment))
end

/-- A text assembled from fragments. -/
abbrev Concatenation := List Fragment

namespace VariableSymbol

/-- Where the reference stands. -/
def range : VariableSymbol → Range
  | named _ _ r => r
  | created _ _ r => r

/-- The expressions that select an element. -/
def subscript : VariableSymbol → List Expr
  | named _ s _ => s
  | created _ s _ => s

/-- The name is the result of a concatenation. -/
def isCreated : VariableSymbol → Bool
  | named .. => false
  | created .. => true

/-- The name, if it is written. -/
def name? : VariableSymbol → Option NameId
  | named n _ _ => some n
  | created .. => none

/-- The name of a reference that is written and has no subscript. -/
def plainName? (v : VariableSymbol) : Option NameId :=
  if v.subscript.isEmpty then v.name? else none

end VariableSymbol

/-- Where an expression stands. -/
def Expr.range : Expr → Range
  | number _ r => r
  | text _ r => r
  | reference v => v.range
  | unary _ _ r => r
  | binary _ _ _ r => r
  | call _ _ r => r

end MacroAssembler.Conditional
