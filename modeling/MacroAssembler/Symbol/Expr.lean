import MacroAssembler.Names
import MacroAssembler.Source

/-!
# Expressions over ordinary symbols

The arithmetic that stands in the operands of instructions: constants, symbols, negation and the
four operations. The type is open in what stands for a name: a text just read, or the number that
the name table gives it.
-/

namespace MacroAssembler

/-- The four operations. -/
inductive ArithmeticOp where
  | add
  | sub
  | mul
  | div
  deriving DecidableEq

/-- The sign an operation is written with. -/
def ArithmeticOp.text : ArithmeticOp → String
  | add => "+"
  | sub => "-"
  | mul => "*"
  | div => "/"

/-- The result of an operation on two words. Division rounds toward zero, and division by zero
gives zero. -/
def ArithmeticOp.apply : ArithmeticOp → Int32 → Int32 → Int32
  | add, l, r => l + r
  | sub, l, r => l - r
  | mul, l, r => l * r
  | div, l, r => if r = 0 then 0 else l / r

/-- An expression over symbols that are given by `Name`. -/
inductive OrdinaryExpr (Name : Type) where
  | constant (value : Int32) (range : Range)
  | symbol (name : Name) (range : Range)
  | negate (e : OrdinaryExpr Name) (range : Range)
  | binary (op : ArithmeticOp) (left right : OrdinaryExpr Name) (range : Range)
  deriving DecidableEq

namespace OrdinaryExpr

variable {Name : Type}

/-- Where an expression stands. -/
def range : OrdinaryExpr Name → Range
  | constant _ r => r
  | symbol _ r => r
  | negate _ r => r
  | binary _ _ _ r => r

/-- The names in an expression, in the order of reading. -/
def names : OrdinaryExpr Name → List Name
  | constant _ _ => []
  | symbol n _ => [n]
  | negate e _ => e.names
  | binary _ l r _ => l.names ++ r.names

/-- The expression with the number of each name, which the table learns in the order of
reading. -/
def intern (table : NameTable) : OrdinaryExpr String → OrdinaryExpr NameId × NameTable
  | constant v r => (constant v r, table)
  | symbol n r =>
      let (id, table) := table.insert n
      (symbol id r, table)
  | negate e r =>
      let (e, table) := e.intern table
      (negate e r, table)
  | binary op left right r =>
      let (left, table) := left.intern table
      let (right, table) := right.intern table
      (binary op left right r, table)

end OrdinaryExpr

end MacroAssembler
