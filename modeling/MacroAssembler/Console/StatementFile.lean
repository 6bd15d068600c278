import MacroAssembler.Console.Document
import MacroAssembler.Field.Reading

/-!
# Statement files

A statement file is a document: a sequence with one node for each statement. A statement is a
mapping from the names of its fields, or a sequence of its fields in order; fields that are left
out are empty, and names of no field are passed over.
-/

namespace MacroAssembler

namespace Console

/-- The text of a scalar, quoted or plain. -/
def Node.text? : Node → Option String
  | .scalar s => some s.text
  | _ => none

/-- A line number: a plain numeral below 2^32, or nothing if the scalar is a plain null. -/
def Node.line? : Node → Option (Option Nat)
  | .scalar s =>
      if s.isQuoted then none
      else if s.text = "null" ∨ s.text = "~" then some none
      else ((Numeral.digits? 10 s.text.toList).filter (· < UInt32.size)).map some
  | _ => none

/-- The value of a key, if the key is there at all; a key must not be there twice. -/
def entry? (entries : List (String × Node)) (key : String) : Option (Option Node) :=
  match entries.filter fun e => e.1 = key with
  | [] => some none
  | [(_, n)] => some (some n)
  | _ => none

/-- A field that is left out has its default; one that is given must be readable. -/
def orDefault {α : Type} (default : α) (read : Node → Option α) : Option Node → Option α
  | none => some default
  | some n => read n

end Console

namespace SourceStatement

open Console

/-- The statement with the given nodes for its fields. -/
def ofFields? (label operation operands line : Option Node) : Option SourceStatement := do
  let label ← orDefault "" Node.text? label
  let operation ← orDefault "" Node.text? operation
  let operands ← orDefault "" Node.text? operands
  let line ← orDefault none Node.line? line
  return { label, operation, operands, line }

/-- The statement that a node stands for. -/
def ofNode? : Node → Option SourceStatement
  | .mapping entries => do
      ofFields? (← entry? entries "label") (← entry? entries "instruction")
        (← entry? entries "operands") (← entry? entries "line")
  | .sequence fields =>
      if fields.length ≤ 4 then ofFields? fields[0]? fields[1]? fields[2]? fields[3]? else none
  | .scalar _ => none

/-- The statements of a file. -/
def ofFile? (text : String) : Option (List SourceStatement) := do
  match ← Node.ofText? text with
  | .sequence items => items.mapM ofNode?
  | _ => none

end SourceStatement

end MacroAssembler
