import MacroAssembler.Conditional.Concatenation

/-!
# Macro data

The value of an argument of a macro call. An argument in parentheses is a list of arguments; any
other argument is a text, and an omitted argument has neither.
-/

namespace MacroAssembler

/-- The value of an argument. -/
inductive MacroData where
  | omitted
  | single (text : String)
  | composite (items : List MacroData)

namespace MacroData

mutual
/-- The text that is substituted for an argument. -/
def text : MacroData → String
  | omitted => ""
  | single s => s
  | composite items => "(" ++ ",".intercalate (texts items) ++ ")"

/-- The texts that are substituted for several arguments. -/
def texts : List MacroData → List String
  | [] => []
  | item :: rest => item.text :: texts rest
end

/-- The number of elements of an argument. -/
def number : MacroData → Nat
  | omitted => 0
  | single _ => 1
  | composite items => items.length

/-- An element of an argument, counted from 1. A text is its own first element. -/
def item? (d : MacroData) (n : Nat) : Option MacroData :=
  match d, n with
  | composite items, n + 1 => items[n]?
  | single s, 1 => some (single s)
  | _, _ => none

end MacroData

namespace Conditional

mutual
/-- The value of an argument that is written as a concatenation: a list if it is one group, and
otherwise its text. -/
def Concatenation.data (names : NameTable) : List Fragment → Except UnknownName MacroData
  | [.sublist items] => do
      let children ← Concatenation.dataEach names items
      return .composite children
  | c => do
      let text ← Concatenation.render names c
      return .single text

/-- The values of several arguments. -/
def Concatenation.dataEach (names : NameTable) :
    List (List Fragment) → Except UnknownName (List MacroData)
  | [] => .ok []
  | item :: rest => do
      let head ← Concatenation.data names item
      let tail ← Concatenation.dataEach names rest
      return head :: tail
end

end Conditional

end MacroAssembler
