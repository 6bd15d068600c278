import MacroAssembler.Conditional.Expr

/-!
# Concatenations as text

A concatenation is rendered as it was written, before any substitution. Subscripts are shown as
an ellipsis. Removing the fragments without text leaves the rendered text as it is.
-/

namespace MacroAssembler.Conditional

/-- The reference with a mark for its subscript. -/
def markSubscript (subscript : List Expr) (reference : String) : String :=
  if subscript.isEmpty then reference else reference ++ "(...)"

mutual
/-- A variable symbol as text. -/
def VariableSymbol.render (names : NameTable) : VariableSymbol → Except UnknownName String
  | .named name subscript _ => do
      let text ← names.get name
      return markSubscript subscript ("&" ++ text)
  | .created name subscript _ => do
      let text ← Concatenation.render names name
      return markSubscript subscript ("&(" ++ text ++ ")")

/-- A fragment as text. -/
def Fragment.render (names : NameTable) : Fragment → Except UnknownName String
  | .text s => .ok s
  | .reference v => v.render names
  | .dot => .ok "."
  | .equals => .ok "="
  | .sublist items => do
      let texts ← Concatenation.renderEach names items
      return "(" ++ ",".intercalate texts ++ ")"

/-- A concatenation as text: its fragments side by side. -/
def Concatenation.render (names : NameTable) : List Fragment → Except UnknownName String
  | [] => .ok ""
  | fragment :: rest => do
      let head ← fragment.render names
      let tail ← Concatenation.render names rest
      return head ++ tail

/-- The texts of several concatenations. -/
def Concatenation.renderEach (names : NameTable) :
    List (List Fragment) → Except UnknownName (List String)
  | [] => .ok []
  | item :: rest => do
      let head ← Concatenation.render names item
      let tail ← Concatenation.renderEach names rest
      return head :: tail
end

mutual
/-- A fragment whose sublists have no fragments without text. -/
def Fragment.clean : Fragment → Fragment
  | .sublist items => .sublist (Concatenation.cleanEach items)
  | fragment => fragment

/-- The concatenation without the fragments that carry no text, in sublists as well. -/
def Concatenation.clean : List Fragment → List Fragment
  | [] => []
  | .text s :: rest =>
      if s.isEmpty then Concatenation.clean rest else .text s :: Concatenation.clean rest
  | fragment :: rest => fragment.clean :: Concatenation.clean rest

/-- Each concatenation without the fragments that carry no text. -/
def Concatenation.cleanEach : List (List Fragment) → List (List Fragment)
  | [] => []
  | item :: rest => Concatenation.clean item :: Concatenation.cleanEach rest
end

end MacroAssembler.Conditional
