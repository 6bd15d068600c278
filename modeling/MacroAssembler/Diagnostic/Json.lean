import MacroAssembler.Diagnostic

/-!
# Diagnostics as JSON

A diagnostic is written as one JSON object without white space, with its name, its arguments and
its range, in that order.
-/

namespace MacroAssembler.Json

/-- The four hexadecimal digits of a number below 65536. -/
def fourDigits (n : Nat) : List Char :=
  let digits := Nat.toDigits 16 n
  List.replicate (4 - digits.length) '0' ++ digits

/-- A character inside a JSON string: quotation marks and backslashes are escaped, and so are the
control characters below the blank, with a short form where JSON has one. -/
def escapeChar (c : Char) : List Char :=
  if c == '"' then ['\\', '"']
  else if c == '\\' then ['\\', '\\']
  else if c == '\n' then ['\\', 'n']
  else if c == '\r' then ['\\', 'r']
  else if c == '\t' then ['\\', 't']
  else if c.toNat == 8 then ['\\', 'b']
  else if c.toNat == 12 then ['\\', 'f']
  else if c.toNat < 32 then ['\\', 'u'] ++ fourDigits c.toNat
  else [c]

/-- A text as a JSON string. -/
def string (s : String) : String :=
  "\"" ++ String.ofList (s.toList.flatMap escapeChar) ++ "\""

/-- A JSON array of values that are written already. -/
def array (items : List String) : String := "[" ++ ",".intercalate items ++ "]"

/-- A JSON object of values that are written already, in the order given. -/
def object (fields : List (String × String)) : String :=
  "\x7b" ++ ",".intercalate (fields.map fun (name, value) => string name ++ ":" ++ value) ++ "\x7d"

end MacroAssembler.Json

namespace MacroAssembler

/-- A position as a JSON object. -/
def Position.json (p : Position) : String :=
  Json.object [("line", toString p.line), ("column", toString p.column)]

/-- A range as a JSON object. -/
def Range.json (r : Range) : String :=
  Json.object [("start", r.start.json), ("end", r.stop.json)]

/-- A diagnostic as a JSON object on one line. -/
def Diagnostic.json (d : Diagnostic) : String :=
  Json.object [("code", Json.string d.code.name), ("args", Json.array (d.args.map Json.string)),
    ("range", d.range.json)]

end MacroAssembler
