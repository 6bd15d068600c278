import MacroAssembler.Text.Letters
import MacroAssembler.Text.Numeral
import MacroAssembler.Text.Blank

/-!
# Tracing

Which lines of the source are traced while they are processed. Lines are counted from 1. The lines
are given as `all`, `off`, one line `N`, a range `N:M`, or a range that is open at one end.
-/

namespace MacroAssembler

/-- The lines that are traced. -/
inductive Tracing where
  | all
  | between (first last : Nat)
  | before (last : Nat)
  | after (first : Nat)
  | only (line : Nat)
  | off
  deriving DecidableEq

namespace Tracing

/-- The line is traced. -/
def includes (t : Tracing) (line : Nat) : Bool :=
  match t with
  | all => true
  | between first last => first ≤ line && line ≤ last
  | before last => line ≤ last
  | after first => first ≤ line
  | only n => line == n
  | off => false

/-- The setting as it is shown. -/
def text : Tracing → String
  | all => "All"
  | between first last => "Between(" ++ toString first ++ ", " ++ toString last ++ ")"
  | before last => "Before(" ++ toString last ++ ")"
  | after first => "After(" ++ toString first ++ ")"
  | only n => "Only(" ++ toString n ++ ")"
  | off => "Off"

/-- A line number, with blanks around it allowed; it must fit 64 bits. -/
def readLine (cs : List Char) : Except String Nat :=
  match Numeral.natural? 10 UInt64.size (Text.trim cs) with
  | some n => .ok n
  | none => .error ("Invalid line number in tracing range: " ++ String.ofList cs)

/-- The setting that a text gives, in capital or small letters. -/
def ofText (s : String) : Except String Tracing :=
  let cs := (Text.trim s.toList).map Char.toLower
  if cs = [] ∨ cs = ['a', 'l', 'l'] then .ok all
  else if cs = ['o', 'f', 'f'] then .ok off
  else
    let start := cs.takeWhile (· ≠ ':')
    match cs.dropWhile (· ≠ ':') with
    | [] => do return only (← readLine cs)
    | _ :: stop =>
        match start, stop with
        | [], [] => .ok all
        | start, [] => do return after (← readLine start)
        | [], stop => do return before (← readLine stop)
        | start, stop => do
            let first ← readLine start
            let last ← readLine stop
            return between first last

end Tracing

end MacroAssembler
