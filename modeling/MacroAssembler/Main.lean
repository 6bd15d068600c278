import MacroAssembler.Console.Command

/-!
# The program

Carries out the script of the command on the file system.
-/

namespace MacroAssembler.Console

/-- The fault that the operating system reports, whose number it may give as a negative word. -/
def FileFault.ofError? : IO.Error → Option FileFault
  | .noFileOrDirectory _ n _ | .inappropriateType _ n _ | .invalidArgument _ n _ =>
      all.find? fun f => f.number = n.toNat ∨ f.number = (-n).toNat
  | _ => none

/-- The reason why the operating system refuses a file. -/
def refusal (e : IO.Error) : String :=
  match FileFault.ofError? e with
  | some f => f.message
  | none => toString e

/-- Carry out a script. -/
def Script.perform : Script → IO UInt32
  | exit status => return UInt32.ofNat status
  | print line next => do
      IO.println line
      next.perform
  | complain line next => do
      IO.eprintln line
      next.perform
  | read path next => do
      let text ← (IO.FS.readFile path).toBaseIO
      (next (text.mapError refusal)).perform
  | write path lines next => do
      let done ← (IO.FS.writeFile path (String.join (lines.map (· ++ "\n")))).toBaseIO
      (next (done.mapError refusal)).perform

end MacroAssembler.Console

def main (arguments : List String) : IO UInt32 :=
  (MacroAssembler.Console.command arguments).perform
