/-!
# Scripts

What a run of the command line does to its surroundings: it prints lines, reads and writes files,
and exits. A script says this as data, so that it can be carried out on a real file system or on
a directory that is held as a value.
-/

namespace MacroAssembler.Console

/-- What is to be done, one thing after the other. Reading and writing may fail with a reason. -/
inductive Script where
  | exit (status : Nat)
  | print (line : String) (next : Script)
  | complain (line : String) (next : Script)
  | read (path : String) (next : Except String String → Script)
  | write (path : String) (lines : List String) (next : Except String Unit → Script)

namespace Script

/-- Print lines, and go on. -/
def printAll (lines : List String) (next : Script) : Script := lines.foldr print next

end Script

end MacroAssembler.Console
