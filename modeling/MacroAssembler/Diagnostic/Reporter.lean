import MacroAssembler.Diagnostic

/-!
# Reporters

A reporter passes diagnostics on to any number of sinks, in the order in which they were added,
and counts what it has passed on. It can be switched off and on.
-/

namespace MacroAssembler

/-- What a sink is told: a diagnostic, or that no more will follow. -/
inductive Report where
  | diagnostic (d : Diagnostic)
  | finished

/-- The sinks hold what they were told, the oldest first. -/
structure Reporter where
  enabled : Bool := true
  sinks : List (List Report) := []
  written : Nat := 0

namespace Reporter

/-- Add a sink, which hears only what comes from now on. -/
def addSink (r : Reporter) : Reporter := { r with sinks := r.sinks ++ [[]] }

/-- Pass diagnostics on from now on. -/
def enable (r : Reporter) : Reporter := { r with enabled := true }

/-- Drop diagnostics from now on. -/
def disable (r : Reporter) : Reporter := { r with enabled := false }

/-- Tell every sink. -/
def tell (r : Reporter) (report : Report) : Reporter :=
  { r with sinks := r.sinks.map (· ++ [report]) }

/-- Pass a diagnostic on, unless the reporter is switched off. -/
def write (r : Reporter) (d : Diagnostic) : Reporter :=
  if r.enabled then { r.tell (.diagnostic d) with written := r.written + 1 } else r

/-- Pass diagnostics on in order. -/
def writeAll (r : Reporter) (ds : List Diagnostic) : Reporter := ds.foldl write r

/-- Tell every sink that no more diagnostics will follow, also while switched off. -/
def finish (r : Reporter) : Reporter := r.tell .finished

end Reporter

end MacroAssembler
