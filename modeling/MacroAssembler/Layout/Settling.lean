import MacroAssembler.Layout.Basic

/-!
# Settling a layout

Whenever something becomes known, the entries are walked in the order in which they came, and
those that wait for nothing are completed; a completed entry may make later ones ready in the same
walk. Walks are repeated until one makes no progress: progress takes an entry away or gives a
space its length, and so cannot go on for ever.
-/

namespace MacroAssembler.Layout

variable {Work : Type}

/-- Give the target of an entry its value. A target without a value stays without one, and a
length that is no number, or a negative one, counts as zero. -/
def determine (l : Layout Work) (e : Entry Work) : Layout Work :=
  match e.target with
  | none => l
  | some (.symbol name) =>
      match e.sources.head? with
      | none => { l with table := l.table.setValue name .undefined }
      | some source =>
          match l.table.evaluateSource source with
          | .ok value => { l with table := l.table.setValue name value }
          | .error error => l.fail e.range (.invalidValue error)
  | some (.space id) =>
      match e.sources.head?.map l.table.evaluateSource with
      | some (.ok (.absolute length)) =>
          if 0 ≤ length then { l with table := l.table.setLength id length }
          else { l.fail e.range .invalidLength with table := l.table.setLength id 0 }
      | _ => { l.fail e.range .invalidLength with table := l.table.setLength id 0 }

/-- Release the work of an entry, if it carries any. -/
def release (l : Layout Work) (e : Entry Work) : Layout Work :=
  match e.work with
  | none => l
  | some work => { l.note (.released e.range) with ready := l.ready ++ [work] }

/-- Complete an entry that waits for nothing. -/
def complete (l : Layout Work) (e : Entry Work) : Layout Work := (l.determine e).release e

/-- Walk over entries, complete those that wait for nothing, and keep the others. -/
def sweep (l : Layout Work) : List (Entry Work) → List (Entry Work) × Layout Work
  | [] => ([], l)
  | e :: rest =>
      if e.isSettled l.table then (l.complete e).sweep rest
      else
        let (kept, l) := l.sweep rest
        (e :: kept, l)

/-- Give lengths to paddings, then walk over all entries. -/
def pass (l : Layout Work) : Layout Work :=
  let l := { l with table := l.table.settleSpaces }
  let (kept, l) := l.sweep l.entries
  { l with entries := kept }

/-- How much is left to settle: the entries, and the spaces without a length. -/
def unsettled (l : Layout Work) : Nat :=
  l.entries.length + l.table.spaces.countP (·.length.isNone)

/-- Repeat walks until one makes no progress. -/
def settle (l : Layout Work) : Layout Work :=
  if l.pass.unsettled < l.unsettled then l.pass.settle else l.pass
  termination_by l.unsettled

end MacroAssembler.Layout
