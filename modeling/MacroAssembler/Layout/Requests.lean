import MacroAssembler.Layout.Settling
import MacroAssembler.Reachability

/-!
# Requests to a layout

What statements ask of a layout: to define a symbol, to align the location counter, to reserve
storage of a known length or of one that is found later, and to let something wait. At the end of
the source everything that still waits is given up and reported.
-/

namespace MacroAssembler.Layout

variable {Work : Type}

/-! ## Waiting -/

/-- What something unknown waits for directly: the sources of the entries that determine it, and
for a padding the spaces before its place. -/
def waitsFor (l : Layout Work) (u : Unknown) : List Unknown :=
  (l.entries.filter fun e => e.target == some u).flatMap (·.unknowns l.table) ++
    match u with
    | .symbol _ => []
    | .space id =>
        match l.table.spaces[id.index]? with
        | some ⟨.alignment anchor _, _⟩ => l.table.unknownsOfAddress anchor
        | _ => []

/-- Everything that anything in the layout can wait for: the names that entries wait for, and all
spaces. -/
def awaited (l : Layout Work) : List Unknown :=
  (Unknown.names (l.entries.flatMap (·.unknowns l.table))).map .symbol ++
    (List.range l.table.spaces.size).map fun n => .space ⟨n⟩

/-- Everything that the given unknowns wait for, they themselves included. -/
def reachable (l : Layout Work) (us : List Unknown) : List Unknown :=
  reachFrom l.waitsFor (us ++ l.awaited).eraseDups us

/-- Let an entry wait. A target that its own sources wait for is turned away, and the layout stays
as it is but for the error. -/
def await (l : Layout Work) (e : Entry Work) : Layout Work :=
  match e.target with
  | some target =>
      if target ∈ l.reachable (e.unknowns l.table) then
        let name := match target with
          | .symbol name => some name
          | .space _ => none
        (l.note (.rejected target e.range)).fail e.range (.circularDependency name)
      else { l with entries := l.entries ++ [e] }.settle
  | none => { l with entries := l.entries ++ [e] }.settle

/-! ## Symbols and storage -/

/-- Define a symbol that is not defined yet. -/
def define (l : Layout Work) (symbol : OrdinarySymbol) : Except LayoutError (Layout Work) :=
  if l.table.defines symbol.name then .error (.redefinition symbol.name)
  else
    let table := { l.table with symbols := l.table.symbols ++ [symbol] }
    .ok { l with table }.settle

/-- Move the location counter to the next aligned place, and give that place. Behind a space
whose length is not known the padding is a space too. -/
def align (l : Layout Work) (alignment : Alignment) : Address × Layout Work :=
  if alignment.boundary ≤ 1 then (l.counter, l)
  else
    let place := l.place
    if place.hasSpaces then
      let (id, table) := l.table.addSpace (.alignment place alignment)
      let counter := place.behind id
      (counter, { l with table, counter })
    else
      let counter := place.shift (alignment.padding place.offset)
      (counter, { l with counter })

/-- Reserve a number of bytes at the next aligned place, and give that place. -/
def reserve (l : Layout Work) (size : Int32) (alignment : Alignment) : Address × Layout Work :=
  let (place, l) := l.align alignment
  (place, { l with counter := l.counter.shift size })

/-- Reserve as many bytes as the value of an expression says that has none yet, and give the place
where they start. -/
def reserveLater (l : Layout Work) (length : OrdinaryExpr NameId) (alignment : Alignment)
    (range : Range) : Address × Layout Work :=
  let (place, l) := l.align alignment
  let (id, table) := l.table.addSpace .length
  let l := { l with table, counter := l.counter.behind id }
  (place, l.await ⟨some (.space id), [.expr length], none, range⟩)

/-! ## The end of the source -/

/-- The names an entry waits for, directly or not, that no symbol has. -/
def undefinedNames (l : Layout Work) (e : Entry Work) : List NameId :=
  (Unknown.names (l.reachable (e.unknowns l.table))).filter fun name => !l.table.defines name

/-- What is reported of an entry that is given up: the names that were never defined, or else that
it waits for itself. -/
def complaints (l : Layout Work) (e : Entry Work) : List LayoutError :=
  match l.undefinedNames e with
  | [] =>
      match e.target with
      | some (.symbol name) => [.circularDependency (some name)]
      | _ => [.circularDependency none]
  | names => names.map .undefinedSymbol

/-- Settle what can be settled, then give up and report every entry that is left. -/
def finish (l : Layout Work) : Layout Work :=
  let l := l.settle
  { l with
    entries := []
    events := l.events ++ l.entries.map fun e => .abandoned e.target e.range
    errors := l.errors ++ l.entries.flatMap fun e => (l.complaints e).map (e.range, ·) }

end MacroAssembler.Layout
