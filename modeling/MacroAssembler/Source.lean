/-!
# Places in a source

A position is a line and a column, both counted from 0. A range is a stretch between two
positions, and a location is a position in a named file. Texts count lines and columns from 1.
-/

namespace MacroAssembler

/-- A point in a source file, counted from line 0 and column 0. -/
structure Position where
  line : Nat := 0
  column : Nat := 0
  deriving DecidableEq, Inhabited

namespace Position

/-- `p` stands before `q`: on an earlier line, or on the same line in an earlier column. -/
def before (p q : Position) : Bool :=
  p.line < q.line || (p.line == q.line && p.column < q.column)

/-- The earlier of two positions. -/
def earlier (p q : Position) : Position :=
  if q.before p then q else p

/-- The later of two positions. -/
def later (p q : Position) : Position :=
  if p.before q then q else p

/-- The position as it is shown to a reader, who counts from 1. -/
def text (p : Position) : String :=
  "L" ++ toString (p.line + 1) ++ ":" ++ toString (p.column + 1)

/-- The position `count` columns to the right. -/
def right (p : Position) (count : Nat) : Position :=
  { p with column := p.column + count }

end Position

/-- The stretch of a source file from `start` up to, and without, `stop`. -/
structure Range where
  start : Position := {}
  stop : Position := {}
  deriving DecidableEq, Inhabited

namespace Range

/-- The empty range at a position. -/
def point (p : Position) : Range := ⟨p, p⟩

/-- The columns from `first` up to `last` of one line. -/
def onLine (line first last : Nat) : Range := ⟨⟨line, first⟩, ⟨line, last⟩⟩

/-- The smallest range that covers both. -/
def join (r s : Range) : Range := ⟨r.start.earlier s.start, r.stop.later s.stop⟩

/-- A range is shown as the position where it starts. -/
def text (r : Range) : String := r.start.text

end Range

/-- A position in a named file. -/
structure Location where
  file : String := ""
  position : Position := {}
  deriving DecidableEq, Inhabited

/-- The location as it is shown to a reader. -/
def Location.text (l : Location) : String :=
  l.file ++ "(" ++ l.position.text ++ ")"

end MacroAssembler
