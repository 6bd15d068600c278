import MacroAssembler.Diagnostic
import MacroAssembler.Field.Piece
import MacroAssembler.Statement
import MacroAssembler.Text.Letters
import MacroAssembler.Text.Numeral

/-!
# Reading expressions

The expressions of instruction operands: sums of products of signed factors, where a factor is an
expression in parentheses, a decimal number, a self-defining term, or a symbol. A self-defining
term gives a number by its hexadecimal digits, its binary digits, or its characters: `X'1F'`,
`B'101'`, `C'AB'`.

A text that is no expression fails, but the names read before the fault are learned all the same;
a failure is therefore the list of these names.
-/

namespace MacroAssembler.Field

/-- The word that bytes make up, the first of them the most significant. -/
def wordOfBytes (bytes : List UInt8) : UInt32 :=
  bytes.foldl (fun word b => (word <<< (8 : UInt32)) ||| b.toUInt32) (0 : UInt32)

/-- The number that a self-defining term denotes, by the letter in front and the text between the
apostrophes. Characters give their bytes, the first of them the most significant, and there are
at most four. -/
def selfDefining? (kind : Char) (body : List Char) : Option Int32 :=
  match kind.toUpper with
  | 'X' => Numeral.pattern? 16 body
  | 'B' => Numeral.pattern? 2 body
  | 'C' =>
      if body ≠ [] ∧ Text.byteLength body ≤ 4 then
        some (wordOfBytes (String.ofList body).toUTF8.data.toList).toInt32
      else none
  | _ => none

/-- The place of a text that ends at `stop`. -/
def placeOf (stop : Position) (cs : List Char) : Position :=
  { stop with column := stop.column - cs.length }

/-- The range between a text and a later part of it, if both end at `stop`. -/
def span (stop : Position) (first last : List Char) : Range :=
  ⟨placeOf stop first, placeOf stop last⟩

/-- An expression and the text behind it, which is shorter than `bound`. -/
abbrev Read (bound : Nat) := { p : OrdinaryExpr String × List Char // p.2.length < bound }

/-- A self-defining term at the start of a text: its value and the text behind it. -/
def readSelfDefining (cs : List Char) :
    Option { p : Int32 × List Char // p.2.length < cs.length } :=
  match cs with
  | kind :: '\'' :: rest =>
      match h : rest.dropWhile (· ≠ '\'') with
      | _ :: after =>
          (selfDefining? kind (rest.takeWhile (· ≠ '\''))).map fun value =>
            ⟨(value, after), by
              have := (List.dropWhile_suffix (l := rest) (· ≠ '\'')).length_le
              rw [h] at this
              simp at this ⊢
              omega⟩
      | [] => none
  | _ => none

/-- A number, a self-defining term or a symbol at the start of a text. -/
def readAtom (stop : Position) (cs : List Char) : Except (List String) (Read cs.length) :=
  match cs with
  | [] => .error []
  | c :: rest =>
      if c.isDigit then
        let digits := c :: rest.takeWhile Char.isDigit
        let after := rest.dropWhile Char.isDigit
        match Numeral.integer? digits with
        | some value =>
            .ok ⟨(.constant value (span stop (c :: rest) after), after), by
              have := (List.dropWhile_suffix (l := rest) Char.isDigit).length_le
              simp [after]
              omega⟩
        | none => .error []
      else
        match readSelfDefining (c :: rest) with
        | some ⟨(value, after), h⟩ =>
            .ok ⟨(.constant value (span stop (c :: rest) after), after), h⟩
        | none =>
            if Text.isNameChar c then
              let name := c :: rest.takeWhile Text.isNameChar
              let after := rest.dropWhile Text.isNameChar
              let place := span stop (c :: rest) after
              .ok ⟨(.symbol (Text.upper (String.ofList name)) place, after), by
                have := (List.dropWhile_suffix (l := rest) Text.isNameChar).length_le
                simp [after]
                omega⟩
            else .error []

/-- The operation of a sum that a sign stands for. -/
def additive? : Char → Option ArithmeticOp
  | '+' => some .add
  | '-' => some .sub
  | _ => none

/-- The operation of a product that a sign stands for. -/
def multiplicative? : Char → Option ArithmeticOp
  | '*' => some .mul
  | '/' => some .div
  | _ => none

mutual
/-- Read a sum. -/
def readSum (stop : Position) (cs : List Char) : Except (List String) (Read cs.length) :=
  match readProduct stop cs with
  | .error names => .error names
  | .ok ⟨(left, after), h⟩ =>
      match extendSum stop (placeOf stop cs) left after with
      | .error names => .error names
      | .ok ⟨(e, after'), h'⟩ => .ok ⟨(e, after'), by simp at h h' ⊢; omega⟩
  termination_by (cs.length, 5)

/-- Read what a sum adds to the terms before, which start at `start`. -/
def extendSum (stop start : Position) (left : OrdinaryExpr String) (cs : List Char) :
    Except (List String) (Read (cs.length + 1)) :=
  match cs with
  | [] => .ok ⟨(left, []), by simp⟩
  | c :: rest =>
      match additive? c with
      | none => .ok ⟨(left, c :: rest), by simp⟩
      | some op =>
          match readProduct stop rest with
          | .error names => .error (left.names ++ names)
          | .ok ⟨(right, after), h⟩ =>
              have shorter : after.length < rest.length := h
              let whole := OrdinaryExpr.binary op left right ⟨start, placeOf stop after⟩
              match extendSum stop start whole after with
              | .error names => .error names
              | .ok ⟨(e, after'), h'⟩ => .ok ⟨(e, after'), by simp at h' ⊢; omega⟩
  termination_by (cs.length, 4)

/-- Read a product. -/
def readProduct (stop : Position) (cs : List Char) : Except (List String) (Read cs.length) :=
  match readFactor stop cs with
  | .error names => .error names
  | .ok ⟨(left, after), h⟩ =>
      match extendProduct stop (placeOf stop cs) left after with
      | .error names => .error names
      | .ok ⟨(e, after'), h'⟩ => .ok ⟨(e, after'), by simp at h h' ⊢; omega⟩
  termination_by (cs.length, 3)

/-- Read what a product adds to the factors before, which start at `start`. -/
def extendProduct (stop start : Position) (left : OrdinaryExpr String) (cs : List Char) :
    Except (List String) (Read (cs.length + 1)) :=
  match cs with
  | [] => .ok ⟨(left, []), by simp⟩
  | c :: rest =>
      match multiplicative? c with
      | none => .ok ⟨(left, c :: rest), by simp⟩
      | some op =>
          match readFactor stop rest with
          | .error names => .error (left.names ++ names)
          | .ok ⟨(right, after), h⟩ =>
              have shorter : after.length < rest.length := h
              let whole := OrdinaryExpr.binary op left right ⟨start, placeOf stop after⟩
              match extendProduct stop start whole after with
              | .error names => .error names
              | .ok ⟨(e, after'), h'⟩ => .ok ⟨(e, after'), by simp at h' ⊢; omega⟩
  termination_by (cs.length, 2)

/-- Read a factor, which may have any number of signs. A plus sign leaves no trace. -/
def readFactor (stop : Position) (cs : List Char) : Except (List String) (Read cs.length) :=
  match cs with
  | '+' :: rest =>
      match readFactor stop rest with
      | .error names => .error names
      | .ok ⟨(e, after), h⟩ => .ok ⟨(e, after), by simp at h ⊢; omega⟩
  | '-' :: rest =>
      match readFactor stop rest with
      | .error names => .error names
      | .ok ⟨(e, after), h⟩ =>
          .ok ⟨(.negate e (span stop ('-' :: rest) after), after), by simp at h ⊢; omega⟩
  | '(' :: rest =>
      match readSum stop rest with
      | .error names => .error names
      | .ok ⟨(e, after), h⟩ =>
          match after, h with
          | [], _ => .error e.names
          | c :: after, h =>
              if c = ')' then .ok ⟨(e, after), by simp at h ⊢; omega⟩ else .error e.names
  | cs => readAtom stop cs
  termination_by (cs.length, 1)
end

/-- The expression that a piece spells, or the names read before the text was none. -/
def readExpr (p : Piece) : Except (List String) (OrdinaryExpr String) :=
  match readSum p.stop p.text with
  | .error names => .error names
  | .ok ⟨(e, []), _⟩ => .ok e
  | .ok ⟨(e, _ :: _), _⟩ => .error e.names

/-- The diagnostic of a piece that is no expression. -/
def invalidExpression (p : Piece) : Diagnostic :=
  ⟨.invalidExpression, [String.ofList p.text], p.range⟩

/-- The expression of a piece over the numbers of its names. -/
def internExpr (names : NameTable) (p : Piece) :
    Except Diagnostic (OrdinaryExpr NameId) × NameTable :=
  match readExpr p with
  | .ok e =>
      let (e, names) := e.intern names
      (.ok e, names)
  | .error seen => (.error (invalidExpression p), seen.foldl (fun t n => (t.insert n).2) names)

/-! ## Addresses -/

/-- The text in front of the group that ends a text, and the text inside that group. -/
def splitGroup : List Char → Option (List Char × List Char)
  | [] => none
  | c :: rest =>
      let later := (splitGroup rest).map fun (before, inner) => (c :: before, inner)
      if c = '(' then
        match group? rest with
        | some (inner, []) => some ([], inner)
        | _ => later
      else later

/-- The expressions of registers; an empty piece is a register that is left out. -/
def internRegisters (names : NameTable) :
    List Piece → Option (List (Option (OrdinaryExpr NameId))) × NameTable
  | [] => (some [], names)
  | p :: rest =>
      if p.text = [] then
        let (others, names) := internRegisters names rest
        (others.map (none :: ·), names)
      else
        let (register, names) := internExpr names p
        let (others, names) := internRegisters names rest
        match register with
        | .ok e => (others.map (some e :: ·), names)
        | .error _ => (none, names)

/-- A displacement with registers in the group that ends the text. At least one register must be
given, and at most two. -/
def internAddress (names : NameTable) (p : Piece) : Option MachineOperand × NameTable :=
  match splitGroup p.text with
  | none => (none, names)
  | some ([], _) => (none, names)
  | some (before, inner) =>
      let (displacement, names) := internExpr names ⟨p.start, before⟩
      let group : Piece := ⟨p.start.right (before.length + 1), inner⟩
      let (registers, names) := internRegisters names (pieces group)
      match displacement, registers with
      | .ok d, some [some first] => (some (.address d (some first) none), names)
      | .ok d, some [some first, second] => (some (.address d (some first) second), names)
      | .ok d, some [none, some second] => (some (.address d none (some second)), names)
      | _, _ => (none, names)

/-- The operand of a machine instruction: an address, or else an expression. -/
def internMachineOperand (names : NameTable) (p : Piece) :
    Except Diagnostic MachineOperand × NameTable :=
  match internAddress names p with
  | (some address, names) => (.ok address, names)
  | (none, names) =>
      match internExpr names p with
      | (.ok e, names) => (.ok (.expr e), names)
      | (.error d, names) => (.error d, names)

end MacroAssembler.Field
