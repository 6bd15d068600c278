import MacroAssembler.Conditional.Expr
import MacroAssembler.Field.Expression

/-!
# Reading concatenations

A text with variable symbols in it. An ampersand followed by a name, or by a group that makes up a
name, starts a variable symbol, and a group right behind it is its subscript. Dots, equals signs
and groups are fragments of their own; two ampersands, text in apostrophes and all else is literal
text. Every text can be read.
-/

namespace MacroAssembler.Field

open Conditional (Expr VariableSymbol Fragment Concatenation)

/-- A variable symbol as it is written: its name, or the inside of the group that makes up the
name, the inside of its subscript, and the text behind it. -/
structure VariableText where
  isCreated : Bool
  name : List Char
  subscript : Option (List Char)
  after : List Char

namespace VariableText

/-- The number of characters of the subscript and its parentheses. -/
def subscriptLength (v : VariableText) : Nat :=
  match v.subscript with
  | some inner => inner.length + 2
  | none => 0

/-- The number of characters of the name, the subscript, all parentheses, and the text behind. -/
def length (v : VariableText) : Nat :=
  v.name.length + (if v.isCreated then 2 else 0) + v.subscriptLength + v.after.length

/-- The variable symbol with the subscript that the text behind its name starts with, if any. -/
def withSubscript (isCreated : Bool) (name : List Char) (after : List Char) : VariableText :=
  match after with
  | '(' :: rest =>
      match group? rest with
      | some (inner, behind) => ⟨isCreated, name, some inner, behind⟩
      | none => ⟨isCreated, name, none, after⟩
  | _ => ⟨isCreated, name, none, after⟩

/-- The variable symbol that an ampersand in front of the text starts. -/
def scan (cs : List Char) : Option VariableText :=
  match cs with
  | [] => none
  | c :: rest =>
      if c = '(' then (group? rest).map fun (inner, after) => withSubscript true inner after
      else if Text.isNameChar c ∧ ¬c.isDigit then
        some (withSubscript false (c :: rest.takeWhile Text.isNameChar)
          (rest.dropWhile Text.isNameChar))
      else none

theorem length_withSubscript (isCreated : Bool) (name after : List Char) :
    (withSubscript isCreated name after).length =
      name.length + (if isCreated then 2 else 0) + after.length := by
  unfold withSubscript
  split
  · split
    · rename_i h
      have := length_group? h
      simp [length, subscriptLength]
      omega
    · simp [length, subscriptLength]
  · simp [length, subscriptLength]

/-- A variable symbol and the text behind it make up the text. -/
theorem length_scan {cs : List Char} {v : VariableText} (h : scan cs = some v) :
    v.length = cs.length := by
  unfold scan at h
  split at h
  · simp at h
  · rename_i c rest
    split at h
    · obtain ⟨⟨inner, after⟩, hg, rfl⟩ := Option.map_eq_some_iff.1 h
      have := length_group? hg
      simp [length_withSubscript]
      omega
    · split at h
      · obtain rfl := Option.some.inj h
        have whole : rest.takeWhile Text.isNameChar ++ rest.dropWhile Text.isNameChar = rest :=
          List.takeWhile_append_dropWhile
        have := congrArg List.length whole
        rw [List.length_append] at this
        simp [length_withSubscript]
        omega
      · simp at h

theorem length_after_le (v : VariableText) : v.after.length ≤ v.length := by
  simp [length]

end VariableText

/-- The text up to the apostrophe that closes it, and the text behind. Two apostrophes stand for
one and close nothing; an open text goes on to the end. -/
def takeQuoted : List Char → List Char × List Char
  | [] => ([], [])
  | '\'' :: '\'' :: rest =>
      let (quoted, after) := takeQuoted rest
      ('\'' :: '\'' :: quoted, after)
  | '\'' :: rest => (['\''], rest)
  | c :: rest =>
      let (quoted, after) := takeQuoted rest
      (c :: quoted, after)

theorem takeQuoted_append (cs : List Char) : (takeQuoted cs).1 ++ (takeQuoted cs).2 = cs := by
  fun_induction takeQuoted cs <;> simp_all

theorem length_takeQuoted (cs : List Char) :
    (takeQuoted cs).1.length + (takeQuoted cs).2.length = cs.length := by
  rw [← List.length_append, takeQuoted_append]

/-- Put literal text in front of a concatenation, as one fragment with the text it starts with. -/
def consText (cs : List Char) : Concatenation → Concatenation
  | .text s :: rest => .text (String.ofList cs ++ s) :: rest
  | rest => .text (String.ofList cs) :: rest

/-- The inside of a group as a piece, given the place behind the parenthesis that closes it. -/
def groupPiece (close : Position) (inner : List Char) : Piece :=
  ⟨{ close with column := close.column - 1 - inner.length }, inner⟩

theorem weight_group_le (close : Position) (inner : List Char) :
    weight (pieces (groupPiece close inner)) ≤ inner.length + 1 :=
  weight_pieces_le (groupPiece close inner)

/-- The pieces of the subscript of a variable symbol that ends at `close`. -/
def VariableText.subscriptPieces (v : VariableText) (close : Position) : List Piece :=
  match v.subscript with
  | some inner => pieces (groupPiece close inner)
  | none => []

theorem VariableText.weight_subscriptPieces_le (v : VariableText) (close : Position) :
    weight (v.subscriptPieces close) ≤ v.length := by
  unfold subscriptPieces
  split
  · rename_i inner h
    have := weight_group_le close inner
    simp [length, subscriptLength, h]
    omega
  · simp

/-- The variable symbol that a piece starts with. -/
def startingVariable? (p : Piece) : Option VariableText :=
  match p.text with
  | [] => none
  | c :: rest => if c = '&' then VariableText.scan rest else none

theorem length_startingVariable {p : Piece} {v : VariableText} (h : startingVariable? p = some v) :
    v.length < p.text.length := by
  unfold startingVariable? at h
  split at h
  · simp at h
  · rename_i c rest hp
    split at h
    · have := VariableText.length_scan h
      simp [hp, this]
    · simp at h

mutual
/-- Read the text that ends at `stop`. -/
def readFragments (stop : Position) (names : NameTable) (cs : List Char) :
    Concatenation × NameTable :=
  match cs with
  | [] => ([], names)
  | c :: rest =>
      if c = '&' then
        if rest.head? = some '&' then
          let (tail, names) := readFragments stop names rest.tail
          (consText ['&', '&'] tail, names)
        else
          match _h : VariableText.scan rest with
          | some v =>
              let (symbol, names) := readVariable stop names (placeOf stop cs) v
              let (tail, names) := readFragments stop names v.after
              (.reference symbol :: tail, names)
          | none =>
              let (tail, names) := readFragments stop names rest
              (consText [c] tail, names)
      else if c = '.' then
        let (tail, names) := readFragments stop names rest
        (.dot :: tail, names)
      else if c = '=' then
        let (tail, names) := readFragments stop names rest
        (.equals :: tail, names)
      else if c = '(' then
        match _h : group? rest with
        | some (inner, after) =>
            let group := groupPiece (placeOf stop after) inner
            let (items, names) := readItems names (pieces group)
            let (tail, names) := readFragments stop names after
            (.sublist items :: tail, names)
        | none =>
            let (tail, names) := readFragments stop names rest
            (consText [c] tail, names)
      else if c = '\'' then
        let (tail, names) := readFragments stop names (takeQuoted rest).2
        (consText (c :: (takeQuoted rest).1) tail, names)
      else
        let (tail, names) := readFragments stop names rest
        (consText [c] tail, names)
  termination_by 2 * cs.length
  decreasing_by
    all_goals simp only [List.length_cons, List.length_tail]
    · omega
    · have := VariableText.length_scan _h
      omega
    · have := VariableText.length_scan _h
      have := v.length_after_le
      omega
    · omega
    · omega
    · omega
    · have := length_group? _h
      have := weight_group_le (placeOf stop after) inner
      omega
    · have := length_group? _h
      omega
    · omega
    · have := length_takeQuoted rest
      omega
    · omega

/-- Read a variable symbol that starts at `start` and whose text behind ends at `stop`. -/
def readVariable (stop : Position) (names : NameTable) (start : Position) (v : VariableText) :
    VariableSymbol × NameTable :=
  let close := placeOf stop v.after
  if v.isCreated then
    let nameStop := { close with column := close.column - v.subscriptLength - 1 }
    let (name, names) := readFragments nameStop names v.name
    let (subscript, names) := readSubscript names (v.subscriptPieces close)
    (.created name subscript ⟨start, close⟩, names)
  else
    let (name, names) := names.insert (Text.upper (String.ofList v.name))
    let (subscript, names) := readSubscript names (v.subscriptPieces close)
    (.named name subscript ⟨start, close⟩, names)
  termination_by 2 * v.length + 1
  decreasing_by
    · have : v.name.length ≤ v.length := by simp [VariableText.length]; omega
      omega
    · have := v.weight_subscriptPieces_le (placeOf stop v.after)
      omega
    · have := v.weight_subscriptPieces_le (placeOf stop v.after)
      omega

/-- Read each piece of a sublist. -/
def readItems (names : NameTable) (ps : List Piece) : List Concatenation × NameTable :=
  match ps with
  | [] => ([], names)
  | p :: rest =>
      let (item, names) := readFragments p.stop names p.text
      let (items, names) := readItems names rest
      (item :: items, names)
  termination_by 2 * weight ps
  decreasing_by
    · simp
      omega
    · simp

/-- Read each piece of a subscript: a number, a variable symbol that takes all of the piece, or
else literal text. -/
def readSubscript (names : NameTable) (ps : List Piece) : List Expr × NameTable :=
  match ps with
  | [] => ([], names)
  | p :: rest =>
      let literal := Expr.text (String.ofList p.text) p.range
      match Numeral.integer? p.text with
      | some i =>
          let (exprs, names) := readSubscript names rest
          (.number i p.range :: exprs, names)
      | none =>
          match _h : startingVariable? p with
          | none =>
              let (exprs, names) := readSubscript names rest
              (literal :: exprs, names)
          | some v =>
              let (symbol, names) := readVariable p.stop names p.start v
              let (exprs, names) := readSubscript names rest
              (if v.after = [] then .reference symbol :: exprs else literal :: exprs, names)
  termination_by 2 * weight ps
  decreasing_by
    · simp
    · simp
    · have := length_startingVariable _h
      simp
      omega
    · simp
end

/-- The concatenation that a piece spells. -/
def readConcatenation (names : NameTable) (p : Piece) : Concatenation × NameTable :=
  readFragments p.stop names p.text

end MacroAssembler.Field
