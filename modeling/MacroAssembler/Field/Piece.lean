import MacroAssembler.Source

/-!
# Pieces of a field

A field is cut at the commas that stand outside parentheses and apostrophes, and ends at the first
blank outside apostrophes. Each piece keeps the place where it starts.
-/

namespace MacroAssembler

/-- A stretch of text and the place where it starts. -/
structure Piece where
  start : Position
  text : List Char
  deriving DecidableEq

namespace Piece

/-- The place behind the last character. -/
def stop (p : Piece) : Position := p.start.right p.text.length

/-- The columns the text takes, one for each character. -/
def range (p : Piece) : Range := ⟨p.start, p.stop⟩

end Piece

namespace Field

/-- Put a character in front of the first piece. -/
def consFirst (c : Char) : List (List Char) → List (List Char)
  | [] => [[c]]
  | piece :: rest => (c :: piece) :: rest

/-- Cut a text at its commas, starting inside so many parentheses, and inside apostrophes or
not. -/
def cut (depth : Int) (quoted : Bool) : List Char → List (List Char)
  | [] => [[]]
  | c :: rest =>
      if c = '\'' then consFirst c (cut depth (!quoted) rest)
      else if quoted then consFirst c (cut depth quoted rest)
      else if c = '(' then consFirst c (cut (depth + 1) quoted rest)
      else if c = ')' then consFirst c (cut (depth - 1) quoted rest)
      else if c = ',' ∧ depth = 0 then [] :: cut depth quoted rest
      else if c = ' ' then [[]]
      else consFirst c (cut depth quoted rest)

/-- Texts that follow each other with one character between them, as pieces from a place on. -/
def locate (start : Position) : List (List Char) → List Piece
  | [] => []
  | text :: rest => ⟨start, text⟩ :: locate (start.right (text.length + 1)) rest

/-- The pieces of a field; an empty field has none. -/
def pieces (field : Piece) : List Piece :=
  if field.text = [] then [] else locate field.start (cut 0 false field.text)

/-- The text up to the parenthesis that closes a group, inside so many groups within it, and the
text behind that parenthesis. -/
def takeGroup (depth : Nat) (quoted : Bool) : List Char → Option (List Char × List Char)
  | [] => none
  | c :: rest =>
      if c = '\'' then (takeGroup depth (!quoted) rest).map fun (inner, after) =>
        (c :: inner, after)
      else if quoted then (takeGroup depth quoted rest).map fun (inner, after) =>
        (c :: inner, after)
      else if c = '(' then
        (takeGroup (depth + 1) quoted rest).map fun (inner, after) => (c :: inner, after)
      else if c = ')' then
        match depth with
        | 0 => some ([], rest)
        | depth + 1 => (takeGroup depth quoted rest).map fun (inner, after) => (c :: inner, after)
      else (takeGroup depth quoted rest).map fun (inner, after) => (c :: inner, after)

/-- The text inside a group, given the text behind the parenthesis that opens it, and the text
behind the group. -/
def group? (cs : List Char) : Option (List Char × List Char) := takeGroup 0 false cs

/-! ## Lengths -/

/-- The room that texts take with a character behind each of them. -/
def room : List (List Char) → Nat
  | [] => 0
  | text :: rest => text.length + 1 + room rest

/-- The size of a list of pieces, counting for each the character that ends it. -/
def weight (ps : List Piece) : Nat := room (ps.map Piece.text)

@[simp]
theorem weight_nil : weight [] = 0 := rfl

@[simp]
theorem weight_cons (p : Piece) (rest : List Piece) :
    weight (p :: rest) = p.text.length + 1 + weight rest := rfl

theorem weight_locate (start : Position) (texts : List (List Char)) :
    weight (locate start texts) = room texts := by
  induction texts generalizing start with
  | nil => rfl
  | cons t rest ih => rw [locate, weight_cons, ih, room]

theorem room_consFirst (c : Char) (texts : List (List Char)) :
    room (consFirst c texts) ≤ room texts + (if texts = [] then 2 else 1) := by
  cases texts with
  | nil => simp [consFirst, room]
  | cons t rest => simp [consFirst, room]; omega

theorem cut_ne_nil (depth : Int) (quoted : Bool) (cs : List Char) : cut depth quoted cs ≠ [] := by
  have cons_ne_nil (c : Char) (texts : List (List Char)) : consFirst c texts ≠ [] := by
    cases texts <;> simp [consFirst]
  cases cs with
  | nil => simp [cut]
  | cons c rest =>
      unfold cut
      repeat' split
      all_goals simp [cons_ne_nil]

/-- The pieces and the commas between them take no more room than the text they are cut from. -/
theorem room_cut_le (depth : Int) (quoted : Bool) (cs : List Char) :
    room (cut depth quoted cs) ≤ cs.length + 1 := by
  induction cs generalizing depth quoted with
  | nil => simp [cut, room]
  | cons c rest ih =>
      have grow (d : Int) (q : Bool) : room (consFirst c (cut d q rest)) ≤ rest.length + 1 + 1 := by
        have h := room_consFirst c (cut d q rest)
        rw [if_neg (cut_ne_nil d q rest)] at h
        have := ih d q
        omega
      have at_comma : room ([] :: cut depth quoted rest) ≤ rest.length + 1 + 1 := by
        have := ih depth quoted
        simp only [room, List.length_nil]
        omega
      unfold cut
      split
      · exact grow depth (!quoted)
      split
      · exact grow depth quoted
      split
      · exact grow (depth + 1) quoted
      split
      · exact grow (depth - 1) quoted
      split
      · exact at_comma
      split
      · simp [room]
      · exact grow depth quoted

theorem weight_pieces_le (field : Piece) : weight (pieces field) ≤ field.text.length + 1 := by
  unfold pieces
  split
  · simp
  · rw [weight_locate]
    exact room_cut_le 0 false field.text

/-- The inside of a group, its closing parenthesis and the rest make up the text. -/
theorem length_takeGroup {depth : Nat} {quoted : Bool} {cs inner after : List Char}
    (h : takeGroup depth quoted cs = some (inner, after)) :
    inner.length + 1 + after.length = cs.length := by
  induction cs generalizing depth quoted inner with
  | nil => simp [takeGroup] at h
  | cons c rest ih =>
      have grow {d : Nat} {q : Bool}
          (h : (takeGroup d q rest).map (fun (i, a) => (c :: i, a)) = some (inner, after)) :
          inner.length + 1 + after.length = (c :: rest).length := by
        obtain ⟨⟨i, a⟩, hi, he⟩ := Option.map_eq_some_iff.1 h
        obtain ⟨rfl, rfl⟩ := Prod.mk.inj he
        have := ih hi
        simp
        omega
      unfold takeGroup at h
      split at h
      · exact grow h
      split at h
      · exact grow h
      split at h
      · exact grow h
      split at h
      · cases depth with
        | zero =>
            obtain ⟨rfl, rfl⟩ := Prod.mk.inj (Option.some.inj h)
            simp only [List.length_nil, List.length_cons]
            omega
        | succ depth => exact grow h
      · exact grow h

theorem length_group? {cs inner after : List Char} (h : group? cs = some (inner, after)) :
    inner.length + 1 + after.length = cs.length :=
  length_takeGroup h

end Field

end MacroAssembler
