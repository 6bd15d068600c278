import MacroAssembler.Field.Piece
import MacroAssembler.Text.Letters

/-!
# Reading by number

A text can be read by taking characters off its front, or by keeping all of it and a number: the
characters are then looked up, and the pieces are cut out between two numbers. The second way can
go wrong where the first cannot, when a number lies beyond the end or two numbers are in the wrong
order. Here such a mistake has no result. Fields are split by number into the pieces that cutting
gives (`split_eq`), and the parenthesis that closes a group is where the group ends
(`closing?_eq`).
-/

namespace MacroAssembler

namespace Position

@[simp] theorem right_zero (p : Position) : p.right 0 = p := rfl

theorem right_right (p : Position) (m n : Nat) : (p.right m).right n = p.right (m + n) := by
  simp [right, Nat.add_assoc]

end Position

namespace Field

/-! ## Slices -/

/-- The text between two numbers of characters. -/
def slice? (cs : List Char) (start stop : Nat) : Option (List Char) :=
  if start ≤ stop ∧ stop ≤ cs.length then some ((cs.drop start).take (stop - start)) else none

/-- The number of characters in front of a byte, if no character has the byte inside. -/
def boundary? : List Char → Nat → Option Nat
  | _, 0 => some 0
  | [], _ + 1 => none
  | c :: rest, n + 1 =>
      if c.utf8Size ≤ n + 1 then (boundary? rest (n + 1 - c.utf8Size)).map (· + 1) else none

/-- The text between two bytes. -/
def byteSlice? (cs : List Char) (start stop : Nat) : Option (List Char) := do
  slice? cs (← boundary? cs start) (← boundary? cs stop)

section Slices

variable (done word rest : List Char)

/-- A text stands between its own numbers. -/
theorem slice?_append {start stop : Nat} (hstart : start = done.length)
    (hstop : stop = done.length + word.length) :
    slice? (done ++ (word ++ rest)) start stop = some word := by
  subst hstart hstop
  have hbound : done.length + word.length ≤ (done ++ (word ++ rest)).length := by
    simp only [List.length_append]
    omega
  unfold slice?
  rw [if_pos ⟨Nat.le_add_right _ _, hbound⟩, List.drop_left, Nat.add_sub_cancel_left,
    List.take_left]

theorem byteLength_append :
    Text.byteLength (done ++ word) = Text.byteLength done + Text.byteLength word := by
  induction done with
  | nil => simp [Text.byteLength]
  | cons c done ih =>
      simp only [List.cons_append, Text.byteLength, ih]
      omega

/-- A character starts, or the text ends, behind every beginning of a text. -/
theorem boundary?_append : boundary? (done ++ rest) (Text.byteLength done) = some done.length := by
  induction done with
  | nil => cases rest <;> rfl
  | cons c done ih =>
      have hpos := c.utf8Size_pos
      obtain ⟨n, hn⟩ : ∃ n, Text.byteLength (c :: done) = n + 1 :=
        ⟨Text.byteLength (c :: done) - 1, by simp only [Text.byteLength]; omega⟩
      have hrest : n + 1 - c.utf8Size = Text.byteLength done := by
        simp only [Text.byteLength] at hn
        omega
      have hle : c.utf8Size ≤ n + 1 := by
        simp only [Text.byteLength] at hn
        omega
      rw [hn, List.cons_append, boundary?, if_pos hle, hrest, ih]
      rfl

/-- A text stands between the bytes in front of it and behind it. -/
theorem byteSlice?_append : byteSlice? (done ++ (word ++ rest)) (Text.byteLength done)
    (Text.byteLength (done ++ word)) = some word := by
  have hstart := boundary?_append done (word ++ rest)
  have hstop := boundary?_append (done ++ word) rest
  rw [List.append_assoc] at hstop
  simp only [byteSlice?, hstart, hstop, Option.bind_eq_bind, Option.bind_some]
  exact slice?_append done word rest rfl (List.length_append)

end Slices

/-! ## Splitting -/

/-- A place in a text, counted in bytes and in characters. -/
structure Mark where
  byte : Nat
  number : Nat

/-- The place behind a text. -/
def Mark.behind (cs : List Char) : Mark := ⟨Text.byteLength cs, cs.length⟩

/-- The place behind one more character. -/
def Mark.next (m : Mark) (c : Char) : Mark := ⟨m.byte + c.utf8Size, m.number + 1⟩

@[simp] theorem Mark.next_behind (cs : List Char) (c : Char) :
    (Mark.behind cs).next c = .behind (cs ++ [c]) := by
  simp [next, behind, byteLength_append, Text.byteLength]

/-- Split a field, walking over what is left of it from `here` on. The piece that is walked over
starts at `start`. Each piece comes with the number of characters in front of it. -/
def splitFrom (field : List Char) (depth : Int) (quoted : Bool) (start here : Mark) :
    List Char → Option (List (Nat × List Char))
  | [] => do return [(start.number, ← byteSlice? field start.byte (Text.byteLength field))]
  | c :: rest =>
      let next := here.next c
      if c = '\'' then splitFrom field depth (!quoted) start next rest
      else if quoted then splitFrom field depth quoted start next rest
      else if c = '(' then splitFrom field (depth + 1) quoted start next rest
      else if c = ')' then splitFrom field (depth - 1) quoted start next rest
      else if c = ',' ∧ depth = 0 then do
        let piece ← byteSlice? field start.byte here.byte
        let others ← splitFrom field depth quoted ⟨here.byte + 1, here.number + 1⟩ next rest
        return (start.number, piece) :: others
      else if c = ' ' then do return [(start.number, ← byteSlice? field start.byte here.byte)]
      else splitFrom field depth quoted start next rest

/-- Split a field by number. -/
def split (field : List Char) : Option (List (Nat × List Char)) :=
  if field = [] then some [] else splitFrom field 0 false ⟨0, 0⟩ ⟨0, 0⟩ field

/-- Put a text in front of the first piece. -/
def appendFirst (word : List Char) : List (List Char) → List (List Char)
  | [] => [word]
  | piece :: rest => (word ++ piece) :: rest

/-- Texts that follow each other with one character between them, with the number of characters in
front of each. -/
def number (n : Nat) : List (List Char) → List (Nat × List Char)
  | [] => []
  | text :: rest => (n, text) :: number (n + text.length + 1) rest

/-- The pieces of a text, with the number of characters in front of each. -/
def numberedPieces (field : List Char) : List (Nat × List Char) :=
  if field = [] then [] else number 0 (cut 0 false field)

theorem appendFirst_nil {texts : List (List Char)} (hne : texts ≠ []) :
    appendFirst [] texts = texts := by
  cases texts with
  | nil => exact absurd rfl hne
  | cons => rfl

theorem appendFirst_consFirst (word : List Char) (c : Char) (texts : List (List Char)) :
    appendFirst word (consFirst c texts) = appendFirst (word ++ [c]) texts := by
  cases texts <;> simp [consFirst, appendFirst]

/-- Walking over the rest of a field splits it where cutting does. -/
theorem splitFrom_eq (depth : Int) (quoted : Bool) (done word rest : List Char) :
    splitFrom (done ++ (word ++ rest)) depth quoted (.behind done) (.behind (done ++ word)) rest =
      some (number done.length (appendFirst word (cut depth quoted rest))) := by
  induction rest generalizing depth quoted done word with
  | nil =>
      have hslice := byteSlice?_append done word []
      rw [List.append_nil] at hslice
      rw [splitFrom, List.append_nil]
      simp [Mark.behind, hslice, cut, appendFirst, number]
  | cons c rest ih =>
      have hslice : byteSlice? (done ++ (word ++ c :: rest)) (Mark.behind done).byte
          (Mark.behind (done ++ word)).byte = some word := byteSlice?_append done word (c :: rest)
      -- the character joins the piece
      have hgrow (depth : Int) (quoted : Bool) :
          splitFrom (done ++ (word ++ c :: rest)) depth quoted (.behind done)
              ((Mark.behind (done ++ word)).next c) rest =
            some (number done.length (appendFirst word (consFirst c (cut depth quoted rest)))) := by
        have hnext := ih depth quoted done (word ++ [c])
        rw [appendFirst_consFirst, Mark.next_behind, List.append_assoc]
        rwa [List.append_assoc] at hnext
      unfold splitFrom cut
      dsimp only
      split
      · exact hgrow _ _
      split
      · exact hgrow _ _
      split
      · exact hgrow _ _
      split
      · exact hgrow _ _
      split
      · rename_i hcomma
        obtain ⟨rfl, rfl⟩ := hcomma
        have hothers := ih 0 quoted (done ++ (word ++ [','])) []
        have hstart : Mark.mk ((Mark.behind (done ++ word)).byte + 1)
            ((Mark.behind (done ++ word)).number + 1) = .behind (done ++ (word ++ [','])) := by
          rw [← List.append_assoc, ← Mark.next_behind]
          rfl
        have hfield : done ++ (word ++ ',' :: rest) = done ++ (word ++ [',']) ++ ([] ++ rest) := by
          simp
        rw [hstart, hslice, Mark.next_behind, List.append_assoc]
        rw [List.append_nil, ← hfield] at hothers
        rw [hothers, appendFirst_nil (cut_ne_nil _ _ _)]
        simp [appendFirst, number, Mark.behind, Nat.add_assoc]
      split
      · rw [hslice]
        simp [appendFirst, number, Mark.behind]
      · exact hgrow _ _

/-- A field is split by number into the pieces that cutting gives. -/
theorem split_eq (field : List Char) : split field = some (numberedPieces field) := by
  unfold split numberedPieces
  split
  · rfl
  · have hsplit := splitFrom_eq 0 false [] [] field
    rwa [appendFirst_nil (cut_ne_nil _ _ _)] at hsplit

/-- The texts of pieces do not depend on where they stand. -/
theorem texts_locate (start : Position) (texts : List (List Char)) :
    (locate start texts).map Piece.text = texts := by
  induction texts generalizing start with
  | nil => rfl
  | cons text rest ih => rw [locate, List.map_cons, ih]

/-- The pieces of a field are located by their numbers. -/
theorem pieces_eq (start : Position) (field : List Char) :
    pieces ⟨start, field⟩ = (numberedPieces field).map fun p => ⟨start.right p.1, p.2⟩ := by
  have hlocate (n : Nat) (texts : List (List Char)) :
      locate (start.right n) texts = (number n texts).map fun p => ⟨start.right p.1, p.2⟩ := by
    induction texts generalizing n with
    | nil => rfl
    | cons text texts ih =>
        rw [locate, number, List.map_cons, Position.right_right, ← ih, Nat.add_assoc]
  unfold pieces numberedPieces
  dsimp only
  split
  · rfl
  · exact hlocate 0 _

/-- A comma or a blank stands behind a piece, or nothing does. -/
def Closes (behind : List Char) : Prop := ∀ c ∈ behind.head?, c = ',' ∨ c = ' '

/-- Every piece stands in the field behind as many characters as its number says. -/
theorem exists_of_mem_numberedPieces {field : List Char} {n : Nat} {text : List Char}
    (h : (n, text) ∈ numberedPieces field) :
    ∃ before behind, field = before ++ (text ++ behind) ∧ before.length = n ∧ Closes behind := by
  have hcut (depth : Int) (quoted : Bool) (done word rest : List Char)
      (h : (n, text) ∈ number done.length (appendFirst word (cut depth quoted rest))) :
      ∃ before behind, done ++ (word ++ rest) = before ++ (text ++ behind) ∧ before.length = n ∧
        Closes behind := by
    induction rest generalizing depth quoted done word with
    | nil =>
        obtain ⟨rfl, rfl⟩ : n = done.length ∧ text = word := by
          simpa [cut, appendFirst, number] using h
        exact ⟨done, [], rfl, rfl, by simp [Closes]⟩
    | cons c rest ih =>
        have hgrow (depth : Int) (quoted : Bool)
            (h : (n, text) ∈ number done.length
              (appendFirst word (consFirst c (cut depth quoted rest)))) :
            ∃ before behind, done ++ (word ++ c :: rest) = before ++ (text ++ behind) ∧
              before.length = n ∧ Closes behind := by
          rw [appendFirst_consFirst] at h
          simpa using ih depth quoted done (word ++ [c]) h
        unfold cut at h
        split at h
        · exact hgrow _ _ h
        split at h
        · exact hgrow _ _ h
        split at h
        · exact hgrow _ _ h
        split at h
        · exact hgrow _ _ h
        split at h
        · rename_i hcomma
          rw [appendFirst, List.append_nil, number, List.mem_cons] at h
          rcases h with heq | h
          · obtain ⟨rfl, rfl⟩ := Prod.mk.inj heq
            exact ⟨done, c :: rest, rfl, rfl, by simp [Closes, hcomma.1]⟩
          · have hothers := ih depth quoted (done ++ (word ++ [c])) []
            rw [appendFirst_nil (cut_ne_nil _ _ _)] at hothers
            simpa [← Nat.add_assoc] using hothers (by simpa [← Nat.add_assoc] using h)
        split at h
        · rename_i hblank
          obtain ⟨rfl, rfl⟩ : n = done.length ∧ text = word := by
            simpa [appendFirst, number] using h
          exact ⟨done, c :: rest, rfl, rfl, by simp [Closes, hblank]⟩
        · exact hgrow _ _ h
  unfold numberedPieces at h
  split at h
  · simp at h
  · simpa using hcut 0 false [] [] field (by rwa [appendFirst_nil (cut_ne_nil _ _ _)])

/-! ## Groups -/

/-- The number of the parenthesis that leaves all groups, walking over a text from `here` on. -/
def closing (depth : Int) (quoted : Bool) (here : Nat) : List Char → Option Nat
  | [] => none
  | c :: rest =>
      if c = '\'' then closing depth (!quoted) (here + 1) rest
      else if quoted then closing depth quoted (here + 1) rest
      else if c = '(' then closing (depth + 1) quoted (here + 1) rest
      else if c = ')' then
        if depth - 1 = 0 then some here else closing (depth - 1) quoted (here + 1) rest
      else closing depth quoted (here + 1) rest

/-- The number of the parenthesis that closes the group which starts at a number. -/
def closing? (cs : List Char) (start : Nat) : Option Nat := closing 0 false start (cs.drop start)

/-- The text inside a group stands in front of the parenthesis that closes it. -/
theorem takeGroup_eq {depth : Nat} {quoted : Bool} {cs inner after : List Char}
    (h : takeGroup depth quoted cs = some (inner, after)) : cs = inner ++ ')' :: after := by
  induction cs generalizing depth quoted inner with
  | nil => simp [takeGroup] at h
  | cons c rest ih =>
      have hgrow {d : Nat} {q : Bool}
          (h : (takeGroup d q rest).map (fun g => (c :: g.1, g.2)) = some (inner, after)) :
          c :: rest = inner ++ ')' :: after := by
        obtain ⟨⟨i, a⟩, hi, he⟩ := Option.map_eq_some_iff.1 h
        obtain ⟨rfl, rfl⟩ := Prod.mk.inj he
        rw [ih hi, List.cons_append]
      unfold takeGroup at h
      split at h
      · exact hgrow h
      split at h
      · exact hgrow h
      split at h
      · exact hgrow h
      split at h
      · rename_i hparen
        cases depth with
        | zero =>
            obtain ⟨rfl, rfl⟩ := Prod.mk.inj (Option.some.inj h)
            rw [hparen, List.nil_append]
        | succ depth => exact hgrow h
      · exact hgrow h

/-- A parenthesis stands where the walk starts or behind. -/
theorem le_of_closing {depth : Int} {quoted : Bool} {here k : Nat} {cs : List Char}
    (h : closing depth quoted here cs = some k) : here ≤ k := by
  induction cs generalizing depth quoted here with
  | nil => simp [closing] at h
  | cons c rest ih =>
      have hnext {d : Int} {q : Bool} (h : closing d q (here + 1) rest = some k) : here ≤ k :=
        Nat.le_of_succ_le (ih h)
      unfold closing at h
      split at h
      · exact hnext h
      split at h
      · exact hnext h
      split at h
      · exact hnext h
      split at h
      · split at h
        · exact Nat.le_of_eq (Option.some.inj h)
        · exact hnext h
      · exact hnext h

/-- A group that is closed within a text is closed behind what stands inside. What follows the text
does not matter, as long as parentheses behind the text do not count. -/
theorem closing_append (depth : Nat) (quoted : Bool) (here : Nat) (cs behind : List Char) :
    (closing (depth + 1) quoted here (cs ++ behind)).filter (· < here + cs.length) =
      (takeGroup depth quoted cs).map fun g => here + g.1.length := by
  induction cs generalizing depth quoted here with
  | nil =>
      refine Option.filter_eq_none_iff.2 fun k hk => ?_
      have hle : here ≤ k := le_of_closing hk
      show ¬ decide (k < here + 0) = true
      simpa using hle
  | cons c rest ih =>
      have hgrow (d : Nat) (q : Bool) :
          (closing (d + 1) q (here + 1) (rest ++ behind)).filter (· < here + (c :: rest).length) =
            ((takeGroup d q rest).map fun g => (c :: g.1, g.2)).map fun g => here + g.1.length := by
        have hrest := ih d q (here + 1)
        rw [show here + 1 + rest.length = here + (c :: rest).length by simp; omega] at hrest
        rw [hrest, Option.map_map]
        congr 1
        funext g
        simp only [Function.comp, List.length_cons]
        omega
      rw [List.cons_append]
      unfold closing takeGroup
      split
      · exact hgrow _ _
      split
      · exact hgrow _ _
      split
      · exact_mod_cast hgrow (depth + 1) quoted
      split
      · cases depth with
        | zero => simp
        | succ depth =>
            have hdepth : ((depth + 1 : Nat) : Int) + 1 - 1 = (depth : Int) + 1 := by omega
            rw [if_neg (by omega), hdepth]
            exact hgrow depth quoted
      · exact hgrow _ _

/-- The group that starts at a parenthesis is closed behind what stands inside. -/
theorem closing?_eq (done rest behind : List Char) :
    (closing? (done ++ ('(' :: rest ++ behind)) done.length).filter
        (· < done.length + 1 + rest.length) =
      (group? rest).map fun g => done.length + 1 + g.1.length := by
  unfold closing?
  rw [List.drop_left, List.cons_append, closing, if_neg (by decide), if_neg (by decide), if_pos rfl]
  exact closing_append 0 false (done.length + 1) rest behind

/-- The group that starts at a parenthesis is closed by the last character of the text if nothing
stands behind it. -/
theorem closing?_eq_last_iff (done rest : List Char) :
    closing? (done ++ '(' :: rest) done.length = some ((done ++ '(' :: rest).length - 1) ↔
      ∃ inner, group? rest = some (inner, []) := by
  have hlast : (done ++ '(' :: rest).length - 1 = done.length + rest.length := by
    simp only [List.length_append, List.length_cons]
    omega
  have hclosing := closing?_eq done rest []
  rw [List.append_nil] at hclosing
  rw [hlast]
  constructor
  · intro h
    rw [h, Option.filter_some, if_pos (by simp)] at hclosing
    obtain ⟨⟨inner, after⟩, hgroup, hlength⟩ := Option.map_eq_some_iff.1 hclosing.symm
    have hrest := congrArg List.length (takeGroup_eq hgroup)
    dsimp only at hlength
    rw [List.length_append, List.length_cons] at hrest
    obtain rfl : after = [] := List.length_eq_zero_iff.1 (by omega)
    exact ⟨inner, hgroup⟩
  · rintro ⟨inner, hgroup⟩
    have hrest := congrArg List.length (takeGroup_eq hgroup)
    rw [List.length_append, List.length_singleton] at hrest
    rw [hgroup, Option.map_some, Option.filter_eq_some_iff] at hclosing
    rw [hclosing.1, hrest]
    congr 1
    show done.length + 1 + inner.length = done.length + (inner.length + 1)
    omega

end Field

end MacroAssembler
