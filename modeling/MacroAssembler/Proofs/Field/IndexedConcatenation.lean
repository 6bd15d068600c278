import MacroAssembler.Field.Concatenation
import MacroAssembler.Proofs.Field.IndexedExpression

/-!
# Reading concatenations by number

A reader that keeps the text of a concatenation and the number of the next character, and reads the
part of the text between two numbers. The parts lie within each other: the name and the subscript of
a variable symbol, and the items of a group, are read out of the same text. The reader makes no
mistake with its numbers, comes to an end, and gives what `readFragments` gives (`fragmentsAt_eq`).
-/

namespace MacroAssembler.Field

open Conditional (Expr VariableSymbol Fragment Concatenation)

/-- The text up to the apostrophe that closes it, no further than `stop`, and the number behind. -/
def quotedAt (text : List Char) (stop n : Nat) : Option (List Char × Nat) :=
  if n < stop then do
    let c ← text[n]?
    if c = '\'' then
      if text[n + 1]? = some '\'' ∧ n + 1 < stop then
        let (quoted, next) ← quotedAt text stop (n + 2)
        return (c :: '\'' :: quoted, next)
      else return ([c], n + 1)
    else
      let (quoted, next) ← quotedAt text stop (n + 1)
      return (c :: quoted, next)
  else return ([], n)
  termination_by stop - n

/-- The number behind the characters of a name, no further than `stop`. -/
def skipName (text : List Char) (stop n : Nat) : Option Nat :=
  if n < stop then do
    if Text.isNameChar (← text[n]?) then skipName text stop (n + 1) else return n
  else return n
  termination_by stop - n

/-- The number of the parenthesis that closes the group at a number, if it stands before `stop`. -/
def closingBefore? (text : List Char) (stop n : Nat) : Option Nat :=
  (closing? text n).filter (· < stop)

mutual
/-- The text between two numbers. Like the other readers it fails when so many calls as `fuel`
allows lie within each other. -/
def fragmentsAt (start : Position) (text : List Char) (names : NameTable) (fuel stop n : Nat) :
    Option (Concatenation × NameTable) :=
  match fuel with
  | 0 => none
  | fuel + 1 =>
      if n < stop then do
        let c ← text[n]?
        if c = '&' then
          if text[n + 1]? = some '&' then
            let (tail, names) ← fragmentsAt start text names fuel stop (n + 2)
            return (consText ['&', '&'] tail, names)
          else
            match ← variableAt start text names fuel stop n with
            | (some (symbol, next), names) =>
                let (tail, names) ← fragmentsAt start text names fuel stop next
                return (.reference symbol :: tail, names)
            | (none, names) =>
                let (tail, names) ← fragmentsAt start text names fuel stop (n + 1)
                return (consText [c] tail, names)
        else if c = '.' then
          let (tail, names) ← fragmentsAt start text names fuel stop (n + 1)
          return (.dot :: tail, names)
        else if c = '=' then
          let (tail, names) ← fragmentsAt start text names fuel stop (n + 1)
          return (.equals :: tail, names)
        else if c = '(' then
          match closingBefore? text stop n with
          | some close =>
              let inner ← slice? text (n + 1) close
              let (items, names) ← itemsAt start text names (n + 1) fuel (← split inner)
              let (tail, names) ← fragmentsAt start text names fuel stop (close + 1)
              return (.sublist items :: tail, names)
          | none =>
              let (tail, names) ← fragmentsAt start text names fuel stop (n + 1)
              return (consText [c] tail, names)
        else if c = '\'' then
          let (quoted, next) ← quotedAt text stop (n + 1)
          let (tail, names) ← fragmentsAt start text names fuel stop next
          return (consText (c :: quoted) tail, names)
        else
          let (tail, names) ← fragmentsAt start text names fuel stop (n + 1)
          return (consText [c] tail, names)
      else return ([], names)
  termination_by structural fuel

/-- The variable symbol that the ampersand at a number starts, and the number behind it. -/
def variableAt (start : Position) (text : List Char) (names : NameTable) (fuel stop n : Nat) :
    Option (Option (VariableSymbol × Nat) × NameTable) :=
  match fuel with
  | 0 => none
  | fuel + 1 =>
      if text[n + 1]? = some '(' then
        match closingBefore? text stop (n + 1) with
        | none => return (none, names)
        | some close => do
            let (name, names) ← fragmentsAt start text names fuel close (n + 2)
            let (subscript, next, names) ← subscriptAt start text names fuel stop (close + 1)
            let range : Range := ⟨start.right n, start.right next⟩
            return (some (.created name subscript range, next), names)
      else do
        let behind ← skipName text stop (n + 1)
        if behind = n + 1 then return (none, names)
        else if (← text[n + 1]?).isDigit then return (none, names)
        else
          let name ← slice? text (n + 1) behind
          let (name, names) := names.insert (Text.upper (String.ofList name))
          let (subscript, next, names) ← subscriptAt start text names fuel stop behind
          let range : Range := ⟨start.right n, start.right next⟩
          return (some (.named name subscript range, next), names)
  termination_by structural fuel

/-- The subscript that a group at a number makes up, and the number behind it. -/
def subscriptAt (start : Position) (text : List Char) (names : NameTable) (fuel stop n : Nat) :
    Option (List Expr × Nat × NameTable) :=
  match fuel with
  | 0 => none
  | fuel + 1 =>
      if text[n]? = some '(' then
        match closingBefore? text stop n with
        | some close => do
            let inner ← slice? text (n + 1) close
            let (exprs, names) ← exprsAt start text names (n + 1) fuel (← split inner)
            return (exprs, close + 1, names)
        | none => return ([], n, names)
      else return ([], n, names)
  termination_by structural fuel

/-- The items of a group that starts at `first`, given their texts and their numbers in it. -/
def itemsAt (start : Position) (text : List Char) (names : NameTable) (first fuel : Nat)
    (parts : List (Nat × List Char)) : Option (List Concatenation × NameTable) :=
  match fuel, parts with
  | 0, _ => none
  | _ + 1, [] => return ([], names)
  | fuel + 1, (n, part) :: rest => do
      let (item, names) ← fragmentsAt start text names fuel (first + n + part.length) (first + n)
      let (items, names) ← itemsAt start text names first fuel rest
      return (item :: items, names)
  termination_by structural fuel

/-- The expressions of a subscript that starts at `first`, given their texts and their numbers in
it. -/
def exprsAt (start : Position) (text : List Char) (names : NameTable) (first fuel : Nat)
    (parts : List (Nat × List Char)) : Option (List Expr × NameTable) :=
  match fuel, parts with
  | 0, _ => none
  | _ + 1, [] => return ([], names)
  | fuel + 1, (n, part) :: rest => do
      let stop := first + n + part.length
      let range : Range := ⟨start.right (first + n), start.right stop⟩
      let literal := Expr.text (String.ofList part) range
      match Numeral.integer? part with
      | some i =>
          let (exprs, names) ← exprsAt start text names first fuel rest
          return (.number i range :: exprs, names)
      | none =>
          if part.head? = some '&' then
            let (found, names) ← variableAt start text names fuel stop (first + n)
            let (exprs, names) ← exprsAt start text names first fuel rest
            match found with
            | some (symbol, next) =>
                return (if next = stop then .reference symbol :: exprs else literal :: exprs, names)
            | none => return (literal :: exprs, names)
          else
            let (exprs, names) ← exprsAt start text names first fuel rest
            return (literal :: exprs, names)
  termination_by structural fuel
end

/-! ## Parts of a text -/

/-- What follows a part makes no ampersand of it double and opens no group behind it. -/
def Quiet (behind : List Char) : Prop := ∀ c ∈ behind.head?, c ≠ '&' ∧ c ≠ '('

/-- The part stands in the text from `n` up to `stop`. -/
structure Stands (text : List Char) (n stop : Nat) (part : List Char) : Prop where
  split : ∃ done behind, text = done ++ (part ++ behind) ∧ n = done.length ∧ Quiet behind
  stop : stop = n + part.length

namespace Stands

variable {text part before after inner : List Char} {c : Char} {n stop : Nat}

/-- The rest of a part. -/
theorem drop (h : Stands text n stop (before ++ after)) :
    Stands text (n + before.length) stop after := by
  obtain ⟨⟨done, behind, htext, rfl, hquiet⟩, hstop⟩ := h
  refine ⟨⟨done ++ before, behind, by simp [htext], by simp, hquiet⟩, ?_⟩
  rw [hstop, List.length_append]
  omega

/-- The rest of a part behind its first character. -/
theorem tail (h : Stands text n stop (c :: part)) : Stands text (n + 1) stop part :=
  drop (show Stands text n stop ([c] ++ part) from h)

/-- The number behind the beginning of a part. -/
theorem number (h : Stands text n stop (before ++ after)) :
    stop - after.length = n + before.length := by
  have hstop := h.stop
  rw [List.length_append] at hstop
  omega

theorem getElem? (h : Stands text n stop (c :: part)) : text[n]? = some c := by
  obtain ⟨⟨done, behind, htext, rfl, -⟩, -⟩ := h
  rw [htext, getElem?_append_length]
  rfl

/-- An ampersand or an opening parenthesis at the start of a part belongs to it. -/
theorem getElem?_eq_some_iff (h : Stands text n stop part) (hc : c = '&' ∨ c = '(') :
    text[n]? = some c ↔ part.head? = some c := by
  obtain ⟨⟨done, behind, htext, rfl, hquiet⟩, -⟩ := h
  rw [htext, getElem?_append_length]
  cases part with
  | cons => rfl
  | nil =>
      refine ⟨fun hhead => ?_, nofun⟩
      obtain ⟨hampersand, hparen⟩ := hquiet c hhead
      exact hc.elim (absurd · hampersand) (absurd · hparen)

theorem lt (h : Stands text n stop (c :: part)) : n < stop := by
  rw [h.stop, List.length_cons]
  omega

/-- The beginning of a part is cut out between its numbers. -/
theorem slice (h : Stands text n stop (before ++ after)) {k : Nat} (hk : k = n + before.length) :
    slice? text n k = some before := by
  obtain ⟨⟨done, behind, htext, rfl, -⟩, -⟩ := h
  rw [htext, List.append_assoc]
  exact slice?_append done before (after ++ behind) rfl hk

/-- The inside of a group is a part of its own. -/
theorem inside (h : Stands text n stop ('(' :: (inner ++ ')' :: after))) :
    Stands text (n + 1) (n + 1 + inner.length) inner := by
  obtain ⟨⟨done, behind, htext, rfl, -⟩, -⟩ := h
  refine ⟨⟨done ++ ['('], ')' :: (after ++ behind), by simp [htext], by simp, ?_⟩, rfl⟩
  simp [Quiet]

/-- The group that starts a part is closed in it by number where it is closed at all. -/
theorem closing (h : Stands text n stop ('(' :: part)) :
    closingBefore? text stop n = (group? part).map fun g => n + 1 + g.1.length := by
  obtain ⟨⟨done, behind, htext, rfl, -⟩, hstop⟩ := h
  rw [closingBefore?, htext, hstop, List.length_cons, Nat.add_comm part.length, ← Nat.add_assoc]
  exact closing?_eq done part behind

/-- A piece of a part is a part of its own. -/
theorem piece (h : Stands text n stop part) {k : Nat} {piece : List Char}
    (hpiece : (k, piece) ∈ numberedPieces part) :
    Stands text (n + k) (n + k + piece.length) piece := by
  obtain ⟨⟨done, behind, htext, rfl, hquiet⟩, -⟩ := h
  obtain ⟨before, after, hpart, rfl, hcloses⟩ := exists_of_mem_numberedPieces hpiece
  refine ⟨⟨done ++ before, after ++ behind, by simp [htext, hpart], by simp, ?_⟩, rfl⟩
  intro c hc
  cases after with
  | nil => exact hquiet c hc
  | cons d after =>
      obtain rfl : d = c := by simpa using hc
      rcases hcloses d rfl with rfl | rfl <;> decide

/-- The place where the rest of a part starts. -/
theorem placeOf (h : Stands text n stop part) (start : Position) :
    Field.placeOf (start.right stop) part = start.right n := by
  simp only [Field.placeOf, Position.right, h.stop]
  congr 1
  omega

end Stands

/-! ## Quoted text and names -/

variable {text cs : List Char} {n stop : Nat}

/-- Quoted text is taken by number. -/
theorem quotedAt_eq (h : Stands text n stop cs) :
    quotedAt text stop n = some ((takeQuoted cs).1, n + (takeQuoted cs).1.length) := by
  fun_induction takeQuoted cs generalizing n with
  | case1 =>
      rw [quotedAt, if_neg (by simp [h.stop])]
      rfl
  | case2 rest quoted after heq ih =>
      have hnext := ih h.tail.tail
      rw [quotedAt, if_pos h.lt, h.getElem?]
      simp only [Option.bind_eq_bind, Option.bind_some, h.tail.getElem?, h.tail.lt, hnext, heq]
      simp
      omega
  | case3 rest hsingle =>
      have hnot : ¬ (text[n + 1]? = some '\'' ∧ n + 1 < stop) := by
        rintro ⟨hquote, hlt⟩
        cases rest with
        | nil => exact absurd hlt (by simp [h.tail.stop])
        | cons c rest =>
            rw [h.tail.getElem?] at hquote
            exact hsingle rest (by rw [Option.some.inj hquote])
      rw [quotedAt, if_pos h.lt, h.getElem?]
      simp only [Option.bind_eq_bind, Option.bind_some, if_neg hnot]
      rfl
  | case4 c rest hdouble hsingle quoted after heq ih =>
      have hnext := ih h.tail
      rw [quotedAt, if_pos h.lt, h.getElem?]
      simp only [Option.bind_eq_bind, Option.bind_some, if_neg hsingle, hnext, heq]
      simp
      omega

/-- The end of a name is found by number. -/
theorem skipName_eq (h : Stands text n stop cs) :
    skipName text stop n = some (n + (cs.takeWhile Text.isNameChar).length) := by
  induction cs generalizing n with
  | nil =>
      rw [skipName, if_neg (by simp [h.stop])]
      rfl
  | cons c rest ih =>
      rw [skipName, if_pos h.lt, h.getElem?]
      simp only [Option.bind_eq_bind, Option.bind_some]
      split
      · rename_i hname
        rw [ih h.tail, List.takeWhile_cons_of_pos hname, List.length_cons]
        congr 1
        omega
      · rename_i hname
        rw [List.takeWhile_cons_of_neg hname]
        rfl

/-! ## Subscripts -/

/-- The inside of a group is located by its number. -/
theorem groupPiece_right (start : Position) (n : Nat) (inner : List Char) :
    groupPiece (start.right (n + inner.length + 1)) inner = ⟨start.right n, inner⟩ := by
  simp only [groupPiece, Position.right]
  congr 2
  omega

/-- A subscript is read by number if the pieces in its group are. -/
theorem subscriptAt_eq (start : Position) (names : NameTable) (isCreated : Bool) (name : List Char)
    {after : List Char} {fuel : Nat} (h : Stands text n stop after)
    (hexprs : ∀ inner behind, after = '(' :: (inner ++ ')' :: behind) →
      exprsAt start text names (n + 1) fuel (numberedPieces inner) =
        some (readSubscript names (pieces ⟨start.right (n + 1), inner⟩))) :
    let v := VariableText.withSubscript isCreated name after
    let subscript := readSubscript names (v.subscriptPieces (placeOf (start.right stop) v.after))
    subscriptAt start text names (fuel + 1) stop n =
      some (subscript.1, stop - v.after.length, subscript.2) := by
  have hnone : stop - after.length = n := by
    rw [h.stop]
    omega
  rw [subscriptAt]
  unfold VariableText.withSubscript
  split
  · rename_i rest
    rw [if_pos (h.getElem?), h.closing]
    cases hgroup : group? rest with
    | none =>
        simp [VariableText.subscriptPieces, readSubscript]
        exact hnone.symm
    | some g =>
        obtain ⟨inner, behind⟩ := g
        obtain rfl := takeGroup_eq hgroup
        have hinner : slice? text (n + 1) (n + 1 + inner.length) = some inner := h.tail.slice rfl
        have hbehind : Stands text (n + 1 + inner.length + 1) stop behind := h.tail.drop.tail
        have hnext : stop - behind.length = n + 1 + inner.length + 1 := by
          rw [hbehind.stop]
          omega
        simp only [Option.map_some, Option.bind_eq_bind, Option.bind_some, hinner, split_eq,
          hexprs inner behind rfl, VariableText.subscriptPieces, hbehind.placeOf,
          groupPiece_right, hnext]
        rfl
  · rename_i hopen
    have hparen : text[n]? ≠ some '(' := fun hparen => by
      obtain ⟨rest, rfl⟩ := List.head?_eq_some_iff.1 ((h.getElem?_eq_some_iff (.inr rfl)).1 hparen)
      exact hopen rest rfl
    rw [if_neg hparen]
    simp [VariableText.subscriptPieces, readSubscript, hnone]

/-! ## Concatenations -/

namespace VariableText

@[simp] theorem isCreated_withSubscript (isCreated : Bool) (name after : List Char) :
    (withSubscript isCreated name after).isCreated = isCreated := by
  unfold withSubscript
  split
  · split <;> rfl
  · rfl

@[simp] theorem name_withSubscript (isCreated : Bool) (name after : List Char) :
    (withSubscript isCreated name after).name = name := by
  unfold withSubscript
  split
  · split <;> rfl
  · rfl

/-- A subscript is taken off the text behind a name. -/
theorem exists_withSubscript (isCreated : Bool) (name after : List Char) :
    ∃ mid, after = mid ++ (withSubscript isCreated name after).after ∧
      (withSubscript isCreated name after).subscriptLength = mid.length := by
  unfold withSubscript
  split
  · split
    · rename_i rest inner behind hgroup
      refine ⟨'(' :: (inner ++ [')']), ?_, ?_⟩
      · rw [takeGroup_eq hgroup]
        simp
      · simp [subscriptLength]
    · exact ⟨[], rfl, rfl⟩
  · exact ⟨[], rfl, rfl⟩

/-- A variable symbol is taken off a text. -/
theorem exists_scan {cs : List Char} {v : VariableText} (h : scan cs = some v) :
    ∃ mid, cs = mid ++ v.after := by
  unfold scan at h
  split at h
  · simp at h
  · rename_i c rest
    split at h
    · obtain ⟨⟨inner, after⟩, hgroup, rfl⟩ := Option.map_eq_some_iff.1 h
      obtain ⟨mid, hmid, -⟩ := exists_withSubscript true inner after
      refine ⟨c :: (inner ++ ')' :: mid), ?_⟩
      rw [takeGroup_eq hgroup]
      exact (congrArg (fun after => c :: (inner ++ ')' :: after)) hmid).trans (by simp)
    · split at h
      · obtain rfl := Option.some.inj h
        obtain ⟨mid, hmid, -⟩ := exists_withSubscript false (c :: rest.takeWhile Text.isNameChar)
          (rest.dropWhile Text.isNameChar)
        refine ⟨c :: (rest.takeWhile Text.isNameChar ++ mid), ?_⟩
        rw [List.cons_append, List.append_assoc, ← hmid, List.takeWhile_append_dropWhile]
      · simp at h

end VariableText

section Variables

variable (start : Position) (names : NameTable) {inner behind rest : List Char} {c : Char}
  {fuel : Nat}

/-- The pieces of a subscript that starts at a number are read by number. -/
def SubscriptsAt (start : Position) (text : List Char) (fuel k : Nat) (after : List Char) : Prop :=
  ∀ names inner behind, after = '(' :: (inner ++ ')' :: behind) →
    exprsAt start text names (k + 1) fuel (numberedPieces inner) =
      some (readSubscript names (pieces ⟨start.right (k + 1), inner⟩))

/-- A created variable symbol is read by number if its name and its subscript are. -/
theorem variableAt_created (h : Stands text n stop ('&' :: '(' :: (inner ++ ')' :: behind)))
    (hgroup : group? (inner ++ ')' :: behind) = some (inner, behind))
    (hname : fragmentsAt start text names (fuel + 1) (n + 1 + 1 + inner.length) (n + 1 + 1) =
      some (readFragments (start.right (n + 1 + 1 + inner.length)) names inner))
    (hexprs : SubscriptsAt start text fuel (n + 1 + 1 + inner.length + 1) behind) :
    let v := VariableText.withSubscript true inner behind
    let symbol := readVariable (start.right stop) names (start.right n) v
    variableAt start text names (fuel + 2) stop n =
      some (some (symbol.1, stop - v.after.length), symbol.2) := by
  have hbehind : Stands text (n + 1 + 1 + inner.length + 1) stop behind := h.tail.tail.drop.tail
  have hsubscript (names : NameTable) :=
    subscriptAt_eq start names true inner hbehind (hexprs names)
  obtain ⟨mid, hmid, hlength⟩ := VariableText.exists_withSubscript true inner behind
  have hclose : stop - (VariableText.withSubscript true inner behind).after.length =
      n + 1 + 1 + inner.length + 1 + mid.length := (hmid ▸ hbehind).number
  have hplace := (hmid ▸ hbehind).drop.placeOf start
  have hnameStop : { start.right (n + 1 + 1 + inner.length + 1 + mid.length) with
      column :=
        (start.right (n + 1 + 1 + inner.length + 1 + mid.length)).column - mid.length - 1 } =
        start.right (n + 1 + 1 + inner.length) := by
    simp only [Position.right]
    congr 1
    omega
  rw [variableAt, if_pos h.tail.getElem?, h.tail.closing, hgroup]
  simp only [Option.map_some, Option.bind_eq_bind]
  rw [readVariable]
  simp only [VariableText.isCreated_withSubscript, VariableText.name_withSubscript, hplace, hlength,
    hnameStop, hname, Option.bind_some, hsubscript, hclose]
  rfl

/-- A variable symbol with a plain name is read by number if its subscript is. -/
theorem variableAt_named (h : Stands text n stop ('&' :: c :: rest)) (hc : c ≠ '(')
    (hname : Text.isNameChar c) (hdigit : ¬ c.isDigit)
    (hexprs : SubscriptsAt start text fuel (n + 1 + (c :: rest.takeWhile Text.isNameChar).length)
      (rest.dropWhile Text.isNameChar)) :
    let v := VariableText.withSubscript false (c :: rest.takeWhile Text.isNameChar)
      (rest.dropWhile Text.isNameChar)
    let symbol := readVariable (start.right stop) names (start.right n) v
    variableAt start text names (fuel + 2) stop n =
      some (some (symbol.1, stop - v.after.length), symbol.2) := by
  have hsplit : Stands text (n + 1) stop
      ((c :: rest.takeWhile Text.isNameChar) ++ rest.dropWhile Text.isNameChar) := by
    rw [List.cons_append, List.takeWhile_append_dropWhile]
    exact h.tail
  have hsubscript (names : NameTable) := subscriptAt_eq start names false
    (c :: rest.takeWhile Text.isNameChar) hsplit.drop (hexprs names)
  obtain ⟨mid, hmid, -⟩ := VariableText.exists_withSubscript false
    (c :: rest.takeWhile Text.isNameChar) (rest.dropWhile Text.isNameChar)
  have hclose : stop - (VariableText.withSubscript false (c :: rest.takeWhile Text.isNameChar)
      (rest.dropWhile Text.isNameChar)).after.length =
        n + 1 + (c :: rest.takeWhile Text.isNameChar).length + mid.length :=
    (hmid ▸ hsplit.drop).number
  have hplace := (hmid ▸ hsplit.drop).drop.placeOf start
  have hopen : text[n + 1]? ≠ some '(' := by
    rw [h.tail.getElem?]
    exact fun hopen => hc (Option.some.inj hopen)
  rw [variableAt, if_neg hopen, skipName_eq h.tail, List.takeWhile_cons_of_pos hname,
    h.tail.getElem?]
  simp only [Option.bind_eq_bind, Option.bind_some]
  rw [if_neg (by simp), if_neg hdigit, hsplit.slice rfl, readVariable]
  simp only [VariableText.isCreated_withSubscript, VariableText.name_withSubscript, hplace,
    Option.bind_some, hsubscript, hclose]
  rfl

end Variables

/-- A piece of a subscript that is no number is a variable symbol if it is all of the piece, and
literal text if it is not. -/
theorem readSubscript_cons {p : Piece} (names : NameTable) (rest : List Piece)
    (hinteger : Numeral.integer? p.text = none) :
    readSubscript names (p :: rest) =
      match startingVariable? p with
      | none =>
          let (exprs, names) := readSubscript names rest
          (.text (String.ofList p.text) p.range :: exprs, names)
      | some v =>
          let (symbol, names) := readVariable p.stop names p.start v
          let (exprs, names) := readSubscript names rest
          (if v.after = [] then .reference symbol :: exprs
            else .text (String.ofList p.text) p.range :: exprs, names) := by
  rw [readSubscript, hinteger]
  dsimp only
  split
  · rename_i hstarting
    rw [hstarting]
  · rename_i v hstarting
    rw [hstarting]

/-- The numbered pieces of a field are no larger than the field. -/
theorem weight_numberedPieces_le (start : Position) (field : List Char) :
    weight ((numberedPieces field).map fun p => ⟨start.right p.1, p.2⟩) ≤ field.length + 1 :=
  pieces_eq start field ▸ weight_pieces_le ⟨start, field⟩

mutual
/-- A part of a text is read by number. -/
theorem fragmentsAt_eq {text cs : List Char} {fuel n stop : Nat} (start : Position)
    (names : NameTable) (h : Stands text n stop cs) (hfuel : 2 * cs.length < fuel) :
    fragmentsAt start text names fuel stop n =
      some (readFragments (start.right stop) names cs) := by
  obtain ⟨fuel, rfl⟩ := Nat.exists_eq_add_one_of_ne_zero (Nat.ne_zero_of_lt hfuel)
  rw [fragmentsAt]
  cases hcs : cs with
  | nil =>
      rw [if_neg (by simp [h.stop, hcs]), readFragments]
      rfl
  | cons c rest =>
      subst hcs
      -- the part goes on behind a shorter one
      have hnext (names : NameTable) (mid after : List Char) (hrest : rest = mid ++ after) :
          fragmentsAt start text names fuel stop (n + 1 + mid.length) =
            some (readFragments (start.right stop) names after) := by
        have hlt : after.length < (c :: rest).length := by
          simp only [hrest, List.length_cons, List.length_append]
          omega
        have hpart := h.tail
        rw [hrest] at hpart
        exact fragmentsAt_eq start names hpart.drop (by omega)
      have hone (names : NameTable) : fragmentsAt start text names fuel stop (n + 1) =
          some (readFragments (start.right stop) names rest) := hnext names [] rest rfl
      rw [if_pos h.lt, h.getElem?, readFragments]
      simp only [Option.bind_eq_bind, Option.bind_some]
      split
      · rename_i hampersand
        subst hampersand
        by_cases hdouble : rest.head? = some '&'
        · obtain ⟨rest, rfl⟩ := List.head?_eq_some_iff.1 hdouble
          rw [if_pos h.tail.getElem?, if_pos hdouble]
          rw [show n + 2 = n + 1 + ['&'].length from rfl, hnext names ['&'] rest rfl]
          rfl
        · rw [if_neg (mt (h.tail.getElem?_eq_some_iff (.inl rfl)).1 hdouble), if_neg hdouble,
            variableAt_eq start names h (by rw [List.length_cons] at hfuel; omega), h.placeOf]
          cases hscan : VariableText.scan rest with
          | none =>
              simp only [Option.bind_some, hone]
              rfl
          | some v =>
              obtain ⟨mid, hmid⟩ := VariableText.exists_scan hscan
              have hbehind : stop - v.after.length = n + 1 + mid.length := (hmid ▸ h.tail).number
              simp only [Option.bind_some]
              rw [hbehind, hnext _ mid _ hmid]
              rfl
      split
      · rw [hone]
        rfl
      split
      · rw [hone]
        rfl
      split
      · rename_i hparen
        subst hparen
        rw [h.closing]
        cases hgroup : group? rest with
        | none =>
            simp only [Option.map_none, hone]
            rfl
        | some g =>
            obtain ⟨inner, behind⟩ := g
            have hlength := length_group? hgroup
            obtain rfl := takeGroup_eq hgroup
            have hinner : slice? text (n + 1) (n + 1 + inner.length) = some inner :=
              h.tail.slice rfl
            have hweight := weight_numberedPieces_le (start.right (n + 1)) inner
            have hitems := itemsAt_eq start names (n + 1) (numberedPieces inner)
              (fun p hp => h.inside.piece hp)
              (show _ < fuel by rw [List.length_cons] at hfuel; omega)
            have hbehind (names : NameTable) :
                fragmentsAt start text names fuel stop (n + 1 + inner.length + 1) =
                  some (readFragments (start.right stop) names behind) := by
              have := hnext names (inner ++ [')']) behind (by simp)
              rwa [List.length_append, List.length_singleton, ← Nat.add_assoc] at this
            have hplace := (h.tail.drop.tail).placeOf start
            simp only [Option.map_some, hinner, split_eq, hitems, ← pieces_eq, Option.bind_some,
              hbehind, hplace, groupPiece_right]
            rfl
      split
      · rw [quotedAt_eq h.tail]
        simp only [Option.bind_some]
        rw [hnext names _ _ (takeQuoted_append rest).symm]
        rfl
      · rw [hone]
        rfl
  termination_by fuel

/-- A variable symbol is read by number. -/
theorem variableAt_eq {text cs : List Char} {fuel n stop : Nat} (start : Position)
    (names : NameTable) (h : Stands text n stop ('&' :: cs)) (hfuel : 2 * cs.length + 1 < fuel) :
    variableAt start text names fuel stop n = some (match VariableText.scan cs with
      | none => (none, names)
      | some v =>
          let r := readVariable (start.right stop) names (start.right n) v
          (some (r.1, stop - v.after.length), r.2)) := by
  obtain ⟨fuel, rfl⟩ := Nat.exists_eq_add_of_le' (show 2 ≤ fuel by omega)
  -- the pieces of a subscript
  have hexprs {k : Nat} (before : List Char) {after : List Char} (hcs : cs = before ++ after)
      (hk : k = n + 1 + before.length) : SubscriptsAt start text fuel k after := by
    rintro names inner behind rfl
    have hlength := congrArg List.length hcs
    simp only [List.length_cons, List.length_append] at hlength
    subst hcs hk
    have hweight := weight_numberedPieces_le (start.right (n + 1 + before.length + 1)) inner
    rw [pieces_eq]
    exact exprsAt_eq start names _ (numberedPieces inner)
      (fun p hp => h.tail.drop.inside.piece hp) (by omega)
  cases hcs : cs with
  | nil =>
      subst hcs
      have hopen : text[n + 1]? ≠ some '(' := mt (h.tail.getElem?_eq_some_iff (.inr rfl)).1 nofun
      rw [variableAt, if_neg hopen, skipName_eq h.tail, List.takeWhile_nil, List.length_nil]
      simp only [Option.bind_eq_bind, Option.bind_some]
      rw [if_pos trivial]
      rfl
  | cons c rest =>
      subst hcs
      by_cases hparen : c = '('
      · subst hparen
        rw [VariableText.scan, if_pos rfl]
        cases hgroup : group? rest with
        | none =>
            rw [variableAt, if_pos h.tail.getElem?, h.tail.closing, hgroup]
            rfl
        | some g =>
            obtain ⟨inner, behind⟩ := g
            have hlength := length_group? hgroup
            obtain rfl := takeGroup_eq hgroup
            have hname := fragmentsAt_eq start names h.tail.inside
              (show 2 * inner.length < fuel + 1 by rw [List.length_cons] at hfuel; omega)
            refine variableAt_created start names h hgroup hname ?_
            exact hexprs ('(' :: (inner ++ [')'])) (by simp) (by simp; omega)
      · rw [VariableText.scan, if_neg hparen]
        by_cases hname : Text.isNameChar c ∧ ¬ c.isDigit
        · rw [if_pos hname]
          refine variableAt_named start names h hparen hname.1 hname.2 (hexprs _ ?_ rfl)
          rw [List.cons_append, List.takeWhile_append_dropWhile]
        · have hopen : text[n + 1]? ≠ some '(' := by
            rw [h.tail.getElem?]
            exact fun hopen => hparen (Option.some.inj hopen)
          rw [if_neg hname, variableAt, if_neg hopen, skipName_eq h.tail, h.tail.getElem?]
          simp only [Option.bind_eq_bind, Option.bind_some]
          by_cases hnameChar : Text.isNameChar c
          · have hdigit : c.isDigit := by simpa [hnameChar] using hname
            rw [List.takeWhile_cons_of_pos hnameChar, if_neg (by simp), if_pos hdigit]
            rfl
          · rw [List.takeWhile_cons_of_neg hnameChar, List.length_nil, if_pos rfl]
            rfl
  termination_by fuel

/-- The items of a group are read by number. -/
theorem itemsAt_eq {text : List Char} {fuel : Nat} (start : Position) (names : NameTable)
    (first : Nat) (parts : List (Nat × List Char))
    (hparts : ∀ p ∈ parts, Stands text (first + p.1) (first + p.1 + p.2.length) p.2)
    (hfuel : 2 * weight (parts.map fun p => ⟨(start.right first).right p.1, p.2⟩) < fuel) :
    itemsAt start text names first fuel parts =
      some (readItems names (parts.map fun p => ⟨(start.right first).right p.1, p.2⟩)) := by
  obtain ⟨fuel, rfl⟩ := Nat.exists_eq_add_one_of_ne_zero (Nat.ne_zero_of_lt hfuel)
  cases hcons : parts with
  | nil =>
      rw [itemsAt, List.map_nil, readItems]
      rfl
  | cons p rest =>
      obtain ⟨k, part⟩ := p
      subst hcons
      simp only [List.map_cons, weight_cons] at hfuel
      have hfirst := fragmentsAt_eq start names (hparts (k, part) (List.mem_cons_self ..))
        (show 2 * part.length < fuel by omega)
      have hothers (names : NameTable) := itemsAt_eq start names first rest
        (fun p hp => hparts p (List.mem_cons_of_mem _ hp)) (show _ < fuel by omega)
      rw [itemsAt, List.map_cons, readItems]
      simp only [hfirst, hothers, Option.bind_eq_bind, Option.bind_some, Piece.stop,
        Position.right_right]
      rfl
  termination_by fuel

/-- The expressions of a subscript are read by number. -/
theorem exprsAt_eq {text : List Char} {fuel : Nat} (start : Position) (names : NameTable)
    (first : Nat) (parts : List (Nat × List Char))
    (hparts : ∀ p ∈ parts, Stands text (first + p.1) (first + p.1 + p.2.length) p.2)
    (hfuel : 2 * weight (parts.map fun p => ⟨(start.right first).right p.1, p.2⟩) < fuel) :
    exprsAt start text names first fuel parts =
      some (readSubscript names (parts.map fun p => ⟨(start.right first).right p.1, p.2⟩)) := by
  obtain ⟨fuel, rfl⟩ := Nat.exists_eq_add_one_of_ne_zero (Nat.ne_zero_of_lt hfuel)
  cases hcons : parts with
  | nil =>
      rw [exprsAt, List.map_nil, readSubscript]
      rfl
  | cons p rest =>
      obtain ⟨k, part⟩ := p
      subst hcons
      simp only [List.map_cons, weight_cons] at hfuel
      have hfirst := hparts (k, part) (List.mem_cons_self ..)
      have hothers (names : NameTable) := exprsAt_eq start names first rest
        (fun p hp => hparts p (List.mem_cons_of_mem _ hp)) (show _ < fuel by omega)
      have hstop : ((start.right first).right k).right part.length =
          start.right (first + k + part.length) := by
        rw [Position.right_right, Position.right_right, Nat.add_assoc]
      rw [exprsAt, List.map_cons]
      dsimp only
      cases hinteger : Numeral.integer? part with
      | some i =>
          rw [readSubscript, hinteger]
          simp only [hothers, Option.bind_eq_bind, Option.bind_some, Piece.range, Piece.stop,
            Position.right_right]
          rfl
      | none =>
          rw [readSubscript_cons names _ hinteger]
          simp only [Piece.range, Piece.stop, hstop]
          by_cases hampersand : part.head? = some '&'
          · obtain ⟨cs, hpart⟩ := List.head?_eq_some_iff.1 hampersand
            have hlength : part.length = cs.length + 1 := congrArg List.length hpart
            subst hpart
            have hstarting : startingVariable? ⟨(start.right first).right k, '&' :: cs⟩ =
                VariableText.scan cs := by simp [startingVariable?]
            rw [if_pos hampersand, variableAt_eq start names hfirst (by omega), hstarting]
            cases hscan : VariableText.scan cs with
            | none =>
                simp only [hothers, Option.bind_eq_bind, Option.bind_some, Position.right_right]
                rfl
            | some v =>
                obtain ⟨mid, hmid⟩ := VariableText.exists_scan hscan
                have hall : first + k + ('&' :: cs).length - v.after.length =
                    first + k + ('&' :: cs).length ↔ v.after = [] := by
                  rw [hmid, ← List.length_eq_zero_iff]
                  simp only [List.length_cons, List.length_append]
                  omega
                simp only [hothers, Option.bind_eq_bind, Option.bind_some,
                  Position.right_right, hall]
                rfl
          · have hstarting : startingVariable? ⟨(start.right first).right k, part⟩ = none := by
              cases part with
              | nil => rfl
              | cons c cs => exact if_neg fun hc => hampersand (congrArg some hc)
            rw [if_neg hampersand, hstarting]
            simp only [hothers, Option.bind_eq_bind, Option.bind_some, Position.right_right]
            rfl
  termination_by fuel
end

end MacroAssembler.Field
