import MacroAssembler.Field.Expression
import MacroAssembler.Proofs.Field.Slices

/-!
# Reading expressions by number

A reader that keeps the text of an expression and the number of the next character, and cuts names
and digits out of the text. It cuts between numbers in the right order and inside of the text, comes
to an end before its calls lie deeper within each other than the text is long, and gives what
`readExpr` gives (`readExprAt_eq`). So does a reader of machine operands, which finds the group of
registers by number (`internMachineOperandAt_eq`).
-/

namespace MacroAssembler.Field

/-- What reading from a number on gives: an expression and the number behind it, or the names read
before the text was none. -/
abbrev Outcome := Option (Except (List String) (OrdinaryExpr String × Nat))

/-! ## Atoms -/

/-- The number behind the characters that pass a test. -/
def skipWhile (text : List Char) (test : Char → Bool) (n : Nat) : Nat :=
  match h : text[n]? with
  | some c => if test c then skipWhile text test (n + 1) else n
  | none => n
  termination_by text.length - n
  decreasing_by
    have := (List.getElem?_eq_some_iff.1 h).1
    omega

/-- The characters that pass a test, cut out of the text, and the number behind them. -/
def takeWhileAt (text : List Char) (test : Char → Bool) (n : Nat) : Option (List Char × Nat) := do
  let next := skipWhile text test n
  return (← slice? text n next, next)

/-- A self-defining term with its letter at a number, if one is there. -/
def selfDefiningAt (text : List Char) (kind : Char) (n : Nat) : Option (Option (Int32 × Nat)) :=
  if text[n + 1]? = some '\'' then do
    let (body, next) ← takeWhileAt text (· ≠ '\'') (n + 2)
    if text[next]? = some '\'' then return (selfDefining? kind body).map (·, next + 1)
    else return none
  else return none

/-- A number, a self-defining term or a symbol. -/
def atomAt (start : Position) (text : List Char) (n : Nat) : Outcome :=
  match text[n]? with
  | none => return .error []
  | some c =>
      if c.isDigit then do
        let (digits, next) ← takeWhileAt text Char.isDigit n
        match Numeral.integer? digits with
        | some value => return .ok (.constant value ⟨start.right n, start.right next⟩, next)
        | none => return .error []
      else do
        match ← selfDefiningAt text c n with
        | some (value, next) => return .ok (.constant value ⟨start.right n, start.right next⟩, next)
        | none =>
            if Text.isNameChar c then
              let (name, next) ← takeWhileAt text Text.isNameChar n
              let name := Text.upper (String.ofList name)
              return .ok (.symbol name ⟨start.right n, start.right next⟩, next)
            else return .error []

/-! ## Sums, products and factors -/

mutual
/-- A sum. Like the other readers it fails when so many calls as `fuel` allows lie within each
other. -/
def sumAt (start : Position) (text : List Char) (fuel n : Nat) : Outcome :=
  match fuel with
  | 0 => none
  | fuel + 1 => do
      match ← productAt start text fuel n with
      | .error names => return .error names
      | .ok (left, next) => extendSumAt start text (start.right n) left fuel next
  termination_by structural fuel

/-- What a sum adds to the terms before, which start at `first`. -/
def extendSumAt (start : Position) (text : List Char) (first : Position)
    (left : OrdinaryExpr String) (fuel n : Nat) : Outcome :=
  match fuel with
  | 0 => none
  | fuel + 1 =>
      match text[n]?.bind additive? with
      | none => return .ok (left, n)
      | some op => do
          match ← productAt start text fuel (n + 1) with
          | .error names => return .error (left.names ++ names)
          | .ok (right, next) =>
              let whole := .binary op left right ⟨first, start.right next⟩
              extendSumAt start text first whole fuel next
  termination_by structural fuel

/-- A product. -/
def productAt (start : Position) (text : List Char) (fuel n : Nat) : Outcome :=
  match fuel with
  | 0 => none
  | fuel + 1 => do
      match ← factorAt start text fuel n with
      | .error names => return .error names
      | .ok (left, next) => extendProductAt start text (start.right n) left fuel next
  termination_by structural fuel

/-- What a product adds to the factors before, which start at `first`. -/
def extendProductAt (start : Position) (text : List Char) (first : Position)
    (left : OrdinaryExpr String) (fuel n : Nat) : Outcome :=
  match fuel with
  | 0 => none
  | fuel + 1 =>
      match text[n]?.bind multiplicative? with
      | none => return .ok (left, n)
      | some op => do
          match ← factorAt start text fuel (n + 1) with
          | .error names => return .error (left.names ++ names)
          | .ok (right, next) =>
              let whole := .binary op left right ⟨first, start.right next⟩
              extendProductAt start text first whole fuel next
  termination_by structural fuel

/-- A factor. -/
def factorAt (start : Position) (text : List Char) (fuel n : Nat) : Outcome :=
  match fuel with
  | 0 => none
  | fuel + 1 =>
      match text[n]? with
      | some '+' => factorAt start text fuel (n + 1)
      | some '-' => do
          match ← factorAt start text fuel (n + 1) with
          | .error names => return .error names
          | .ok (e, next) => return .ok (.negate e ⟨start.right n, start.right next⟩, next)
      | some '(' => do
          match ← sumAt start text fuel (n + 1) with
          | .error names => return .error names
          | .ok (e, next) =>
              if text[next]? = some ')' then return .ok (e, next + 1) else return .error e.names
      | _ => atomAt start text n
  termination_by structural fuel
end

/-! ## Agreement -/

/-- Reading by number gives what reading a part of the text gives, and goes on at the number where
the rest of that part starts. -/
inductive Agrees (text : List Char) {bound : Nat} :
    Except (List String) (Read bound) → Outcome → Prop where
  | error (names) : Agrees text (.error names) (some (.error names))
  | ok {e done after h} : text = done ++ after →
      Agrees text (.ok ⟨(e, after), h⟩) (some (.ok (e, done.length)))

/-- The place of a part that ends with the text. -/
theorem placeOf_append {text done cs : List Char} (start : Position) (h : text = done ++ cs) :
    placeOf (start.right text.length) cs = start.right done.length := by
  subst h
  simp only [placeOf, Position.right, List.length_append]
  congr 1
  omega

theorem getElem?_append_length (done rest : List Char) :
    (done ++ rest)[done.length]? = rest.head? := by
  rw [List.getElem?_append_right (Nat.le_refl _), Nat.sub_self, List.head?_eq_getElem?]

theorem skipWhile_append (test : Char → Bool) (done rest : List Char) :
    skipWhile (done ++ rest) test done.length = done.length + (rest.takeWhile test).length := by
  induction rest generalizing done with
  | nil =>
      rw [skipWhile]
      split
      · rename_i heq
        simp at heq
      · rfl
  | cons c rest ih =>
      have hnext := ih (done ++ [c])
      rw [List.append_assoc, List.singleton_append, List.length_append] at hnext
      rw [skipWhile]
      split
      · rename_i c' heq
        obtain rfl : c = c' := by simpa [getElem?_append_length] using heq
        cases htest : test c with
        | true =>
            rw [if_pos rfl, List.takeWhile_cons_of_pos htest, List.length_cons]
            exact hnext.trans (by simp; omega)
        | false => simp [htest]
      · rename_i heq
        simp at heq

/-- Characters that pass a test are cut out between numbers in the right order. -/
theorem takeWhileAt_append (test : Char → Bool) (done rest : List Char) :
    takeWhileAt (done ++ rest) test done.length =
      some (rest.takeWhile test, (done ++ rest.takeWhile test).length) := by
  have hslice : slice? (done ++ rest) done.length (done.length + (rest.takeWhile test).length) =
      some (rest.takeWhile test) := by
    have := slice?_append done (rest.takeWhile test) (rest.dropWhile test) rfl rfl
    rwa [List.takeWhile_append_dropWhile] at this
  simp [takeWhileAt, skipWhile_append, hslice]

/-- A self-defining term is read by number where one is read at all. -/
theorem selfDefiningAt_cases {text done : List Char} {c : Char} {rest : List Char}
    (h : text = done ++ c :: rest) :
    readSelfDefining (c :: rest) = none ∧ selfDefiningAt text c done.length = some none ∨
      ∃ value after hlt done', readSelfDefining (c :: rest) = some ⟨(value, after), hlt⟩ ∧
        selfDefiningAt text c done.length = some (some (value, done'.length)) ∧
        text = done' ++ after := by
  have hsecond : text[done.length + 1]? = rest.head? := by
    have := getElem?_append_length (done ++ [c]) rest
    simpa [h] using this
  rw [selfDefiningAt, hsecond]
  by_cases hquote : rest.head? = some '\''
  · obtain ⟨rest, rfl⟩ := List.head?_eq_some_iff.1 hquote
    let body := rest.takeWhile (· ≠ '\'')
    have htext : text = done ++ [c, '\''] ++ rest := by simp [h]
    have htake : takeWhileAt text (· ≠ '\'') (done.length + 2) =
        some (body, (done ++ [c, '\''] ++ body).length) := by
      have := takeWhileAt_append (· ≠ '\'') (done ++ [c, '\'']) rest
      rwa [← htext, show (done ++ [c, '\'']).length = done.length + 2 by simp] at this
    have hsplit : text = done ++ [c, '\''] ++ body ++ rest.dropWhile (· ≠ '\'') := by
      rw [htext, List.append_assoc _ body, List.takeWhile_append_dropWhile]
    have hnext := getElem?_append_length (done ++ [c, '\''] ++ body) (rest.dropWhile (· ≠ '\''))
    rw [← hsplit] at hnext
    have hstops := List.head?_dropWhile_not (· ≠ '\'') rest
    rw [if_pos hquote, htake, readSelfDefining.eq_1]
    simp only [Option.bind_eq_bind, Option.bind_some, hnext]
    split
    · rename_i q after heq
      rw [heq] at hstops hsplit
      obtain rfl : q = '\'' := by simpa using hstops
      rw [if_pos (by rw [heq]; rfl)]
      cases hvalue : selfDefining? c body with
      | none => exact .inl ⟨rfl, rfl⟩
      | some value =>
          refine .inr ⟨value, after, ?_, done ++ [c, '\''] ++ body ++ ['\''], ?_, ?_,
            by simp [hsplit]⟩
          · have := congrArg List.length heq
            have := (rest.dropWhile_suffix (· ≠ '\'')).length_le
            simp at *
            omega
          · rfl
          · simp
            omega
    · rename_i heq
      rw [heq]
      exact .inl ⟨rfl, rfl⟩
  · refine .inl ⟨readSelfDefining.eq_2 _ fun kind after heq => hquote ?_, if_neg hquote⟩
    obtain ⟨-, rfl⟩ := List.cons.inj heq
    rfl

/-- An atom is read by number. -/
theorem atomAt_agrees {text done cs : List Char} (start : Position) (h : text = done ++ cs) :
    Agrees text (readAtom (start.right text.length) cs) (atomAt start text done.length) := by
  have hfirst : text[done.length]? = cs.head? := h ▸ getElem?_append_length done cs
  unfold atomAt readAtom
  rw [hfirst]
  cases cs with
  | nil => exact .error []
  | cons c rest =>
      -- what the characters from here on spell, and what is left behind them
      have htake (test : Char → Bool) (hc : test c = true) :
          takeWhileAt text test done.length =
            some (c :: rest.takeWhile test, (done ++ c :: rest.takeWhile test).length) ∧
          text = (done ++ c :: rest.takeWhile test) ++ rest.dropWhile test := by
        have := takeWhileAt_append test done (c :: rest)
        rw [List.takeWhile_cons_of_pos hc] at this
        exact ⟨h ▸ this, by simp [h]⟩
      have hspan {done' after : List Char} (hafter : text = done' ++ after) :
          span (start.right text.length) (c :: rest) after =
            ⟨start.right done.length, start.right done'.length⟩ := by
        rw [span, placeOf_append start h, placeOf_append start hafter]
      dsimp only [List.head?_cons]
      split
      · rename_i hdigit
        obtain ⟨hdigits, hrest⟩ := htake Char.isDigit hdigit
        simp only [hdigits, Option.bind_eq_bind, Option.bind_some]
        cases hvalue : Numeral.integer? (c :: rest.takeWhile Char.isDigit) with
        | none => exact .error []
        | some value =>
            dsimp only
            rw [hspan hrest]
            exact .ok hrest
      · rcases selfDefiningAt_cases h with
          ⟨hread, hterm⟩ | ⟨value, after, hlt, done', hread, hterm, hafter⟩ <;> rw [hread, hterm]
        · simp only [Option.bind_eq_bind, Option.bind_some]
          split
          · rename_i hname
            obtain ⟨hletters, hrest⟩ := htake Text.isNameChar hname
            rw [hletters, hspan hrest]
            exact .ok hrest
          · exact .error []
        · simp only [Option.bind_eq_bind, Option.bind_some]
          rw [hspan hafter]
          exact .ok hafter

mutual
/-- A sum is read by number. -/
theorem sumAt_agrees {text done cs : List Char} {fuel : Nat} (start : Position)
    (h : text = done ++ cs) (hfuel : 6 * cs.length + 5 < fuel) :
    Agrees text (readSum (start.right text.length) cs) (sumAt start text fuel done.length) := by
  obtain ⟨fuel, rfl⟩ := Nat.exists_eq_add_one_of_ne_zero (Nat.ne_zero_of_lt hfuel)
  rw [readSum, sumAt]
  have hproduct := productAt_agrees start h (show 6 * cs.length + 3 < fuel by omega)
  generalize readProduct (start.right text.length) cs = x at hproduct ⊢
  generalize productAt start text fuel done.length = y at hproduct ⊢
  cases hproduct with
  | error names => exact .error names
  | @ok left next after hlt hafter =>
      have hshorter : after.length < cs.length := hlt
      have hmore := extendSumAt_agrees start hafter (placeOf (start.right text.length) cs) left
        (show 6 * after.length + 4 < fuel by omega)
      rw [placeOf_append start h] at hmore ⊢
      simp only [Option.bind_eq_bind, Option.bind_some]
      exact hmore.rec .error .ok
  termination_by fuel

theorem extendSumAt_agrees {text done cs : List Char} {fuel : Nat} (start : Position)
    (h : text = done ++ cs) (first : Position) (left : OrdinaryExpr String)
    (hfuel : 6 * cs.length + 4 < fuel) :
    Agrees text (extendSum (start.right text.length) first left cs)
      (extendSumAt start text first left fuel done.length) := by
  obtain ⟨fuel, rfl⟩ := Nat.exists_eq_add_one_of_ne_zero (Nat.ne_zero_of_lt hfuel)
  have hfirst : text[done.length]? = cs.head? := h ▸ getElem?_append_length done cs
  rw [extendSumAt, hfirst]
  cases hcs : cs with
  | nil =>
      rw [extendSum]
      exact .ok (hcs ▸ h)
  | cons c rest =>
      rw [extendSum, List.head?_cons, Option.bind_some]
      cases additive? c with
      | none => exact .ok (hcs ▸ h)
      | some op =>
          have hlength : cs.length = rest.length + 1 := congrArg List.length hcs
          have hproduct := productAt_agrees start
            (show text = (done ++ [c]) ++ rest by simp [h, hcs])
            (show 6 * rest.length + 3 < fuel by omega)
          rw [List.length_append, List.length_singleton] at hproduct
          dsimp only
          generalize readProduct (start.right text.length) rest = x at hproduct ⊢
          generalize productAt start text fuel (done.length + 1) = y at hproduct ⊢
          cases hproduct with
          | error names => exact .error (left.names ++ names)
          | @ok right next after hlt hafter =>
              have hshorter : after.length < cs.length := hcs ▸ Nat.lt_succ_of_lt hlt
              have hmore := extendSumAt_agrees start hafter first
                (.binary op left right ⟨first, start.right next.length⟩)
                (show 6 * after.length + 4 < fuel by omega)
              dsimp only
              rw [placeOf_append start hafter]
              simp only [Option.bind_eq_bind, Option.bind_some]
              exact hmore.rec .error .ok
  termination_by fuel

theorem productAt_agrees {text done cs : List Char} {fuel : Nat} (start : Position)
    (h : text = done ++ cs) (hfuel : 6 * cs.length + 3 < fuel) :
    Agrees text (readProduct (start.right text.length) cs)
      (productAt start text fuel done.length) := by
  obtain ⟨fuel, rfl⟩ := Nat.exists_eq_add_one_of_ne_zero (Nat.ne_zero_of_lt hfuel)
  rw [readProduct, productAt]
  have hfactor := factorAt_agrees start h (show 6 * cs.length + 1 < fuel by omega)
  generalize readFactor (start.right text.length) cs = x at hfactor ⊢
  generalize factorAt start text fuel done.length = y at hfactor ⊢
  cases hfactor with
  | error names => exact .error names
  | @ok left next after hlt hafter =>
      have hshorter : after.length < cs.length := hlt
      have hmore := extendProductAt_agrees start hafter (placeOf (start.right text.length) cs) left
        (show 6 * after.length + 2 < fuel by omega)
      rw [placeOf_append start h] at hmore ⊢
      simp only [Option.bind_eq_bind, Option.bind_some]
      exact hmore.rec .error .ok
  termination_by fuel

theorem extendProductAt_agrees {text done cs : List Char} {fuel : Nat} (start : Position)
    (h : text = done ++ cs) (first : Position) (left : OrdinaryExpr String)
    (hfuel : 6 * cs.length + 2 < fuel) :
    Agrees text (extendProduct (start.right text.length) first left cs)
      (extendProductAt start text first left fuel done.length) := by
  obtain ⟨fuel, rfl⟩ := Nat.exists_eq_add_one_of_ne_zero (Nat.ne_zero_of_lt hfuel)
  have hfirst : text[done.length]? = cs.head? := h ▸ getElem?_append_length done cs
  rw [extendProductAt, hfirst]
  cases hcs : cs with
  | nil =>
      rw [extendProduct]
      exact .ok (hcs ▸ h)
  | cons c rest =>
      rw [extendProduct, List.head?_cons, Option.bind_some]
      cases multiplicative? c with
      | none => exact .ok (hcs ▸ h)
      | some op =>
          have hlength : cs.length = rest.length + 1 := congrArg List.length hcs
          have hfactor := factorAt_agrees start (show text = (done ++ [c]) ++ rest by simp [h, hcs])
            (show 6 * rest.length + 1 < fuel by omega)
          rw [List.length_append, List.length_singleton] at hfactor
          dsimp only
          generalize readFactor (start.right text.length) rest = x at hfactor ⊢
          generalize factorAt start text fuel (done.length + 1) = y at hfactor ⊢
          cases hfactor with
          | error names => exact .error (left.names ++ names)
          | @ok right next after hlt hafter =>
              have hshorter : after.length < cs.length := hcs ▸ Nat.lt_succ_of_lt hlt
              have hmore := extendProductAt_agrees start hafter first
                (.binary op left right ⟨first, start.right next.length⟩)
                (show 6 * after.length + 2 < fuel by omega)
              dsimp only
              rw [placeOf_append start hafter]
              simp only [Option.bind_eq_bind, Option.bind_some]
              exact hmore.rec .error .ok
  termination_by fuel

theorem factorAt_agrees {text done cs : List Char} {fuel : Nat} (start : Position)
    (h : text = done ++ cs) (hfuel : 6 * cs.length + 1 < fuel) :
    Agrees text (readFactor (start.right text.length) cs)
    (factorAt start text fuel done.length) := by
  obtain ⟨fuel, rfl⟩ := Nat.exists_eq_add_one_of_ne_zero (Nat.ne_zero_of_lt hfuel)
  have hfirst : text[done.length]? = cs.head? := h ▸ getElem?_append_length done cs
  have hrest {c : Char} {rest : List Char} (hcs : cs = c :: rest) :
      text = (done ++ [c]) ++ rest := by
    simp [h, hcs]
  unfold readFactor
  rw [factorAt, hfirst]
  split
  · rename_i rest
    rw [List.length_cons] at hfuel
    have hfactor := factorAt_agrees start (hrest rfl) (show 6 * rest.length + 1 < fuel by omega)
    rw [List.length_append, List.length_singleton] at hfactor
    exact hfactor.rec .error .ok
  · rename_i rest
    rw [List.length_cons] at hfuel
    have hfactor := factorAt_agrees start (hrest rfl) (show 6 * rest.length + 1 < fuel by omega)
    rw [List.length_append, List.length_singleton] at hfactor
    dsimp only [List.head?_cons]
    generalize readFactor (start.right text.length) rest = x at hfactor ⊢
    generalize factorAt start text fuel (done.length + 1) = y at hfactor ⊢
    cases hfactor with
    | error names => exact .error names
    | ok hafter =>
        dsimp only
        rw [span, placeOf_append start h, placeOf_append start hafter]
        exact .ok hafter
  · rename_i rest
    rw [List.length_cons] at hfuel
    have hsum := sumAt_agrees start (hrest rfl) (show 6 * rest.length + 5 < fuel by omega)
    rw [List.length_append, List.length_singleton] at hsum
    dsimp only [List.head?_cons]
    generalize readSum (start.right text.length) rest = x at hsum ⊢
    generalize sumAt start text fuel (done.length + 1) = y at hsum ⊢
    cases hsum with
    | error names => exact .error names
    | @ok e next after hlt hafter =>
        simp only [Option.bind_eq_bind, Option.bind_some]
        rw [show text[next.length]? = after.head? from hafter ▸ getElem?_append_length next after]
        cases after with
        | nil => exact .error e.names
        | cons c after =>
            rw [List.head?_cons]
            dsimp only
            split
            · rename_i hparen
              rw [if_pos (congrArg some hparen), ← List.length_singleton (a := c),
                ← List.length_append]
              exact .ok (by simp [hafter])
            · rename_i hparen
              rw [if_neg fun heq => hparen (Option.some.inj heq)]
              exact .error e.names
  · rename_i hplus hminus hparen
    split
    · rename_i heq
      obtain ⟨rest, rfl⟩ := List.head?_eq_some_iff.1 heq
      exact absurd rfl (hplus rest)
    · rename_i heq
      obtain ⟨rest, rfl⟩ := List.head?_eq_some_iff.1 heq
      exact absurd rfl (hminus rest)
    · rename_i heq
      obtain ⟨rest, rfl⟩ := List.head?_eq_some_iff.1 heq
      exact absurd rfl (hparen rest)
    · exact atomAt_agrees start h
  termination_by fuel
end

/-! ## Expressions -/

/-- The expression that a piece spells. -/
def readExprAt (p : Piece) : Option (Except (List String) (OrdinaryExpr String)) := do
  match ← sumAt p.start p.text (6 * p.text.length + 6) 0 with
  | .error names => return .error names
  | .ok (e, next) => if next = p.text.length then return .ok e else return .error e.names

/-- The expression of a piece over the numbers of its names. -/
def internExprAt (names : NameTable) (p : Piece) :
    Option (Except Diagnostic (OrdinaryExpr NameId) × NameTable) := do
  match ← readExprAt p with
  | .ok e =>
      let (e, names) := e.intern names
      return (.ok e, names)
  | .error seen =>
      return (.error (invalidExpression p), seen.foldl (fun t n => (t.insert n).2) names)

/-- A piece is read by number without a mistake. -/
theorem readExprAt_eq (p : Piece) : readExprAt p = some (readExpr p) := by
  have hsum := sumAt_agrees p.start (show p.text = [] ++ p.text from (List.nil_append _).symm)
    (Nat.lt_succ_self _)
  unfold readExprAt readExpr Piece.stop
  rw [List.length_nil] at hsum
  generalize readSum (p.start.right p.text.length) p.text = x at hsum ⊢
  generalize sumAt p.start p.text (6 * p.text.length + 6) 0 = y at hsum ⊢
  cases hsum with
  | error names => rfl
  | @ok e next after hlt hafter =>
      simp only [Option.bind_eq_bind, Option.bind_some]
      cases after with
      | nil => rw [if_pos (by rw [hafter, List.append_nil])]; rfl
      | cons c after =>
          have hne : next.length ≠ p.text.length := by
            rw [hafter]
            simp
          rw [if_neg hne]
          rfl

theorem internExprAt_eq (names : NameTable) (p : Piece) :
    internExprAt names p = some (internExpr names p) := by
  rw [internExprAt, readExprAt_eq, internExpr]
  cases readExpr p <;> rfl

/-! ## Addresses -/

/-- The number of the first parenthesis from `n` on whose group ends with the text. -/
def groupStart (text : List Char) (n : Nat) : Option (Option Nat) :=
  if n < text.length then do
    if (← text[n]?) = '(' ∧ closing? text n = some (text.length - 1) then return some n
    else groupStart text (n + 1)
  else return none
  termination_by text.length - n

/-- The expressions of registers, whose texts come with their numbers in the group. -/
def internRegistersAt (names : NameTable) (start : Position) :
    List (Nat × List Char) → Option (Option (List (Option (OrdinaryExpr NameId))) × NameTable)
  | [] => return (some [], names)
  | (n, text) :: rest => do
      if text = [] then
        let (others, names) ← internRegistersAt names start rest
        return (others.map (none :: ·), names)
      else
        let (register, names) ← internExprAt names ⟨start.right n, text⟩
        let (others, names) ← internRegistersAt names start rest
        match register with
        | .ok e => return (others.map (some e :: ·), names)
        | .error _ => return (none, names)

/-- A displacement with registers in the group that ends the text. -/
def internAddressAt (names : NameTable) (p : Piece) :
    Option (Option MachineOperand × NameTable) := do
  if p.text.getLast? ≠ some ')' then return (none, names)
  match ← groupStart p.text 0 with
  | none => return (none, names)
  | some 0 => return (none, names)
  | some n =>
      let before ← slice? p.text 0 n
      let inner ← slice? p.text (n + 1) (p.text.length - 1)
      let parts ← split inner
      let (displacement, names) ← internExprAt names ⟨p.start, before⟩
      let (registers, names) ← internRegistersAt names (p.start.right (n + 1)) parts
      match displacement, registers with
      | .ok d, some [some first] => return (some (.address d (some first) none), names)
      | .ok d, some [some first, second] => return (some (.address d (some first) second), names)
      | .ok d, some [none, some second] => return (some (.address d none (some second)), names)
      | _, _ => return (none, names)

/-- The operand of a machine instruction. -/
def internMachineOperandAt (names : NameTable) (p : Piece) :
    Option (Except Diagnostic MachineOperand × NameTable) := do
  match ← internAddressAt names p with
  | (some address, names) => return (.ok address, names)
  | (none, names) =>
      match ← internExprAt names p with
      | (.ok e, names) => return (.ok (.expr e), names)
      | (.error d, names) => return (.error d, names)

/-- The text in front of a group, the group, and its parentheses make up the text. -/
theorem splitGroup_eq {cs before inner : List Char} (h : splitGroup cs = some (before, inner)) :
    cs = before ++ '(' :: (inner ++ [')']) := by
  induction cs generalizing before with
  | nil => simp [splitGroup] at h
  | cons c rest ih =>
      have hlater (h : (splitGroup rest).map (fun g => (c :: g.1, g.2)) = some (before, inner)) :
          c :: rest = before ++ '(' :: (inner ++ [')']) := by
        obtain ⟨⟨b, i⟩, hb, heq⟩ := Option.map_eq_some_iff.1 h
        obtain ⟨rfl, rfl⟩ := Prod.mk.inj heq
        rw [ih hb, List.cons_append]
      unfold splitGroup at h
      dsimp only at h
      split at h
      · rename_i hparen
        split at h
        · rename_i hgroup
          obtain ⟨rfl, rfl⟩ := Prod.mk.inj (Option.some.inj h)
          rw [hparen, takeGroup_eq hgroup]
          rfl
        · exact hlater h
      · exact hlater h

/-- The text in front of a group and the group by number. -/
theorem slices_of_splitGroup {cs before inner : List Char}
    (h : splitGroup cs = some (before, inner)) :
    slice? cs 0 before.length = some before ∧
      slice? cs (before.length + 1) (before.length + 1 + inner.length) = some inner ∧
      cs.length = before.length + 1 + inner.length + 1 := by
  have hcs := splitGroup_eq h
  refine ⟨?_, ?_, ?_⟩
  · rw [hcs]
    exact slice?_append [] before _ rfl (Nat.zero_add _).symm
  · have hgroup : cs = (before ++ ['(']) ++ (inner ++ [')']) := by simp [hcs]
    rw [hgroup]
    exact slice?_append (before ++ ['(']) inner [')'] (by simp) (by simp)
  · rw [hcs]
    simp
    omega

/-- The group that ends a text is found by number. -/
theorem groupStart_append (done rest : List Char) :
    groupStart (done ++ rest) done.length =
      some ((splitGroup rest).map fun g => done.length + g.1.length) := by
  induction rest generalizing done with
  | nil =>
      rw [groupStart, if_neg (by simp)]
      rfl
  | cons c rest ih =>
      have hnext := ih (done ++ [c])
      rw [List.append_assoc, List.singleton_append, List.length_append,
        List.length_singleton] at hnext
      -- no group starts here, and so the walk goes on behind the character
      have hlater (hnot : splitGroup (c :: rest) = (splitGroup rest).map fun g => (c :: g.1, g.2)) :
          some ((splitGroup rest).map fun g => done.length + 1 + g.1.length) =
            some ((splitGroup (c :: rest)).map fun g => done.length + g.1.length) := by
        rw [hnot, Option.map_map]
        congr 2
        funext g
        simp only [Function.comp, List.length_cons]
        omega
      rw [groupStart, if_pos (by simp), getElem?_append_length]
      simp only [List.head?_cons, Option.bind_eq_bind, Option.bind_some]
      split
      · rename_i hfound
        obtain ⟨rfl, hclosing⟩ := hfound
        obtain ⟨inner, hgroup⟩ := (closing?_eq_last_iff done rest).1 hclosing
        simp [splitGroup, hgroup]
      · rename_i hnone
        rw [hnext]
        refine hlater ?_
        rw [splitGroup]
        dsimp only
        split
        · rename_i hparen
          subst hparen
          split
          · rename_i inner hgroup
            exact absurd ⟨rfl, (closing?_eq_last_iff done rest).2 ⟨inner, hgroup⟩⟩ hnone
          · rfl
        · rfl

theorem internRegistersAt_eq (names : NameTable) (start : Position) (ps : List (Nat × List Char)) :
    internRegistersAt names start ps =
      some (internRegisters names (ps.map fun p => ⟨start.right p.1, p.2⟩)) := by
  induction ps generalizing names with
  | nil => rfl
  | cons p ps ih =>
      obtain ⟨n, text⟩ := p
      rw [internRegistersAt, List.map_cons, internRegisters]
      dsimp only
      split
      · rw [ih]
        rfl
      · rw [internExprAt_eq]
        simp only [Option.bind_eq_bind, Option.bind_some, ih]
        generalize internExpr names ⟨start.right n, text⟩ = found
        obtain ⟨d | e, names⟩ := found <;> rfl

/-- An address is read by number without a mistake. -/
theorem internAddressAt_eq (names : NameTable) (p : Piece) :
    internAddressAt names p = some (internAddress names p) := by
  have hstart := groupStart_append [] p.text
  rw [List.nil_append, List.length_nil] at hstart
  unfold internAddressAt internAddress
  rw [hstart]
  cases hgroup : splitGroup p.text with
  | none =>
      split
      · rfl
      · rfl
  | some g =>
      obtain ⟨before, inner⟩ := g
      have htext := splitGroup_eq hgroup
      have hlast : p.text.getLast? = some ')' := by
        rw [show p.text = (before ++ '(' :: inner) ++ [')'] by simp [htext], List.getLast?_concat]
      rw [if_neg (not_not_intro hlast)]
      cases hbefore : before with
      | nil => rfl
      | cons c cs =>
          obtain ⟨hfront, hinside, hlength⟩ := slices_of_splitGroup hgroup
          have hend : before.length + 1 + inner.length = p.text.length - 1 := by omega
          rw [hend] at hinside
          rw [hbefore, List.length_cons] at hfront hinside
          simp only [Option.map_some, Option.bind_eq_bind, Option.bind_some, Nat.zero_add,
            List.length_cons, hfront, hinside, split_eq, internExprAt_eq, internRegistersAt_eq,
            ← pieces_eq]
          generalize (internExpr names _).1 = displacement
          generalize (internRegisters _ _).1 = registers
          split
          · rfl
          · rfl
          · rfl
          · simp_all

/-- The operand of a machine instruction is read by number without a mistake. -/
theorem internMachineOperandAt_eq (names : NameTable) (p : Piece) :
    internMachineOperandAt names p = some (internMachineOperand names p) := by
  unfold internMachineOperandAt internMachineOperand
  rw [internAddressAt_eq]
  simp only [Option.bind_eq_bind, Option.bind_some]
  obtain ⟨_ | address, names⟩ := internAddress names p
  · simp only [internExprAt_eq, Option.bind_some]
    obtain ⟨d | e, names⟩ := internExpr names p <;> rfl
  · rfl

end MacroAssembler.Field
