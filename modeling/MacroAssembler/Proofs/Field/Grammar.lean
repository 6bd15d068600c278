import MacroAssembler.Proofs.Field.Places
import MacroAssembler.Proofs.Letters
import MacroAssembler.Proofs.Numerals

/-!
# The grammar of expressions

A text is an expression exactly if it is derived by the rules for sums, products, signed factors
and primaries, and the expression is that of the derivation (`internExpr_grammar`). An expression
that is written with all its parentheses is read back (`internExpr_written`).
-/

namespace MacroAssembler.Field

/-! ## The rules -/

mutual
/-- The text is a sum of products, whose value is built from the left. -/
inductive IsSum : List Char → OrdinaryExpr String → Prop where
  | product {cs : List Char} {e : OrdinaryExpr String} : IsProduct cs e → IsSum cs e
  | extend {cs cs' : List Char} {c : Char} {op : ArithmeticOp} {left right : OrdinaryExpr String} :
      IsSum cs left → additive? c = some op → IsProduct cs' right →
      IsSum (cs ++ c :: cs') (.binary op left right {})

/-- The text is a product of factors, whose value is built from the left. -/
inductive IsProduct : List Char → OrdinaryExpr String → Prop where
  | factor {cs : List Char} {e : OrdinaryExpr String} : IsFactor cs e → IsProduct cs e
  | extend {cs cs' : List Char} {c : Char} {op : ArithmeticOp} {left right : OrdinaryExpr String} :
      IsProduct cs left → multiplicative? c = some op → IsFactor cs' right →
      IsProduct (cs ++ c :: cs') (.binary op left right {})

/-- The text is a primary with signs in front of it, of which a plus leaves no trace. -/
inductive IsFactor : List Char → OrdinaryExpr String → Prop where
  | plus {cs : List Char} {e : OrdinaryExpr String} : IsFactor cs e → IsFactor ('+' :: cs) e
  | minus {cs : List Char} {e : OrdinaryExpr String} : IsFactor cs e →
      IsFactor ('-' :: cs) (.negate e {})
  | primary {cs : List Char} {e : OrdinaryExpr String} : IsPrimary cs e → IsFactor cs e

/-- The text is a sum in parentheses, a decimal number, a self-defining term or a symbol. -/
inductive IsPrimary : List Char → OrdinaryExpr String → Prop where
  | group {cs : List Char} {e : OrdinaryExpr String} : IsSum cs e →
      IsPrimary ('(' :: (cs ++ [')'])) e
  | number {digits : List Char} : digits ≠ [] → (∀ c ∈ digits, c.isDigit) →
      Numeral.valueOf 10 digits ≤ 0x7FFFFFFF →
      IsPrimary digits (.constant (Int32.ofNat (Numeral.valueOf 10 digits)) {})
  | selfDefining {kind : Char} {body : List Char} {value : Int32} : '\'' ∉ body →
      selfDefining? kind body = some value →
      IsPrimary (kind :: '\'' :: (body ++ ['\''])) (.constant value {})
  | symbol {name : List Char} : name ≠ [] → (∀ c ∈ name, Text.isNameChar c) →
      (∀ c ∈ name.head?, ¬ c.isDigit) →
      IsPrimary name (.symbol (Text.upper (String.ofList name)) {})
end

/-! ## Digits -/

theorem isNameChar_of_isDigit {c : Char} (h : c.isDigit) : Text.isNameChar c := by
  simp [Text.isNameChar, Char.isAlphanum, h]

/-! ## What is read derives -/

theorem readSelfDefining_eq {cs after : List Char} {value : Int32} {hlt : after.length < cs.length}
    (h : readSelfDefining cs = some ⟨(value, after), hlt⟩) :
    ∃ kind body, cs = kind :: '\'' :: (body ++ '\'' :: after) ∧ '\'' ∉ body ∧
      selfDefining? kind body = some value := by
  unfold readSelfDefining at h
  split at h
  · rename_i kind rest
    split at h
    · rename_i c after' hdrop
      obtain ⟨value', hvalue, heq⟩ := Option.map_eq_some_iff.1 h
      obtain ⟨rfl, rfl⟩ := Prod.mk.inj (Subtype.mk.inj heq)
      obtain rfl : c = '\'' := by
        have hne : rest.dropWhile (· ≠ '\'') ≠ [] := by
          rw [hdrop]
          exact List.cons_ne_nil _ _
        have hstops := List.head_dropWhile_not (· ≠ '\'') hne
        simp only [hdrop, List.head_cons] at hstops
        simpa using hstops
      refine ⟨kind, _, ?_, fun hmem => ?_, hvalue⟩
      · rw [← hdrop, List.takeWhile_append_dropWhile]
      · simpa using List.all_eq_true.1 List.all_takeWhile _ hmem
    · simp at h
  · simp at h

/-- What is read as an atom is a primary. -/
theorem readAtom_derives {stop : Position} {cs after : List Char} {e : OrdinaryExpr String}
    {hlt : after.length < cs.length} (h : readAtom stop cs = .ok ⟨(e, after), hlt⟩) :
    ∃ taken, cs = taken ++ after ∧ IsPrimary taken e.withoutPlaces := by
  unfold readAtom at h
  split at h
  · simp at h
  · rename_i c rest
    split at h
    · rename_i hc
      have hdigits : ∀ d ∈ c :: rest.takeWhile Char.isDigit, d.isDigit := by
        intro d hd
        rcases List.mem_cons.1 hd with rfl | hd
        · exact hc
        · exact List.all_eq_true.1 List.all_takeWhile d hd
      dsimp only at h
      rw [Numeral.integer?_of_digits (List.cons_ne_nil _ _) hdigits] at h
      split at h
      · rename_i value hvalue
        split at hvalue
        · rename_i hle
          cases hvalue
          cases h
          exact ⟨c :: rest.takeWhile Char.isDigit, by simp,
            .number (List.cons_ne_nil _ _) hdigits hle⟩
        · simp at hvalue
      · simp at h
    · rename_i hc
      split at h
      · rename_i value after' hlt' hread
        cases h
        obtain ⟨kind, body, heq, hbody, hvalue⟩ := readSelfDefining_eq hread
        exact ⟨kind :: '\'' :: (body ++ ['\'']), by simp [heq], .selfDefining hbody hvalue⟩
      · split at h
        · rename_i hname
          cases h
          refine ⟨c :: rest.takeWhile Text.isNameChar, by simp,
            .symbol (List.cons_ne_nil _ _) (fun d hd => ?_) (by simpa using hc)⟩
          rcases List.mem_cons.1 hd with rfl | hd
          · exact hname
          · exact List.all_eq_true.1 List.all_takeWhile d hd
        · simp at h

mutual
/-- What is read as a sum is one. -/
theorem readSum_derives {stop : Position} {cs after : List Char} {e : OrdinaryExpr String}
    {hlt : after.length < cs.length} (h : readSum stop cs = .ok ⟨(e, after), hlt⟩) :
    ∃ taken, cs = taken ++ after ∧ IsSum taken e.withoutPlaces := by
  rw [readSum] at h
  cases hread : readProduct stop cs with
  | error names => simp [hread] at h
  | ok found =>
      obtain ⟨⟨left, after'⟩, hlt'⟩ := found
      have hshorter : after'.length < cs.length := hlt'
      obtain ⟨taken, rfl, hleft⟩ := readProduct_derives hread
      simp only [hread] at h
      cases hmore : extendSum stop (placeOf stop (taken ++ after')) left after' with
      | error names => simp [hmore] at h
      | ok found =>
          obtain ⟨⟨e', after''⟩, hlt''⟩ := found
          simp only [hmore] at h
          cases h
          obtain ⟨more, rfl, hwhole⟩ := extendSum_derives (.product hleft) hmore
          exact ⟨taken ++ more, by simp, hwhole⟩
  termination_by (cs.length, 5)

theorem extendSum_derives {stop start : Position} {front cs after : List Char}
    {left e : OrdinaryExpr String} {hlt : after.length < cs.length + 1}
    (hleft : IsSum front left.withoutPlaces)
    (h : extendSum stop start left cs = .ok ⟨(e, after), hlt⟩) :
    ∃ taken, cs = taken ++ after ∧ IsSum (front ++ taken) e.withoutPlaces := by
  match cs with
  | [] =>
      rw [extendSum] at h
      cases h
      exact ⟨[], rfl, by simpa using hleft⟩
  | c :: rest =>
      rw [extendSum] at h
      cases hop : additive? c with
      | none =>
          simp only [hop] at h
          cases h
          exact ⟨[], rfl, by simpa using hleft⟩
      | some op =>
          simp only [hop] at h
          cases hread : readProduct stop rest with
          | error names => simp [hread] at h
          | ok found =>
              obtain ⟨⟨right, after'⟩, hlt'⟩ := found
              have hshorter : after'.length < rest.length := hlt'
              obtain ⟨taken, rfl, hright⟩ := readProduct_derives hread
              simp only [hread] at h
              cases hmore : extendSum stop start
                  (.binary op left right ⟨start, placeOf stop after'⟩) after' with
              | error names => simp [hmore] at h
              | ok found =>
                  obtain ⟨⟨e', after''⟩, hlt''⟩ := found
                  simp only [hmore] at h
                  cases h
                  obtain ⟨more, rfl, hwhole⟩ :=
                    extendSum_derives (.extend hleft hop hright) hmore
                  exact ⟨c :: (taken ++ more), by simp, by simpa using hwhole⟩
  termination_by (cs.length, 4)

theorem readProduct_derives {stop : Position} {cs after : List Char} {e : OrdinaryExpr String}
    {hlt : after.length < cs.length} (h : readProduct stop cs = .ok ⟨(e, after), hlt⟩) :
    ∃ taken, cs = taken ++ after ∧ IsProduct taken e.withoutPlaces := by
  rw [readProduct] at h
  cases hread : readFactor stop cs with
  | error names => simp [hread] at h
  | ok found =>
      obtain ⟨⟨left, after'⟩, hlt'⟩ := found
      have hshorter : after'.length < cs.length := hlt'
      obtain ⟨taken, rfl, hleft⟩ := readFactor_derives hread
      simp only [hread] at h
      cases hmore : extendProduct stop (placeOf stop (taken ++ after')) left after' with
      | error names => simp [hmore] at h
      | ok found =>
          obtain ⟨⟨e', after''⟩, hlt''⟩ := found
          simp only [hmore] at h
          cases h
          obtain ⟨more, rfl, hwhole⟩ := extendProduct_derives (.factor hleft) hmore
          exact ⟨taken ++ more, by simp, hwhole⟩
  termination_by (cs.length, 3)

theorem extendProduct_derives {stop start : Position} {front cs after : List Char}
    {left e : OrdinaryExpr String} {hlt : after.length < cs.length + 1}
    (hleft : IsProduct front left.withoutPlaces)
    (h : extendProduct stop start left cs = .ok ⟨(e, after), hlt⟩) :
    ∃ taken, cs = taken ++ after ∧ IsProduct (front ++ taken) e.withoutPlaces := by
  match cs with
  | [] =>
      rw [extendProduct] at h
      cases h
      exact ⟨[], rfl, by simpa using hleft⟩
  | c :: rest =>
      rw [extendProduct] at h
      cases hop : multiplicative? c with
      | none =>
          simp only [hop] at h
          cases h
          exact ⟨[], rfl, by simpa using hleft⟩
      | some op =>
          simp only [hop] at h
          cases hread : readFactor stop rest with
          | error names => simp [hread] at h
          | ok found =>
              obtain ⟨⟨right, after'⟩, hlt'⟩ := found
              have hshorter : after'.length < rest.length := hlt'
              obtain ⟨taken, rfl, hright⟩ := readFactor_derives hread
              simp only [hread] at h
              cases hmore : extendProduct stop start
                  (.binary op left right ⟨start, placeOf stop after'⟩) after' with
              | error names => simp [hmore] at h
              | ok found =>
                  obtain ⟨⟨e', after''⟩, hlt''⟩ := found
                  simp only [hmore] at h
                  cases h
                  obtain ⟨more, rfl, hwhole⟩ :=
                    extendProduct_derives (.extend hleft hop hright) hmore
                  exact ⟨c :: (taken ++ more), by simp, by simpa using hwhole⟩
  termination_by (cs.length, 2)

theorem readFactor_derives {stop : Position} {cs after : List Char} {e : OrdinaryExpr String}
    {hlt : after.length < cs.length} (h : readFactor stop cs = .ok ⟨(e, after), hlt⟩) :
    ∃ taken, cs = taken ++ after ∧ IsFactor taken e.withoutPlaces := by
  unfold readFactor at h
  split at h
  · rename_i rest
    cases hread : readFactor stop rest with
    | error names => simp [hread] at h
    | ok found =>
        obtain ⟨⟨e', after'⟩, hlt'⟩ := found
        simp only [hread] at h
        cases h
        obtain ⟨taken, rfl, hfactor⟩ := readFactor_derives hread
        exact ⟨'+' :: taken, rfl, .plus hfactor⟩
  · rename_i rest
    cases hread : readFactor stop rest with
    | error names => simp [hread] at h
    | ok found =>
        obtain ⟨⟨e', after'⟩, hlt'⟩ := found
        simp only [hread] at h
        cases h
        obtain ⟨taken, rfl, hfactor⟩ := readFactor_derives hread
        exact ⟨'-' :: taken, rfl, .minus hfactor⟩
  · rename_i rest
    cases hread : readSum stop rest with
    | error names => simp [hread] at h
    | ok found =>
        obtain ⟨⟨e', after'⟩, hlt'⟩ := found
        simp only [hread] at h
        obtain ⟨taken, rfl, hsum⟩ := readSum_derives hread
        split at h
        · simp at h
        · split at h
          · rename_i c after' hlt'' _ hclose
            subst hclose
            cases h
            exact ⟨'(' :: (taken ++ [')']), by simp, .primary (.group hsum)⟩
          · simp at h
  · obtain ⟨taken, heq, hprimary⟩ := readAtom_derives h
    exact ⟨taken, heq, .primary hprimary⟩
  termination_by (cs.length, 1)
end

/-! ## What derives is read -/

/-- No name or self-defining term goes on here. -/
def Stops (rest : List Char) : Prop := ∀ c ∈ rest.head?, ¬ Text.isNameChar c ∧ c ≠ '\''

/-- No product goes on here. -/
def StopsProduct (rest : List Char) : Prop :=
  Stops rest ∧ ∀ c ∈ rest.head?, multiplicative? c = none

theorem stops_of_multiplicative {c : Char} {op : ArithmeticOp} {rest : List Char}
    (h : multiplicative? c = some op) : Stops (c :: rest) := by
  unfold multiplicative? at h
  split at h <;> simp [Stops] at h ⊢ <;> decide

theorem stopsProduct_of_additive {c : Char} {op : ArithmeticOp} {rest : List Char}
    (h : additive? c = some op) : StopsProduct (c :: rest) := by
  unfold additive? at h
  split at h <;> simp [StopsProduct, Stops] at h ⊢ <;> decide

theorem stopsProduct_close (rest : List Char) : StopsProduct (')' :: rest) := by
  simp [StopsProduct, Stops]
  decide

theorem stopsProduct_nil : StopsProduct [] := by simp [StopsProduct, Stops]

theorem viewRead_eq_ok {n : Nat} {x : Except (List String) (Read n)} {t : OrdinaryExpr String}
    {rest : List Char} (h : viewRead x = .ok (t, rest)) :
    ∃ e hlt, x = .ok ⟨(e, rest), hlt⟩ ∧ e.withoutPlaces = t := by
  cases x with
  | error names => simp [viewRead, Except.map] at h
  | ok found =>
      obtain ⟨⟨e, after⟩, hlt⟩ := found
      simp only [viewRead, Except.map, Except.ok.injEq, Prod.mk.injEq] at h
      obtain ⟨rfl, rfl⟩ := h
      exact ⟨e, hlt, rfl, rfl⟩

/-- The longest start of a text that passes a test, if the part before the first failure is
known. -/
theorem takeWhile_dropWhile_append {test : Char → Bool} {cs rest : List Char}
    (hcs : ∀ c ∈ cs, test c) (hrest : ∀ c ∈ rest.head?, ¬ test c) :
    (cs ++ rest).takeWhile test = cs ∧ (cs ++ rest).dropWhile test = rest := by
  rw [List.takeWhile_append_of_pos hcs, List.dropWhile_append_of_pos hcs]
  cases rest with
  | nil => simp
  | cons c rest =>
      have hc := hrest c rfl
      simp [hc]

theorem isAlpha_of_selfDefining {kind : Char} {body : List Char} {value : Int32}
    (h : selfDefining? kind body = some value) : kind.isAlpha := by
  have hkind : kind.toUpper = 'X' ∨ kind.toUpper = 'B' ∨ kind.toUpper = 'C' := by
    unfold selfDefining? at h
    split at h <;> simp_all
  rw [← kind.isAlpha_toUpper_eq_isAlpha]
  rcases hkind with hkind | hkind | hkind <;> rw [hkind] <;> rfl

theorem readFactor_eq_readAtom (stop : Position) {cs : List Char}
    (h : ∀ c ∈ cs.head?, c ≠ '+' ∧ c ≠ '-' ∧ c ≠ '(') : readFactor stop cs = readAtom stop cs := by
  unfold readFactor
  split
  · exact absurd rfl (h _ rfl).1
  · exact absurd rfl (h _ rfl).2.1
  · exact absurd rfl (h _ rfl).2.2
  · rfl

theorem viewRead_number (stop : Position) {digits rest : List Char} (hne : digits ≠ [])
    (hdigits : ∀ c ∈ digits, c.isDigit) (hle : Numeral.valueOf 10 digits ≤ 0x7FFFFFFF)
    (hstops : Stops rest) :
    viewRead (readFactor stop (digits ++ rest)) =
      .ok (.constant (Int32.ofNat (Numeral.valueOf 10 digits)) {}, rest) := by
  obtain ⟨c, ds, rfl⟩ := List.exists_cons_of_ne_nil hne
  have hc : c.isDigit := hdigits c List.mem_cons_self
  obtain ⟨htake, hdrop⟩ := takeWhile_dropWhile_append
    (fun d hd => hdigits d (List.mem_cons_of_mem _ hd))
    (fun d hd h => (hstops d hd).1 (isNameChar_of_isDigit h))
  rw [readFactor_eq_readAtom]
  · simp only [readAtom, List.cons_append, if_pos hc, htake, hdrop,
      Numeral.integer?_of_digits hne hdigits, if_pos hle]
    rfl
  · rintro d hd
    obtain rfl : c = d := by simpa using hd
    refine ⟨?_, ?_, ?_⟩ <;> rintro rfl <;> exact absurd hc (by decide)

/-- A self-defining term is read as far as its second apostrophe. -/
theorem view_readSelfDefining {kind : Char} {body : List Char} (hbody : '\'' ∉ body)
    (rest : List Char) :
    (readSelfDefining (kind :: '\'' :: (body ++ '\'' :: rest))).map Subtype.val =
      (selfDefining? kind body).map fun value => (value, rest) := by
  have hinside : ∀ d ∈ body, decide (d ≠ '\'') = true :=
    fun d hd => decide_eq_true (ne_of_mem_of_not_mem hd hbody)
  have hcloses : ∀ d ∈ ('\'' :: rest).head?, ¬ decide (d ≠ '\'') = true := by simp
  obtain ⟨htake, hdrop⟩ := takeWhile_dropWhile_append hinside hcloses
  simp only [readSelfDefining]
  split
  · rename_i c after hdrop'
    rw [hdrop] at hdrop'
    cases hdrop'
    rw [htake, Option.map_map]
    rfl
  · rename_i hnil
    rw [hdrop] at hnil
    cases hnil

theorem readSelfDefining_append {kind : Char} {body : List Char} {value : Int32}
    (hbody : '\'' ∉ body) (hvalue : selfDefining? kind body = some value) (rest : List Char) :
    ∃ hlt, readSelfDefining (kind :: '\'' :: (body ++ '\'' :: rest)) =
      some ⟨(value, rest), hlt⟩ := by
  have hview := @view_readSelfDefining kind body hbody rest
  rw [hvalue, Option.map_some, Option.map_eq_some_iff] at hview
  obtain ⟨⟨p, hlt⟩, hread, rfl⟩ := hview
  exact ⟨hlt, hread⟩

theorem readSelfDefining_eq_none {kind : Char} {body : List Char}
    (hbody : '\'' ∉ body) (hnone : selfDefining? kind body = none) (rest : List Char) :
    readSelfDefining (kind :: '\'' :: (body ++ '\'' :: rest)) = none := by
  have hview := @view_readSelfDefining kind body hbody rest
  rwa [hnone, Option.map_none, Option.map_eq_none_iff] at hview

/-- A self-defining term is the constant of its value, in the columns that it takes. -/
theorem readFactor_selfDefining (stop : Position) {kind : Char} {body : List Char} {value : Int32}
    (hbody : '\'' ∉ body) (hvalue : selfDefining? kind body = some value) (rest : List Char) :
    ∃ hlt, readFactor stop (kind :: '\'' :: (body ++ '\'' :: rest)) =
      .ok ⟨(.constant value (span stop (kind :: '\'' :: (body ++ '\'' :: rest)) rest), rest),
        hlt⟩ := by
  have hkind := isAlpha_of_selfDefining hvalue
  obtain ⟨hlt, hread⟩ := readSelfDefining_append hbody hvalue rest
  refine ⟨hlt, ?_⟩
  rw [readFactor_eq_readAtom]
  · simp only [readAtom, if_neg (Text.not_isDigit_of_isAlpha hkind), hread]
  · rintro d hd
    obtain rfl : kind = d := by simpa using hd
    refine ⟨?_, ?_, ?_⟩ <;> rintro rfl <;> exact absurd hkind (by decide)

theorem viewRead_selfDefining (stop : Position) {kind : Char} {body rest : List Char}
    {value : Int32} (hbody : '\'' ∉ body) (hvalue : selfDefining? kind body = some value) :
    viewRead (readFactor stop (kind :: '\'' :: (body ++ '\'' :: rest))) =
      .ok (.constant value {}, rest) := by
  obtain ⟨hlt, hread⟩ := readFactor_selfDefining stop hbody hvalue rest
  rw [hread]
  rfl

theorem viewRead_symbol (stop : Position) {name rest : List Char} (hne : name ≠ [])
    (hname : ∀ c ∈ name, Text.isNameChar c) (hfirst : ∀ c ∈ name.head?, ¬ c.isDigit)
    (hstops : Stops rest) :
    viewRead (readFactor stop (name ++ rest)) =
      .ok (.symbol (Text.upper (String.ofList name)) {}, rest) := by
  obtain ⟨c, ds, rfl⟩ := List.exists_cons_of_ne_nil hne
  have hc : Text.isNameChar c := hname c List.mem_cons_self
  have hnotDigit : ¬ c.isDigit := hfirst c rfl
  obtain ⟨htake, hdrop⟩ := takeWhile_dropWhile_append
    (fun d hd => hname d (List.mem_cons_of_mem _ hd)) (fun d hd => (hstops d hd).1)
  -- no apostrophe follows the first character, which could make it the letter of a term
  have hnone : readSelfDefining (c :: (ds ++ rest)) = none := by
    have hsecond : ∀ d ∈ (ds ++ rest).head?, d ≠ '\'' := by
      cases ds with
      | nil => exact fun d hd => (hstops d hd).2
      | cons d' ds =>
          rintro d hd rfl
          obtain rfl : d' = '\'' := by simpa using hd
          exact absurd (hname _ (List.mem_cons_of_mem _ List.mem_cons_self)) (by decide)
    rw [readSelfDefining]
    rintro kind rest' heq
    obtain ⟨-, heq⟩ := List.cons.inj heq
    exact absurd rfl (hsecond '\'' (by rw [heq]; rfl))
  rw [readFactor_eq_readAtom]
  · simp only [readAtom, List.cons_append, if_neg hnotDigit, hnone, if_pos hc, htake, hdrop]
    rfl
  · rintro d hd
    obtain rfl : c = d := by simpa using hd
    refine ⟨?_, ?_, ?_⟩ <;> rintro rfl <;> exact absurd hc (by decide)

/-- What is read of a sum does not depend on how the part before was read. -/
theorem viewRead_readSum_of_product {stop start : Position} {cs rest : List Char}
    {t left : OrdinaryExpr String} (h : viewRead (readProduct stop cs) = .ok (t, rest))
    (hleft : left.withoutPlaces = t) :
    viewRead (readSum stop cs) = viewRead (extendSum stop start left rest) := by
  obtain ⟨e, hlt, hread, he⟩ := viewRead_eq_ok h
  rw [readSum, hread]
  dsimp only
  rcases cases_of_viewRead (viewRead_extendSum stop stop (placeOf stop cs) start e left rest
    (he.trans hleft.symm)) with
    ⟨names, hx, hy⟩ | ⟨e, e', after, hlt, hlt', hx, hy, he⟩ <;> rw [hx, hy]
  · rfl
  · simp [viewRead, Except.map, he]

/-- What is read of a product does not depend on how the part before was read. -/
theorem viewRead_readProduct_of_factor {stop start : Position} {cs rest : List Char}
    {t left : OrdinaryExpr String} (h : viewRead (readFactor stop cs) = .ok (t, rest))
    (hleft : left.withoutPlaces = t) :
    viewRead (readProduct stop cs) = viewRead (extendProduct stop start left rest) := by
  obtain ⟨e, hlt, hread, he⟩ := viewRead_eq_ok h
  rw [readProduct, hread]
  dsimp only
  rcases cases_of_viewRead (viewRead_extendProduct stop stop (placeOf stop cs) start e left rest
    (he.trans hleft.symm)) with
    ⟨names, hx, hy⟩ | ⟨e, e', after, hlt, hlt', hx, hy, he⟩ <;> rw [hx, hy]
  · rfl
  · simp [viewRead, Except.map, he]

/-- A sum goes on with the product behind its sign. -/
theorem viewRead_extendSum_of_product {stop start : Position} {c : Char} {op : ArithmeticOp}
    {cs rest : List Char} {t left whole : OrdinaryExpr String} (hop : additive? c = some op)
    (h : viewRead (readProduct stop cs) = .ok (t, rest))
    (hwhole : whole.withoutPlaces = .binary op left.withoutPlaces t {}) :
    viewRead (extendSum stop start left (c :: cs)) =
      viewRead (extendSum stop start whole rest) := by
  obtain ⟨e, hlt, hread, he⟩ := viewRead_eq_ok h
  rw [extendSum]
  simp only [hop, hread]
  rcases cases_of_viewRead (viewRead_extendSum stop stop start start
    (.binary op left e ⟨start, placeOf stop rest⟩) whole rest
    (by rw [hwhole, OrdinaryExpr.withoutPlaces, he])) with
    ⟨names, hx, hy⟩ | ⟨e, e', after, hlt, hlt', hx, hy, he⟩ <;> rw [hx, hy]
  · rfl
  · simp [viewRead, Except.map, he]

/-- A product goes on with the factor behind its sign. -/
theorem viewRead_extendProduct_of_factor {stop start : Position} {c : Char} {op : ArithmeticOp}
    {cs rest : List Char} {t left whole : OrdinaryExpr String} (hop : multiplicative? c = some op)
    (h : viewRead (readFactor stop cs) = .ok (t, rest))
    (hwhole : whole.withoutPlaces = .binary op left.withoutPlaces t {}) :
    viewRead (extendProduct stop start left (c :: cs)) =
      viewRead (extendProduct stop start whole rest) := by
  obtain ⟨e, hlt, hread, he⟩ := viewRead_eq_ok h
  rw [extendProduct]
  simp only [hop, hread]
  rcases cases_of_viewRead (viewRead_extendProduct stop stop start start
    (.binary op left e ⟨start, placeOf stop rest⟩) whole rest
    (by rw [hwhole, OrdinaryExpr.withoutPlaces, he])) with
    ⟨names, hx, hy⟩ | ⟨e, e', after, hlt, hlt', hx, hy, he⟩ <;> rw [hx, hy]
  · rfl
  · simp [viewRead, Except.map, he]

/-- A sum ends where no sign follows. -/
theorem viewRead_extendSum_stop (stop start : Position) (left : OrdinaryExpr String)
    {rest : List Char} (h : ∀ c ∈ rest.head?, additive? c = none) :
    viewRead (extendSum stop start left rest) = .ok (left.withoutPlaces, rest) := by
  cases rest with
  | nil => rw [extendSum]; rfl
  | cons c rest =>
      have hc : additive? c = none := h c rfl
      rw [extendSum]
      simp only [hc]
      rfl

/-- A product ends where no sign follows. -/
theorem viewRead_extendProduct_stop (stop start : Position) (left : OrdinaryExpr String)
    {rest : List Char} (h : ∀ c ∈ rest.head?, multiplicative? c = none) :
    viewRead (extendProduct stop start left rest) = .ok (left.withoutPlaces, rest) := by
  cases rest with
  | nil => rw [extendProduct]; rfl
  | cons c rest =>
      have hc : multiplicative? c = none := h c rfl
      rw [extendProduct]
      simp only [hc]
      rfl

mutual
/-- A sum is read to its end, and may go on behind it. -/
theorem IsSum.read {cs : List Char} {t : OrdinaryExpr String} (h : IsSum cs t) {rest : List Char}
    (hrest : StopsProduct rest) (stop start : Position) :
    viewRead (readSum stop (cs ++ rest)) = viewRead (extendSum stop start t rest) ∧
      t.withoutPlaces = t := by
  match h with
  | .product h =>
      obtain ⟨hread, hplain⟩ := h.read hrest.1 stop start
      rw [viewRead_extendProduct_stop stop start t hrest.2, hplain] at hread
      exact ⟨viewRead_readSum_of_product hread hplain, hplain⟩
  | .extend hfront hop hlast =>
      obtain ⟨hfront, hplain⟩ := hfront.read (stopsProduct_of_additive hop) stop start
      obtain ⟨hlast, hplain'⟩ := hlast.read hrest.1 stop start
      rw [viewRead_extendProduct_stop stop start _ hrest.2, hplain'] at hlast
      refine ⟨?_, by rw [OrdinaryExpr.withoutPlaces, hplain, hplain']⟩
      rw [List.append_assoc, List.cons_append, hfront]
      exact viewRead_extendSum_of_product hop hlast (by rw [OrdinaryExpr.withoutPlaces, hplain'])

/-- A product is read to its end, and may go on behind it. -/
theorem IsProduct.read {cs : List Char} {t : OrdinaryExpr String} (h : IsProduct cs t)
    {rest : List Char} (hrest : Stops rest) (stop start : Position) :
    viewRead (readProduct stop (cs ++ rest)) = viewRead (extendProduct stop start t rest) ∧
      t.withoutPlaces = t := by
  match h with
  | .factor h =>
      obtain ⟨hread, hplain⟩ := h.read hrest stop
      exact ⟨viewRead_readProduct_of_factor hread hplain, hplain⟩
  | .extend hfront hop hlast =>
      obtain ⟨hfront, hplain⟩ := hfront.read (stops_of_multiplicative hop) stop start
      obtain ⟨hlast, hplain'⟩ := hlast.read hrest stop
      refine ⟨?_, by rw [OrdinaryExpr.withoutPlaces, hplain, hplain']⟩
      rw [List.append_assoc, List.cons_append, hfront]
      exact viewRead_extendProduct_of_factor hop hlast (by rw [OrdinaryExpr.withoutPlaces, hplain'])

/-- A factor is read to its end. -/
theorem IsFactor.read {cs : List Char} {t : OrdinaryExpr String} (h : IsFactor cs t)
    {rest : List Char} (hrest : Stops rest) (stop : Position) :
    viewRead (readFactor stop (cs ++ rest)) = .ok (t, rest) ∧ t.withoutPlaces = t := by
  match h with
  | .plus h =>
      obtain ⟨hread, hplain⟩ := h.read hrest stop
      obtain ⟨e, hlt, hread, he⟩ := viewRead_eq_ok hread
      refine ⟨?_, hplain⟩
      rw [List.cons_append, readFactor, hread]
      simp [viewRead, Except.map, he]
  | .minus h =>
      obtain ⟨hread, hplain⟩ := h.read hrest stop
      obtain ⟨e, hlt, hread, he⟩ := viewRead_eq_ok hread
      refine ⟨?_, by rw [OrdinaryExpr.withoutPlaces, hplain]⟩
      rw [List.cons_append, readFactor, hread]
      simp [viewRead, Except.map, OrdinaryExpr.withoutPlaces, he]
  | .primary h => exact h.read hrest stop

/-- A primary is read to its end. -/
theorem IsPrimary.read {cs : List Char} {t : OrdinaryExpr String} (h : IsPrimary cs t)
    {rest : List Char} (hrest : Stops rest) (stop : Position) :
    viewRead (readFactor stop (cs ++ rest)) = .ok (t, rest) ∧ t.withoutPlaces = t := by
  match h with
  | .group h =>
      obtain ⟨hread, hplain⟩ := h.read (stopsProduct_close rest) stop {}
      rw [viewRead_extendSum_stop stop {} t (by simp [additive?]), hplain] at hread
      obtain ⟨e, hlt, hread, he⟩ := viewRead_eq_ok hread
      refine ⟨?_, hplain⟩
      rw [List.cons_append, List.append_assoc, List.cons_append, List.nil_append, readFactor, hread]
      simp [viewRead, Except.map, he]
  | .number hne hdigits hle => exact ⟨viewRead_number stop hne hdigits hle hrest, rfl⟩
  | .selfDefining hbody hvalue =>
      rw [List.cons_append, List.cons_append, List.append_assoc]
      exact ⟨viewRead_selfDefining stop hbody hvalue, rfl⟩
  | .symbol hne hname hfirst => exact ⟨viewRead_symbol stop hne hname hfirst hrest, rfl⟩
end

/-- The expression that a piece spells is that of a derivation. -/
theorem readExpr_derives {p : Piece} {e : OrdinaryExpr String} (h : readExpr p = .ok e) :
    IsSum p.text e.withoutPlaces := by
  unfold readExpr at h
  split at h
  · simp at h
  · rename_i hread
    cases h
    obtain ⟨taken, heq, hsum⟩ := readSum_derives hread
    rwa [heq, List.append_nil]
  · simp at h

/-- A piece that is a sum spells the expression of its derivation. -/
theorem IsSum.readExpr_eq {p : Piece} {t : OrdinaryExpr String} (h : IsSum p.text t) :
    ∃ e, readExpr p = .ok e ∧ e.withoutPlaces = t := by
  obtain ⟨hread, hplain⟩ := h.read stopsProduct_nil p.stop {}
  rw [viewRead_extendSum_stop p.stop {} t (by simp), hplain, List.append_nil] at hread
  obtain ⟨e, hlt, hread, he⟩ := viewRead_eq_ok hread
  exact ⟨e, by rw [readExpr, hread], he⟩

/-! ## Writing an expression -/

/-- The text of an expression, with parentheses around everything that has an operator. -/
def written (names : NameTable) : OrdinaryExpr NameId → List Char
  | .constant value _ => (Numeral.decimal value).toList
  | .symbol id _ => (names.nameOf id).toList
  | .negate e _ => '(' :: ('-' :: written names e ++ [')'])
  | .binary op left right _ =>
      '(' :: (written names left ++ op.text.toList ++ written names right ++ [')'])

/-- The constants of the expression are not negative, and its symbols are known symbol names in
capital letters. -/
def Writable (names : NameTable) : OrdinaryExpr NameId → Prop
  | .constant value _ => 0 ≤ value
  | .symbol id _ => ∃ name, names.find? name = some id ∧ Text.upper name = name ∧
      name.toList ≠ [] ∧ (∀ c ∈ name.toList, Text.isNameChar c) ∧
      ∀ c ∈ name.toList.head?, ¬ c.isDigit
  | .negate e _ => Writable names e
  | .binary _ left right _ => Writable names left ∧ Writable names right

/-- The digits of a number have its value. -/
theorem valueOf_toDigits (n : Nat) : Numeral.valueOf 10 (Nat.toDigits 10 n) = n := by
  have hvalue (m : Nat) (digits : List Char) (hdigits : ∀ c ∈ digits, c.isDigit) :
      Numeral.valueFrom 10 m digits = Nat.ofDigitChars 10 digits m := by
    induction digits generalizing m with
    | nil => rfl
    | cons c rest ih =>
        have hc := (Numeral.digitValue_of_isDigit (hdigits c List.mem_cons_self)).1
        rw [Numeral.valueFrom, Nat.ofDigitChars_cons, hc, Nat.mul_comm,
          ih _ fun d hd => hdigits d (List.mem_cons_of_mem _ hd)]
  rw [Numeral.valueOf, hvalue 0 _ fun c hc => Nat.isDigit_of_mem_toDigits (by omega) (by omega) hc]
  exact Nat.ofDigitChars_toDigits (by omega) (by omega)

/-- A constant that is not negative is written as a number. -/
theorem isPrimary_decimal {value : Int32} (h : 0 ≤ value) :
    IsPrimary (Numeral.decimal value).toList (.constant value {}) := by
  obtain ⟨n, hn⟩ := Int.eq_ofNat_of_zero_le (Int32.le_iff_toInt_le.1 h)
  have hle : n ≤ 0x7FFFFFFF := by
    have := value.toInt_lt
    omega
  have hvalue : Int32.ofNat n = value := by
    rw [← Int32.ofInt_eq_ofNat, ← hn, Int32.ofInt_toInt]
  have hdigits : (Numeral.decimal value).toList = Nat.toDigits 10 n := by
    rw [Numeral.decimal, hn]
    change (Nat.repr n).toList = _
    rw [Nat.repr_eq_ofList_toDigits, String.toList_ofList]
  have hall : ∀ c ∈ Nat.toDigits 10 n, c.isDigit :=
    fun c hc => Nat.isDigit_of_mem_toDigits (by omega) (by omega) hc
  have hnumber := IsPrimary.number Nat.toDigits_ne_nil hall (by rwa [valueOf_toDigits])
  rwa [valueOf_toDigits, hvalue, ← hdigits] at hnumber

/-- A written expression is a primary. -/
theorem isPrimary_written {names : NameTable} {e : OrdinaryExpr NameId} (h : Writable names e) :
    ∃ t, IsPrimary (written names e) t ∧ t.Numbered names e := by
  induction e with
  | constant value r => exact ⟨_, isPrimary_decimal h, .constant value _ r⟩
  | symbol id r =>
      obtain ⟨name, hfind, hupper, hne, hname, hfirst⟩ := h
      refine ⟨_, ?_, .symbol {} r hfind⟩
      have hsymbol := IsPrimary.symbol hne hname hfirst
      rw [String.ofList_toList, hupper] at hsymbol
      rwa [written, NameTable.nameOf_of_find? hfind]
  | negate e r ih =>
      obtain ⟨t, ht, hnumbered⟩ := ih h
      exact ⟨_, .group (.product (.factor (.minus (.primary ht)))), .negate {} r hnumbered⟩
  | binary op left right r ihl ihr =>
      obtain ⟨t, ht, hnumbered⟩ := ihl h.1
      obtain ⟨t', ht', hnumbered'⟩ := ihr h.2
      refine ⟨.binary op t t' {}, ?_, .binary op {} r hnumbered hnumbered'⟩
      have hleft : IsProduct (written names left) t := .factor (.primary ht)
      have hright : IsProduct (written names right) t' := .factor (.primary ht')
      refine .group ?_
      rw [List.append_assoc]
      have hadditive {c : Char} (hop : additive? c = some op) :
          IsSum (written names left ++ c :: written names right) (.binary op t t' {}) :=
        .extend (.product hleft) hop hright
      have hmultiplicative {c : Char} (hop : multiplicative? c = some op) :
          IsSum (written names left ++ c :: written names right) (.binary op t t' {}) :=
        .product (.extend hleft hop (.primary ht'))
      cases op with
      | add => exact hadditive rfl
      | sub => exact hadditive rfl
      | mul => exact hmultiplicative rfl
      | div => exact hmultiplicative rfl

/-- Numbering an expression whose names are known, wherever its parts stand. -/
theorem intern_of_numbered {names : NameTable} {t e₀ : OrdinaryExpr String}
    {e : OrdinaryExpr NameId} (h : t.Numbered names e) (h₀ : e₀.withoutPlaces = t.withoutPlaces) :
    (e₀.intern names).2 = names ∧ (e₀.intern names).1.withoutPlaces = e.withoutPlaces := by
  induction h generalizing e₀ with
  | constant =>
      cases e₀ <;> cases h₀
      exact ⟨rfl, rfl⟩
  | symbol _ _ hfind =>
      cases e₀ <;> cases h₀
      simp [OrdinaryExpr.intern, NameTable.insert_of_find? hfind, OrdinaryExpr.withoutPlaces]
  | negate _ _ _ ih =>
      cases e₀ <;> simp only [OrdinaryExpr.withoutPlaces, OrdinaryExpr.negate.injEq,
        reduceCtorEq] at h₀
      simp [OrdinaryExpr.intern, OrdinaryExpr.withoutPlaces, ih h₀.1]
  | binary op _ _ _ _ ihl ihr =>
      cases e₀ <;> simp only [OrdinaryExpr.withoutPlaces, OrdinaryExpr.binary.injEq,
        reduceCtorEq] at h₀
      obtain ⟨rfl, hl, hr, -⟩ := h₀
      simp [OrdinaryExpr.intern, OrdinaryExpr.withoutPlaces, ihl hl, ihr hr]

/-- A piece is read as an expression exactly if its whole text is a sum, and every derivation gives
the expression that is read: the parts are joined from the left, a plus sign in front leaves no
trace, and symbols are known in capital letters. An expression whose constants are not negative and
whose symbols are known symbol names in capital letters is read back when it is written with all
its parentheses, and no name is learned. -/
theorem internExpr_grammar (names : NameTable) (p : Piece) :
    ((∃ e, (internExpr names p).1 = .ok e) ↔ ∃ t, IsSum p.text t) ∧
      (∀ t, IsSum p.text t →
        ∃ e, (internExpr names p).1 = .ok e ∧ t.Numbered (internExpr names p).2 e) ∧
      ∀ e, Writable names e → p.text = written names e →
        ∃ e', internExpr names p = (.ok e', names) ∧ e'.withoutPlaces = e.withoutPlaces := by
  have hread (t : OrdinaryExpr String) (h : IsSum p.text t) :
      ∃ e, (internExpr names p).1 = .ok e ∧ t.Numbered (internExpr names p).2 e := by
    obtain ⟨e, hread, he⟩ := h.readExpr_eq
    obtain ⟨-, hplain⟩ := h.read stopsProduct_nil p.stop {}
    refine ⟨(e.intern names).1, by simp [internExpr, hread], ?_⟩
    simpa [internExpr, hread] using OrdinaryExpr.numbered_intern (he.trans hplain.symm) names
  refine ⟨⟨fun ⟨e, h⟩ => ?_, fun ⟨t, h⟩ => ?_⟩, hread, fun e hwritable heq => ?_⟩
  · cases hexpr : readExpr p with
    | error seen => simp [internExpr, hexpr] at h
    | ok e => exact ⟨_, readExpr_derives hexpr⟩
  · obtain ⟨e, he, -⟩ := hread t h
    exact ⟨e, he⟩
  · obtain ⟨t, ht, hnumbered⟩ := isPrimary_written hwritable
    have hsum : IsSum p.text t := heq ▸ .product (.factor (.primary ht))
    obtain ⟨e₀, hexpr, he₀⟩ := hsum.readExpr_eq
    obtain ⟨-, hplain⟩ := hsum.read stopsProduct_nil p.stop {}
    obtain ⟨hnames, hsame⟩ := intern_of_numbered hnumbered (he₀.trans hplain.symm)
    refine ⟨(e₀.intern names).1, ?_, hsame⟩
    simp [internExpr, hexpr, hnames]

/-- `(A*(-2))`, if `A` is the first name. -/
def productOverA : OrdinaryExpr NameId :=
  .binary .mul (.symbol ⟨0⟩ {}) (.negate (.constant 2 {}) {}) {}

theorem internExpr_productOverA :
    Writable (.ofList ["A"]) productOverA ∧
      ∃ t e, IsSum "(A*(-2))".toList t ∧
        internExpr (.ofList ["A"]) ⟨{}, "(A*(-2))".toList⟩ = (.ok e, .ofList ["A"]) ∧
        t.Numbered (.ofList ["A"]) e ∧ e.withoutPlaces = productOverA := by
  have hname : ∀ c ∈ "A".toList, Text.isNameChar c ∧ ¬ c.isDigit := by
    simp
    decide
  have hwritable : Writable (.ofList ["A"]) productOverA :=
    ⟨⟨"A", by decide, by decide +kernel, by decide, fun c hc => (hname c hc).1,
      fun c hc => (hname c (List.mem_of_mem_head? hc)).2⟩, show (0 : Int32) ≤ 2 by decide⟩
  obtain ⟨t, ht, -⟩ := isPrimary_written hwritable
  have htext : written (.ofList ["A"]) productOverA = "(A*(-2))".toList := by decide +kernel
  have hsum : IsSum "(A*(-2))".toList t := htext ▸ .product (.factor (.primary ht))
  obtain ⟨-, hread, hwritten⟩ := internExpr_grammar (.ofList ["A"]) ⟨{}, "(A*(-2))".toList⟩
  obtain ⟨e, he, hsame⟩ := hwritten productOverA hwritable htext.symm
  obtain ⟨e', he', hnumbered⟩ := hread t hsum
  rw [he] at he' hnumbered
  cases he'
  exact ⟨hwritable, t, e, hsum, he, hnumbered, hsame⟩

end MacroAssembler.Field
