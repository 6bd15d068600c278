import MacroAssembler.Proofs.Field.Growth
import MacroAssembler.Symbol.Table

/-!
# Expressions and their places

An expression keeps the place of each of its parts, but its value does not depend on them. A text
that is read at another place gives the same expression with other places
(`readExpr_withoutPlaces`).
-/

namespace MacroAssembler

namespace OrdinaryExpr

variable {Name : Type}

/-- The expression without the places of its parts. -/
def withoutPlaces : OrdinaryExpr Name → OrdinaryExpr Name
  | constant v _ => constant v {}
  | symbol n _ => symbol n {}
  | negate e _ => negate e.withoutPlaces {}
  | binary op l r _ => binary op l.withoutPlaces r.withoutPlaces {}

/-- Places carry no names. -/
@[simp] theorem names_withoutPlaces (e : OrdinaryExpr Name) : e.withoutPlaces.names = e.names := by
  induction e with
  | constant | symbol => rfl
  | negate e _ ih => exact ih
  | binary op l r _ ihl ihr => simp [withoutPlaces, names, ihl, ihr]

/-- The second expression has the numbers of the names of the first. Places do not count. -/
inductive Numbered (t : NameTable) : OrdinaryExpr String → OrdinaryExpr NameId → Prop where
  | constant (v : Int32) (r r' : Range) : Numbered t (constant v r) (constant v r')
  | symbol {name : String} {id : NameId} (r r' : Range) : t.find? name = some id →
      Numbered t (symbol name r) (symbol id r')
  | negate {e e'} (r r' : Range) : Numbered t e e' → Numbered t (negate e r) (negate e' r')
  | binary {left right left' right'} (op : ArithmeticOp) (r r' : Range) :
      Numbered t left left' → Numbered t right right' →
      Numbered t (binary op left right r) (binary op left' right' r')

/-- Names keep their numbers. -/
theorem Numbered.grows {t t' : NameTable} {e : OrdinaryExpr String} {e' : OrdinaryExpr NameId}
    (h : e.Numbered t e') (hgrows : t.Grows t') : e.Numbered t' e' := by
  induction h with
  | constant v r r' => exact .constant v r r'
  | symbol r r' hfind => exact .symbol r r' (hgrows.find? hfind)
  | negate r r' _ ih => exact .negate r r' ih
  | binary op r r' _ _ ihl ihr => exact .binary op r r' ihl ihr

/-- Numbering the names of an expression that stands at other places. -/
theorem numbered_intern {e₀ e : OrdinaryExpr String} (h : e₀.withoutPlaces = e.withoutPlaces)
    (t : NameTable) : e.Numbered (e₀.intern t).2 (e₀.intern t).1 := by
  induction e₀ generalizing e t with
  | constant => cases e <;> cases h; exact .constant _ _ _
  | symbol => cases e <;> cases h; exact .symbol _ _ (t.find?_insert _)
  | negate e₀ _ ih =>
      cases e <;> simp only [withoutPlaces, negate.injEq, reduceCtorEq] at h
      exact .negate _ _ (ih h.1 t)
  | binary op l₀ r₀ _ ihl ihr =>
      cases e <;> simp only [withoutPlaces, binary.injEq, reduceCtorEq] at h
      obtain ⟨rfl, hl, hr, -⟩ := h
      exact .binary _ _ _ ((ihl hl t).grows (r₀.intern_grows _)) (ihr hr _)

end OrdinaryExpr

namespace SymbolTable

/-- An expression over names whose numbers are known has the value of the numbered one. -/
theorem evaluate_intern {names : NameTable} {e : OrdinaryExpr String} {e' : OrdinaryExpr NameId}
    (h : e.Numbered names e') (t : SymbolTable) :
    (e.intern names).2 = names ∧ t.evaluate (e.intern names).1 = t.evaluate e' := by
  induction h with
  | constant => exact ⟨rfl, rfl⟩
  | symbol _ _ hfind => simp [OrdinaryExpr.intern, NameTable.insert_of_find? hfind, evaluate]
  | negate _ _ _ ih => simp [OrdinaryExpr.intern, evaluate, ih]
  | binary op _ _ _ _ ihl ihr => simp [OrdinaryExpr.intern, evaluate, ihl, ihr]

end SymbolTable

namespace Field

/-- What was read, without places. -/
def viewRead {n : Nat} (x : Except (List String) (Read n)) :
    Except (List String) (OrdinaryExpr String × List Char) :=
  x.map fun r => (r.1.1.withoutPlaces, r.1.2)

section

variable {n m : Nat} {x : Except (List String) (Read n)} {y : Except (List String) (Read m)}

/-- Two readings that look the same both fail with the same names, or give the same expression and
the same text behind it. -/
theorem cases_of_viewRead (h : viewRead x = viewRead y) :
    (∃ names, x = .error names ∧ y = .error names) ∨
      ∃ e e' after hx hy, x = .ok ⟨(e, after), hx⟩ ∧ y = .ok ⟨(e', after), hy⟩ ∧
        e.withoutPlaces = e'.withoutPlaces := by
  cases x with
  | error names =>
      cases y with
      | error names' =>
          cases h
          exact .inl ⟨names, rfl, rfl⟩
      | ok => simp [viewRead, Except.map] at h
  | ok r =>
      cases y with
      | error => simp [viewRead, Except.map] at h
      | ok r' =>
          obtain ⟨⟨e, after⟩, hx⟩ := r
          obtain ⟨⟨e', after'⟩, hy⟩ := r'
          simp only [viewRead, Except.map, Except.ok.injEq, Prod.mk.injEq] at h
          obtain ⟨he, rfl⟩ := h
          exact .inr ⟨e, e', after, hx, hy, rfl, rfl, he⟩

end

/-- An atom reads the same at every place. -/
theorem viewRead_readAtom (stop stop' : Position) (cs : List Char) :
    viewRead (readAtom stop cs) = viewRead (readAtom stop' cs) := by
  unfold readAtom
  split
  · rfl
  · split
    · dsimp only
      split <;> simp [viewRead, Except.map, OrdinaryExpr.withoutPlaces]
    · split
      · simp [viewRead, Except.map, OrdinaryExpr.withoutPlaces]
      · split <;> simp [viewRead, Except.map, OrdinaryExpr.withoutPlaces]

/-- Expressions that differ in places only have the same names. -/
theorem names_eq_of_withoutPlaces {e e' : OrdinaryExpr String}
    (h : e.withoutPlaces = e'.withoutPlaces) : e.names = e'.names := by
  rw [← e.names_withoutPlaces, h, e'.names_withoutPlaces]

mutual
/-- A sum reads the same at every place. -/
theorem viewRead_readSum (stop stop' : Position) (cs : List Char) :
    viewRead (readSum stop cs) = viewRead (readSum stop' cs) := by
  rw [readSum, readSum]
  rcases cases_of_viewRead (viewRead_readProduct stop stop' cs) with
    ⟨names, hx, hy⟩ | ⟨e, e', after, hlt, hlt', hx, hy, he⟩ <;> rw [hx, hy]
  dsimp only
  have hshorter : after.length < cs.length := hlt
  rcases cases_of_viewRead (viewRead_extendSum stop stop' (placeOf stop cs) (placeOf stop' cs)
    e e' after he) with ⟨names, hx, hy⟩ | ⟨e, e', after, hlt, hlt', hx, hy, he⟩ <;> rw [hx, hy]
  simp [viewRead, Except.map, he]
  termination_by (cs.length, 5)

theorem viewRead_extendSum (stop stop' start start' : Position) (left left' : OrdinaryExpr String)
    (cs : List Char) (hleft : left.withoutPlaces = left'.withoutPlaces) :
    viewRead (extendSum stop start left cs) = viewRead (extendSum stop' start' left' cs) := by
  cases cs with
  | nil =>
      rw [extendSum, extendSum]
      simp [viewRead, Except.map, hleft]
  | cons c rest =>
      rw [extendSum, extendSum]
      cases hop : additive? c with
      | none => simp [viewRead, Except.map, hleft]
      | some op =>
          dsimp only
          rcases cases_of_viewRead (viewRead_readProduct stop stop' rest) with
            ⟨names, hx, hy⟩ | ⟨e, e', after, hlt, hlt', hx, hy, he⟩ <;> rw [hx, hy]
          · rw [names_eq_of_withoutPlaces hleft]
          · dsimp only
            have hshorter : after.length < rest.length := hlt
            have hwhole :
              (OrdinaryExpr.binary op left e ⟨start, placeOf stop after⟩).withoutPlaces =
                (OrdinaryExpr.binary op left' e' ⟨start', placeOf stop' after⟩).withoutPlaces := by
              simp [OrdinaryExpr.withoutPlaces, hleft, he]
            rcases cases_of_viewRead (viewRead_extendSum stop stop' start start' _ _ after hwhole)
              with ⟨names, hx, hy⟩ | ⟨e, e', after, hlt, hlt', hx, hy, he⟩ <;> rw [hx, hy]
            simp [viewRead, Except.map, he]
  termination_by (cs.length, 4)

theorem viewRead_readProduct (stop stop' : Position) (cs : List Char) :
    viewRead (readProduct stop cs) = viewRead (readProduct stop' cs) := by
  rw [readProduct, readProduct]
  rcases cases_of_viewRead (viewRead_readFactor stop stop' cs) with
    ⟨names, hx, hy⟩ | ⟨e, e', after, hlt, hlt', hx, hy, he⟩ <;> rw [hx, hy]
  dsimp only
  have hshorter : after.length < cs.length := hlt
  rcases cases_of_viewRead (viewRead_extendProduct stop stop' (placeOf stop cs) (placeOf stop' cs)
    e e' after he) with ⟨names, hx, hy⟩ | ⟨e, e', after, hlt, hlt', hx, hy, he⟩ <;> rw [hx, hy]
  simp [viewRead, Except.map, he]
  termination_by (cs.length, 3)

theorem viewRead_extendProduct (stop stop' start start' : Position)
    (left left' : OrdinaryExpr String) (cs : List Char)
    (hleft : left.withoutPlaces = left'.withoutPlaces) :
    viewRead (extendProduct stop start left cs) =
      viewRead (extendProduct stop' start' left' cs) := by
  cases cs with
  | nil =>
      rw [extendProduct, extendProduct]
      simp [viewRead, Except.map, hleft]
  | cons c rest =>
      rw [extendProduct, extendProduct]
      cases hop : multiplicative? c with
      | none => simp [viewRead, Except.map, hleft]
      | some op =>
          dsimp only
          rcases cases_of_viewRead (viewRead_readFactor stop stop' rest) with
            ⟨names, hx, hy⟩ | ⟨e, e', after, hlt, hlt', hx, hy, he⟩ <;> rw [hx, hy]
          · rw [names_eq_of_withoutPlaces hleft]
          · dsimp only
            have hshorter : after.length < rest.length := hlt
            have hwhole :
              (OrdinaryExpr.binary op left e ⟨start, placeOf stop after⟩).withoutPlaces =
                (OrdinaryExpr.binary op left' e' ⟨start', placeOf stop' after⟩).withoutPlaces := by
              simp [OrdinaryExpr.withoutPlaces, hleft, he]
            rcases cases_of_viewRead
              (viewRead_extendProduct stop stop' start start' _ _ after hwhole)
              with ⟨names, hx, hy⟩ | ⟨e, e', after, hlt, hlt', hx, hy, he⟩ <;> rw [hx, hy]
            simp [viewRead, Except.map, he]
  termination_by (cs.length, 2)

theorem viewRead_readFactor (stop stop' : Position) (cs : List Char) :
    viewRead (readFactor stop cs) = viewRead (readFactor stop' cs) := by
  unfold readFactor
  split
  · rename_i rest
    rcases cases_of_viewRead (viewRead_readFactor stop stop' rest) with
      ⟨names, hx, hy⟩ | ⟨e, e', after, hlt, hlt', hx, hy, he⟩ <;> rw [hx, hy]
    simp [viewRead, Except.map, he]
  · rename_i rest
    rcases cases_of_viewRead (viewRead_readFactor stop stop' rest) with
      ⟨names, hx, hy⟩ | ⟨e, e', after, hlt, hlt', hx, hy, he⟩ <;> rw [hx, hy]
    simp [viewRead, Except.map, OrdinaryExpr.withoutPlaces, he]
  · rename_i rest
    rcases cases_of_viewRead (viewRead_readSum stop stop' rest) with
      ⟨names, hx, hy⟩ | ⟨e, e', after, hlt, hlt', hx, hy, he⟩ <;> rw [hx, hy]
    dsimp only
    cases after with
    | nil => simp [viewRead, Except.map, names_eq_of_withoutPlaces he]
    | cons c after =>
        dsimp only
        split <;> simp [viewRead, Except.map, he, names_eq_of_withoutPlaces he]
  · exact viewRead_readAtom stop stop' cs
  termination_by (cs.length, 1)
end

/-- A piece spells the same expression at every place, or fails with the same names. -/
theorem readExpr_withoutPlaces {p q : Piece} (h : p.text = q.text) :
    (readExpr p).map OrdinaryExpr.withoutPlaces = (readExpr q).map OrdinaryExpr.withoutPlaces := by
  obtain ⟨start, text⟩ := p
  obtain ⟨start', text'⟩ := q
  obtain rfl : text = text' := h
  unfold readExpr
  rcases cases_of_viewRead (viewRead_readSum (Piece.stop ⟨start, text⟩) (Piece.stop ⟨start', text⟩)
    text) with
    ⟨names, hx, hy⟩ | ⟨e, e', after, hlt, hlt', hx, hy, he⟩ <;> rw [hx, hy]
  cases after with
  | nil => simp [Except.map, he]
  | cons c after => simp [Except.map, names_eq_of_withoutPlaces he]

end Field

end MacroAssembler
