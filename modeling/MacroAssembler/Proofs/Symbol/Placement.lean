import Mathlib
import MacroAssembler.Proofs.Symbol.Evaluation

/-!
# Values under a placement

An address says where something lies up to the start of the section and the lengths of the spaces
in front of it that are not known yet. A `Placement` fixes both, and then every value reads as a
word. Under every placement the value of an expression reads as the word that plain arithmetic
gives for the words that its symbols read as (`evaluate_reads`). So a number that comes out is the
same however the section is placed: what a placement adds to two addresses cancels in their
difference, it stays when an address is shifted, and every other operation refuses addresses.
-/

namespace MacroAssembler

/-! ## Plain arithmetic -/

/-- The result of an operation on integers. Division rounds toward zero, and division by zero gives
zero. -/
def ArithmeticOp.exact : ArithmeticOp → Int → Int → Int
  | add, l, r => l + r
  | sub, l, r => l - r
  | mul, l, r => l * r
  | div, l, r => l.tdiv r

/-- The value of an expression in which each name stands for a word: the exact result of every
operation, reduced to a word. -/
def OrdinaryExpr.wrapped {Name : Type} (words : Name → Option Int32) :
    OrdinaryExpr Name → Option Int32
  | constant i _ => some i
  | symbol name _ => words name
  | negate e _ => do
      let i ← e.wrapped words
      return .ofInt (-i.toInt)
  | binary op left right _ => do
      let i ← left.wrapped words
      let j ← right.wrapped words
      return .ofInt (op.exact i.toInt j.toInt)

/-- An operation on words is the exact one, reduced to a word. -/
theorem ArithmeticOp.ofInt_exact (op : ArithmeticOp) (l r : Int32) :
    .ofInt (op.exact l.toInt r.toInt) = op.apply l r := by
  cases op with
  | add => simp [exact, apply, Int32.ofInt_add]
  | sub => simp [exact, apply, Int32.ofInt_sub]
  | mul => simp [exact, apply, Int32.ofInt_mul]
  | div =>
      have hdiv : .ofInt (l.toInt.tdiv r.toInt) = l / r := by
        rw [Int32.ofInt_tdiv l.minValue_le_toInt l.toInt_le r.minValue_le_toInt r.toInt_le,
          Int32.ofInt_toInt, Int32.ofInt_toInt]
      by_cases hr : r = 0
      · subst hr
        simp [exact, apply]
      · simpa [exact, apply, hr] using hdiv

/-! ## Placements -/

/-- Where the section starts, and how long the spaces are whose lengths are not known. -/
structure Placement where
  base : Int
  length : SpaceId → Int

namespace Placement

variable (p : Placement) (t : SymbolTable)

/-- The length of a space, known or not. -/
def lengthOf (s : SpaceId) : Int :=
  match t.length? s with
  | some n => n.toInt
  | none => p.length s

/-- The word that an address is. -/
def place (a : Address) : Int32 :=
  .ofInt (p.base + a.offset.toInt + (a.spaces.map (p.lengthOf t)).sum)

/-- The word that a value reads as. -/
def reading : SymbolValue → Option Int32
  | .absolute i => some i
  | .relocatable a => some (p.place t a)
  | .undefined => none

variable {p t} {a b : Address} {l r v : SymbolValue} {i j : Int32}

/-- Adding the known lengths to the offset does not move an address. -/
theorem place_normalize : p.place t (t.normalize a) = p.place t a := by
  obtain ⟨offset, spaces⟩ := a
  have hsum : (spaces.filterMap t.length?).sum +
      .ofInt ((spaces.filter fun s => (t.length? s).isNone).map (p.lengthOf t)).sum =
        Int32.ofInt (spaces.map (p.lengthOf t)).sum := by
    induction spaces with
    | nil => rfl
    | cons s rest ih =>
        cases hs : t.length? s with
        | none => simp [lengthOf, hs, Int32.ofInt_add, ← ih]; ac_rfl
        | some n => simp [lengthOf, hs, Int32.ofInt_add, ← ih]; ac_rfl
  simp only [place, SymbolTable.normalize, Int32.ofInt_add, Int32.ofInt_toInt, ← hsum]
  ac_rfl

/-- A shift moves an address by as much. -/
theorem place_shift : p.place t (a.shift i) = p.place t a + i := by
  simp only [place, Address.shift, Int32.ofInt_add, Int32.ofInt_toInt]
  ac_rfl

/-- What a placement adds cancels in the difference of addresses with the same spaces. -/
theorem place_sub_place (h : a.sameSpaces b) : p.place t a - p.place t b = a.offset - b.offset := by
  have hsum : (a.spaces.map (p.lengthOf t)).sum = (b.spaces.map (p.lengthOf t)).sum :=
    ((List.isPerm_iff.1 h).map _).sum_eq
  calc p.place t a - p.place t b
      = .ofInt (a.offset.toInt - b.offset.toInt) := by
        rw [place, place, ← Int32.ofInt_sub, hsum]
        congr 1
        omega
    _ = a.offset - b.offset := by rw [Int32.ofInt_sub, Int32.ofInt_toInt, Int32.ofInt_toInt]

/-- The result of an operation on two values reads as the result on the words that they read
as. -/
theorem reading_combines {op : ArithmeticOp} (h : SymbolTable.Combines op l r v)
    (hl : p.reading t l = some i) (hr : p.reading t r = some j) :
    p.reading t v = some (op.apply i j) := by
  cases h with
  | numbers =>
      cases hl
      cases hr
      rfl
  | ahead =>
      cases hl
      cases hr
      exact congrArg some place_shift
  | behind =>
      cases hl
      cases hr
      exact congrArg some (place_shift.trans (Int32.add_comm _ _))
  | back =>
      cases hl
      cases hr
      exact congrArg some (place_shift.trans (Int32.sub_eq_add_neg _ _).symm)
  | distance hsame =>
      cases hl
      cases hr
      exact congrArg some (place_sub_place hsame).symm

/-- An expression with a value has a value in plain arithmetic, which is what the value reads
as. -/
theorem reading_evaluates {e : OrdinaryExpr NameId} (h : t.Evaluates e v) :
    ∃ i, p.reading t v = some i ∧ e.wrapped (fun n => p.reading t (t.valueOf n)) = some i := by
  induction h with
  | constant i => exact ⟨i, rfl, rfl⟩
  | number _ hvalue => exact ⟨_, rfl, by simp only [OrdinaryExpr.wrapped, hvalue]; rfl⟩
  | place _ hvalue =>
      refine ⟨_, rfl, ?_⟩
      simp only [OrdinaryExpr.wrapped, hvalue, place_normalize]
      rfl
  | @negate e i _ _ ih =>
      obtain ⟨i', hi, hwrapped⟩ := ih
      cases hi
      refine ⟨-i, rfl, ?_⟩
      simp [OrdinaryExpr.wrapped, hwrapped, Int32.ofInt_neg]
  | @binary op left right l r v _ _ _ hcombines ihl ihr =>
      obtain ⟨i, hi, hleft⟩ := ihl
      obtain ⟨j, hj, hright⟩ := ihr
      refine ⟨op.apply i j, reading_combines hcombines hi hj, ?_⟩
      simp [OrdinaryExpr.wrapped, hleft, hright, op.ofInt_exact]

end Placement

/-- If an expression has a value, then under every placement the value reads as the word that plain
arithmetic gives for the words that the symbols read as. A number is that word under every
placement. -/
theorem evaluate_reads (t : SymbolTable) (e : OrdinaryExpr NameId) (v : SymbolValue)
    (h : t.evaluate e = .ok v) :
    (∀ p : Placement, ∃ i, p.reading t v = some i ∧
      e.wrapped (fun n => p.reading t (t.valueOf n)) = some i) ∧
    ∀ i, v = .absolute i →
      ∀ p : Placement, e.wrapped (fun n => p.reading t (t.valueOf n)) = some i := by
  have hevaluates := SymbolTable.evaluate_eq_ok_iff.1 h
  refine ⟨fun p => p.reading_evaluates hevaluates, ?_⟩
  rintro i rfl p
  obtain ⟨j, hj, hwrapped⟩ := p.reading_evaluates hevaluates
  cases hj
  exact hwrapped

/-- Two labels behind storage whose length is not known. They are four bytes apart, and the offset
wraps between them. -/
def spreadTable : SymbolTable where
  symbols := [⟨⟨0⟩, .relocatable ⟨2147483644, [⟨0⟩]⟩, .storage none, {}⟩,
    ⟨⟨1⟩, .relocatable ⟨-2147483648, [⟨0⟩]⟩, .storage none, {}⟩]
  spaces := #[⟨.length, none⟩]

/-- Three times their distance. -/
def spreadExpr : OrdinaryExpr NameId :=
  .binary .mul (.binary .sub (.symbol ⟨1⟩ {}) (.symbol ⟨0⟩ {}) {}) (.constant 3 {}) {}

/-- The distance of the labels does not depend on the storage in front of them. -/
theorem spreadExpr_reads : spreadTable.evaluate spreadExpr = .ok (.absolute 12) ∧
    ∀ p : Placement,
      spreadExpr.wrapped (fun n => p.reading spreadTable (spreadTable.valueOf n)) = some 12 := by
  have hvalue : spreadTable.evaluate spreadExpr = .ok (.absolute 12) := by cbv
  exact ⟨hvalue, (evaluate_reads spreadTable spreadExpr _ hvalue).2 12 rfl⟩

end MacroAssembler
