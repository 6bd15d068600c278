import MacroAssembler.Conditional.Expr

/-!
# Expressions from terms

An operand of conditional assembly is first read as a flat list of terms, operands and words. The
operator table of the domain then decides which words are operators, and the priorities in it how
the terms nest. Two neighbouring words that form one operator are joined before.
-/

namespace MacroAssembler.Conditional

/-- An element of a flat expression: an operand that is read already, or a word that may be an
operator. -/
inductive Term where
  | operand (e : Expr)
  | word (text : String) (range : Range)

/-- Where a term stands. -/
def Term.range : Term → Range
  | operand e => e.range
  | word _ r => r

/-- Why a list of terms is no expression. -/
inductive TermError where
  /-- The terms end where an operand should stand. -/
  | missingOperand (range : Range)
  /-- A term stands where an operator should. -/
  | expectedOperator (range : Range)
  /-- A word stands where an operand should. -/
  | expectedOperand (word : String) (range : Range)

namespace TermError

/-- Where the fault lies. -/
def range : TermError → Range
  | missingOperand r => r
  | expectedOperator r => r
  | expectedOperand _ r => r

/-- The fault in words. -/
def message : TermError → String
  | missingOperand _ => "Expected an operand"
  | expectedOperator _ => "Expected an operator"
  | expectedOperand word _ => "Expected an operand but found " ++ word

end TermError

namespace Term

/-- Two words as one, if together they are an operator. -/
def joined? (d : Domain) : Term → Term → Option Term
  | word first r, word second s =>
      let words := first ++ " " ++ second
      if d.multipleWords words then some (word words (r.join s)) else none
  | _, _ => none

/-- The terms that follow `last`, with the words of one operator joined. -/
def mergeAfter (d : Domain) (last : Term) : List Term → List Term
  | [] => [last]
  | t :: rest =>
      match joined? d last t with
      | some both => mergeAfter d both rest
      | none => last :: mergeAfter d t rest

/-- The terms with the words of one operator joined. -/
def merge (d : Domain) : List Term → List Term
  | [] => []
  | t :: rest => mergeAfter d t rest

end Term

/-- An expression and the terms after it, of which there are fewer than `bound`. -/
abbrev Parsed (bound : Nat) := { p : Expr × List Term // p.2.length < bound }

mutual
/-- Read an operand: a term that is one, or a unary operator with the expression that follows up
to an operator of lower priority. -/
def readOperand (d : Domain) (last : Range) :
    (terms : List Term) → Except TermError (Parsed terms.length)
  | [] => .error (.missingOperand last)
  | .operand e :: rest => .ok ⟨(e, rest), by simp⟩
  | .word w r :: rest =>
      match d.unary? w with
      | none => .error (.expectedOperand w r)
      | some entry =>
          match readExpr d last entry.priority rest with
          | .error e => .error e
          | .ok ⟨(e, after), h⟩ =>
              .ok ⟨(.unary entry.op e (r.join e.range), after), by simp at h ⊢; omega⟩
  termination_by terms => (terms.length, 0)

/-- Read an operand and all that binary operators of at least the given priority add to it. -/
def readExpr (d : Domain) (last : Range) (priority : Nat) (terms : List Term) :
    Except TermError (Parsed terms.length) :=
  match readOperand d last terms with
  | .error e => .error e
  | .ok ⟨(left, after), h⟩ =>
      match extend d last priority left after with
      | .error e => .error e
      | .ok ⟨(e, after'), h'⟩ => .ok ⟨(e, after'), by simp at h h' ⊢; omega⟩
  termination_by (terms.length, 2)

/-- Add what binary operators of at least the given priority add to an expression. -/
def extend (d : Domain) (last : Range) (priority : Nat) (left : Expr) :
    (terms : List Term) → Except TermError (Parsed (terms.length + 1))
  | .word w r :: rest =>
      match (d.binary? w).filter fun entry => priority ≤ entry.priority with
      | none => .ok ⟨(left, .word w r :: rest), by simp⟩
      | some entry =>
          match readExpr d last (entry.priority + 1) rest with
          | .error e => .error e
          | .ok ⟨(right, after), h⟩ =>
              have shorter : after.length < rest.length := h
              let whole := Expr.binary entry.op left right (left.range.join right.range)
              match extend d last priority whole after with
              | .error e => .error e
              | .ok ⟨(e, after'), h'⟩ => .ok ⟨(e, after'), by simp at h' ⊢; omega⟩
  | terms => .ok ⟨(left, terms), by simp⟩
  termination_by terms => (terms.length, 1)
end

/-- The expression that a list of terms spells in a domain. -/
def Expr.ofTerms (d : Domain) (terms : List Term) : Except TermError Expr :=
  let merged := Term.merge d terms
  let last := (merged.getLast?.map Term.range).getD {}
  match readExpr d last 0 merged with
  | .error e => .error e
  | .ok ⟨(e, []), _⟩ => .ok e
  | .ok ⟨(_, t :: _), _⟩ => .error (.expectedOperator t.range)

end MacroAssembler.Conditional
