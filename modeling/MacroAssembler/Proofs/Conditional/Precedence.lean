import MacroAssembler.Conditional.Terms

/-!
# Grouping by priority

Terms spell an expression exactly if they are signed operands with binary operators between them,
once the words of one operator are joined. The expression has its operators and operands in the
order of the terms, and it is grouped as the priorities in the table of the domain ask
(`ofTerms_grouped`).
-/

namespace MacroAssembler.Conditional

/-! ## The rows of a table -/

namespace Domain

variable {d : Domain} {w : String} {entry : OperatorEntry}

/-- The priority that the table of a domain gives an operator. -/
def priority (d : Domain) (op : Operator) : Nat :=
  ((d.operators.find? (·.op == op)).map (·.priority)).getD 0

/-- A table has one row for each of its operators. -/
theorem priority_of_entry (h : d.entry? w = some entry) : d.priority entry.op = entry.priority := by
  have hrows : ∀ entry ∈ d.operators, d.priority entry.op = entry.priority := by
    cases d <;> decide
  exact hrows entry (List.mem_of_find?_eq_some h)

theorem unary?_eq_some_iff :
    d.unary? w = some entry ↔ d.entry? w = some entry ∧ entry.arity = .unary := by
  simp [unary?, Option.filter_eq_some_iff]

theorem binary?_eq_some_iff :
    d.binary? w = some entry ↔ d.entry? w = some entry ∧ entry.arity = .binary := by
  simp [binary?, Option.filter_eq_some_iff]

end Domain

/-! ## Rows of terms -/

/-- Unary operators and the operand that they stand in front of. -/
inductive Signed (d : Domain) : List Term → Prop where
  | operand (e : Expr) : Signed d [.operand e]
  | unary {w : String} (r : Range) {rest : List Term} : (d.unary? w).isSome → Signed d rest →
      Signed d (.word w r :: rest)

/-- Signed operands with one binary operator between each two of them. -/
inductive Alternates (d : Domain) : List Term → Prop where
  | signed {terms : List Term} : Signed d terms → Alternates d terms
  | binary {terms : List Term} {w : String} (r : Range) {rest : List Term} : Signed d terms →
      (d.binary? w).isSome → Alternates d rest → Alternates d (terms ++ .word w r :: rest)

/-- What can stand behind an operand: nothing, or a binary operator with its right side. -/
def Continues (d : Domain) (terms : List Term) : Prop :=
  terms = [] ∨ ∃ w r rest, terms = .word w r :: rest ∧ (d.binary? w).isSome ∧ Alternates d rest

namespace Alternates

variable {d : Domain} {w : String} {terms rest : List Term}

/-- A unary operator applies to what it stands in front of. -/
theorem unary (r : Range) (hw : (d.unary? w).isSome) (h : Alternates d rest) :
    Alternates d (.word w r :: rest) := by
  cases h with
  | signed hsigned => exact .signed (.unary r hw hsigned)
  | binary r' hsigned hbinary hrest => exact .binary r' (.unary r hw hsigned) hbinary hrest

/-- Two rows can be joined by a binary operator. -/
theorem append (r : Range) (h : Alternates d terms) (hw : (d.binary? w).isSome)
    (hrest : Alternates d rest) : Alternates d (terms ++ .word w r :: rest) := by
  induction h with
  | signed hsigned => exact .binary r hsigned hw hrest
  | binary r' hsigned hbinary _ ih =>
      rw [List.append_assoc, List.cons_append]
      exact .binary r' hsigned hbinary ih

/-- A row starts with an operand or with a unary operator. -/
theorem starts (h : Alternates d terms) :
    (∃ e rest, terms = .operand e :: rest ∧ Continues d rest) ∨
      ∃ w r rest, terms = .word w r :: rest ∧ (d.unary? w).isSome ∧ Alternates d rest := by
  cases h with
  | signed hsigned =>
      cases hsigned with
      | operand e => exact .inl ⟨e, [], rfl, .inl rfl⟩
      | unary r hw hrest => exact .inr ⟨_, r, _, rfl, hw, .signed hrest⟩
  | binary r hsigned hbinary hrest =>
      cases hsigned with
      | operand e => exact .inl ⟨e, _, rfl, .inr ⟨_, r, _, rfl, hbinary, hrest⟩⟩
      | unary r' hw hsigned' => exact .inr ⟨_, r', _, rfl, hw, .binary r hsigned' hbinary hrest⟩

end Alternates

/-! ## Expressions in the order of reading -/

/-- An operand, or an operator with the number of operands it takes. -/
inductive Symbol where
  | operand (e : Expr)
  | unary (op : Operator)
  | binary (op : Operator)

/-- What a term stands for. A word that the table of the domain does not have stands for
nothing. -/
def Term.symbol? (d : Domain) : Term → Option Symbol
  | operand e => some (.operand e)
  | word w _ => (d.entry? w).map fun entry =>
      match entry.arity with
      | .unary => .unary entry.op
      | .binary => .binary entry.op

namespace Expr

/-- No operator stands at the root of the expression. -/
def IsLeaf : Expr → Prop
  | unary .. => False
  | binary .. => False
  | _ => True

/-- The operators and operands of an expression from left to right. -/
def symbols : Expr → List Symbol
  | unary op e _ => .unary op :: e.symbols
  | binary op l r _ => l.symbols ++ .binary op :: r.symbols
  | e => [.operand e]

/-- The binary operators that are not below a unary one. -/
def topOperators : Expr → List Operator
  | binary op l r _ => l.topOperators ++ op :: r.topOperators
  | _ => []

/-- The unary operators whose operand reaches to the right end. -/
def rightUnaries : Expr → List Operator
  | unary op e _ => op :: e.rightUnaries
  | binary _ _ r _ => r.rightUnaries
  | _ => []

/-- The expression is grouped by the priorities of its operators. What a binary operator takes on
its right binds tighter than it does, what it takes on its left at least as tight, and no unary
operator on its left could have taken more. -/
def Grouped (d : Domain) : Expr → Prop
  | unary op e _ => (∀ o ∈ e.topOperators, d.priority op ≤ d.priority o) ∧ e.Grouped d
  | binary op l r _ =>
      (∀ o ∈ r.topOperators, d.priority op < d.priority o) ∧
        (∀ o ∈ l.topOperators, d.priority op ≤ d.priority o) ∧
        (∀ u ∈ l.rightUnaries, d.priority op < d.priority u) ∧ l.Grouped d ∧ r.Grouped d
  | _ => True

theorem IsLeaf.shape {e : Expr} (h : e.IsLeaf) (d : Domain) :
    e.symbols = [.operand e] ∧ e.topOperators = [] ∧ e.rightUnaries = [] ∧ e.Grouped d := by
  cases e with
  | unary | binary => exact h.elim
  | number | text | reference | call => exact ⟨rfl, rfl, rfl, trivial⟩

end Expr

/-- The terms spell the expression: they are a row of operands and operators, the expression has
these in the same order, and it is grouped by priority. -/
structure Spells (d : Domain) (terms : List Term) (e : Expr) : Prop where
  alternates : Alternates d terms
  symbols : terms.map (Term.symbol? d) = e.symbols.map some
  grouped : e.Grouped d

namespace Spells

variable {d : Domain} {w : String} {entry : OperatorEntry} {terms rest : List Term} {e e' : Expr}

theorem operand (h : e.IsLeaf) : Spells d [.operand e] e := by
  obtain ⟨hsymbols, -, -, hgrouped⟩ := h.shape d
  exact ⟨.signed (.operand e), by simp [Term.symbol?, hsymbols], hgrouped⟩

theorem unary (r range : Range) (hw : d.unary? w = some entry) (h : Spells d rest e)
    (htop : ∀ o ∈ e.topOperators, entry.priority ≤ d.priority o) :
    Spells d (.word w r :: rest) (.unary entry.op e range) := by
  obtain ⟨hentry, harity⟩ := Domain.unary?_eq_some_iff.1 hw
  refine ⟨h.alternates.unary r (by simp [hw]), ?_, ?_, h.grouped⟩
  · simp [Term.symbol?, hentry, harity, Expr.symbols, h.symbols]
  · rwa [Domain.priority_of_entry hentry]

theorem binary (r range : Range) (hw : d.binary? w = some entry) (h : Spells d terms e)
    (h' : Spells d rest e') (hright : ∀ o ∈ e'.topOperators, entry.priority < d.priority o)
    (hleft : ∀ o ∈ e.topOperators, entry.priority ≤ d.priority o)
    (hspine : ∀ u ∈ e.rightUnaries, entry.priority < d.priority u) :
    Spells d (terms ++ .word w r :: rest) (.binary entry.op e e' range) := by
  obtain ⟨hentry, harity⟩ := Domain.binary?_eq_some_iff.1 hw
  refine ⟨h.alternates.append r (by simp [hw]) h'.alternates, ?_, ?_⟩
  · simp [Term.symbol?, hentry, harity, Expr.symbols, h.symbols, h'.symbols]
  · rw [← Domain.priority_of_entry hentry] at hright hleft hspine
    exact ⟨hright, hleft, hspine, h.grouped, h'.grouped⟩

end Spells

/-! ## What is read -/

/-- The priority of the binary operator that terms start with. -/
def nextPriority? (d : Domain) : List Term → Option Nat
  | .word w _ :: _ => (d.binary? w).map (·.priority)
  | _ => none

/-- No unary operator at the right end of the expression takes what comes next. -/
def SetOff (d : Domain) (e : Expr) (after : List Term) : Prop :=
  ∀ q ∈ nextPriority? d after, ∀ u ∈ e.rightUnaries, q < d.priority u

/-- Reading has taken an expression of operators of at least the given priority off the terms, and
none of these is next. -/
structure Takes (d : Domain) (priority : Nat) (front terms : List Term) (e : Expr)
    (after : List Term) : Prop where
  spells : ∃ taken, terms = taken ++ after ∧ Spells d (front ++ taken) e
  top : ∀ o ∈ e.topOperators, priority ≤ d.priority o
  next : ∀ q ∈ nextPriority? d after, q < priority
  setOff : SetOff d e after

variable {d : Domain} {last : Range}

/-- An operator between two sides is of the lowest priority at the top of the expression if none is
of a lower one at the top of the left side, and all are of higher ones at the top of the right
side. -/
theorem top_binary {op : Operator} {left right : Expr} {priority : Nat} (range : Range)
    (hop : d.priority op = priority) (hleft : ∀ o ∈ left.topOperators, priority ≤ d.priority o)
    (hright : ∀ o ∈ right.topOperators, priority + 1 ≤ d.priority o) :
    ∀ o ∈ (Expr.binary op left right range).topOperators, priority ≤ d.priority o := by
  intro o ho
  rcases List.mem_append.1 ho with ho | ho
  · exact hleft o ho
  · rcases List.mem_cons.1 ho with rfl | ho
    · exact Nat.le_of_eq hop.symm
    · exact Nat.le_of_succ_le (hright o ho)

mutual
/-- An operand that is read has no binary operator at its top. -/
theorem readOperand_spells {terms after : List Term} {e : Expr} {hlt : after.length < terms.length}
    (hleaf : ∀ e, .operand e ∈ terms → e.IsLeaf)
    (h : readOperand d last terms = .ok ⟨(e, after), hlt⟩) :
    (∃ taken, terms = taken ++ after ∧ Spells d taken e) ∧ e.topOperators = [] ∧
      SetOff d e after := by
  match terms with
  | [] => simp [readOperand] at h
  | .operand e' :: rest =>
      rw [readOperand] at h
      cases h
      have hleaf' := hleaf e (by simp)
      obtain ⟨-, htop, hspine, -⟩ := hleaf'.shape d
      exact ⟨⟨[.operand e], rfl, .operand hleaf'⟩, htop, by simp [SetOff, hspine]⟩
  | .word w r :: rest =>
      rw [readOperand] at h
      cases hw : d.unary? w with
      | none => simp [hw] at h
      | some entry =>
          simp only [hw] at h
          cases hread : readExpr d last entry.priority rest with
          | error err => simp [hread] at h
          | ok found =>
              obtain ⟨⟨e', after'⟩, hlt'⟩ := found
              simp only [hread] at h
              cases h
              obtain ⟨⟨taken, heq, hspells⟩, htop, hnext, hsetOff⟩ :=
                readExpr_takes (fun e he => hleaf e (List.mem_cons_of_mem _ he)) hread
              refine ⟨⟨.word w r :: taken, by rw [heq, List.cons_append],
                .unary r _ hw hspells htop⟩, rfl, fun q hq u hu => ?_⟩
              -- what comes next is of lower priority than this operator, and than those below it
              rcases List.mem_cons.1 hu with rfl | hu
              · rw [Domain.priority_of_entry (Domain.unary?_eq_some_iff.1 hw).1]
                exact hnext q hq
              · exact hsetOff q hq u hu
  termination_by (terms.length, 0)

/-- An expression that is read is grouped by priority. -/
theorem readExpr_takes {priority : Nat} {terms after : List Term} {e : Expr}
    {hlt : after.length < terms.length} (hleaf : ∀ e, .operand e ∈ terms → e.IsLeaf)
    (h : readExpr d last priority terms = .ok ⟨(e, after), hlt⟩) :
    Takes d priority [] terms e after := by
  rw [readExpr] at h
  cases hread : readOperand d last terms with
  | error err => simp [hread] at h
  | ok found =>
      obtain ⟨⟨left, after'⟩, hlt'⟩ := found
      simp only [hread] at h
      obtain ⟨⟨taken, heq, hspells⟩, htop, hsetOff⟩ := readOperand_spells hleaf hread
      have hshorter : after'.length < terms.length := hlt'
      cases hmore : extend d last priority left after' with
      | error err => simp [hmore] at h
      | ok found =>
          obtain ⟨⟨e', after''⟩, hlt''⟩ := found
          simp only [hmore] at h
          cases h
          have hleaf' : ∀ e, .operand e ∈ after' → e.IsLeaf :=
            fun e he => hleaf e (heq ▸ List.mem_append_right _ he)
          obtain ⟨⟨more, heq', hspells'⟩, htop', hnext, hsetOff'⟩ :=
            extend_takes hleaf' hspells (by simp [htop]) (by simp [htop]) hsetOff hmore
          exact ⟨⟨taken ++ more, by rw [heq, heq', List.append_assoc], hspells'⟩, htop', hnext,
            hsetOff'⟩
  termination_by (terms.length, 2)

/-- What is added to an expression keeps it grouped by priority: `front` is what spells the
expression before, and the next operator can take it as its left side. -/
theorem extend_takes {priority : Nat} {front terms after : List Term} {left e : Expr}
    {hlt : after.length < terms.length + 1} (hleaf : ∀ e, .operand e ∈ terms → e.IsLeaf)
    (hfront : Spells d front left) (htop : ∀ o ∈ left.topOperators, priority ≤ d.priority o)
    (hnext : ∀ q ∈ nextPriority? d terms, ∀ o ∈ left.topOperators, q ≤ d.priority o)
    (hsetOff : SetOff d left terms)
    (h : extend d last priority left terms = .ok ⟨(e, after), hlt⟩) :
    Takes d priority front terms e after := by
  match terms with
  | [] =>
      rw [extend] at h
      · cases h
        exact ⟨⟨[], rfl, by simpa using hfront⟩, htop, by simp [nextPriority?], hsetOff⟩
      · simp
  | .operand e' :: rest =>
      rw [extend] at h
      · cases h
        exact ⟨⟨[], rfl, by simpa using hfront⟩, htop, by simp [nextPriority?], hsetOff⟩
      · simp
  | .word w r :: rest =>
      rw [extend] at h
      cases hw : (d.binary? w).filter fun entry => priority ≤ entry.priority with
      | none =>
          simp only [hw] at h
          cases h
          refine ⟨⟨[], rfl, by simpa using hfront⟩, htop, fun q hq => ?_, hsetOff⟩
          obtain ⟨entry, hentry, rfl⟩ := Option.map_eq_some_iff.1 hq
          simpa [hentry, Option.filter_some] using hw
      | some entry =>
          obtain ⟨hentry, hle⟩ := Option.filter_eq_some_iff.1 hw
          have hle : priority ≤ entry.priority := by simpa using hle
          simp only [hw] at h
          cases hread : readExpr d last (entry.priority + 1) rest with
          | error err => simp [hread] at h
          | ok found =>
              obtain ⟨⟨right, after'⟩, hlt'⟩ := found
              simp only [hread] at h
              have hshorter : after'.length < rest.length := hlt'
              have hleaf' : ∀ e, .operand e ∈ rest → e.IsLeaf :=
                fun e he => hleaf e (List.mem_cons_of_mem _ he)
              obtain ⟨⟨taken, heq, hspells⟩, htop', hnext', hsetOff'⟩ := readExpr_takes hleaf' hread
              have hhead : entry.priority ∈ nextPriority? d (.word w r :: rest) := by
                simp [nextPriority?, hentry]
              have hleft : ∀ o ∈ left.topOperators, entry.priority ≤ d.priority o :=
                hnext _ hhead
              have hop : d.priority entry.op = entry.priority :=
                Domain.priority_of_entry (Domain.binary?_eq_some_iff.1 hentry).1
              cases hmore : extend d last priority
                  (.binary entry.op left right (left.range.join right.range)) after' with
              | error err => simp [hmore] at h
              | ok found =>
                  obtain ⟨⟨e', after''⟩, hlt''⟩ := found
                  simp only [hmore] at h
                  cases h
                  have hwhole := hfront.binary r (left.range.join right.range) hentry hspells htop'
                    hleft (hsetOff _ hhead)
                  -- the operator and both its sides can be the left side of the next one
                  have htops := top_binary (left.range.join right.range) hop hleft htop'
                  obtain ⟨⟨more, heq', hspells'⟩, htop'', hnext'', hsetOff''⟩ :=
                    extend_takes (fun e he => hleaf' e (heq ▸ List.mem_append_right _ he)) hwhole
                      (fun o ho => Nat.le_trans hle (htops o ho))
                      (fun q hq o ho => Nat.le_trans (Nat.le_of_lt_succ (hnext' q hq)) (htops o ho))
                      hsetOff' hmore
                  refine ⟨⟨.word w r :: (taken ++ more), ?_, ?_⟩, htop'', hnext'', hsetOff''⟩
                  · rw [heq, heq', ← List.append_assoc, List.cons_append]
                  · rwa [List.append_assoc] at hspells'
  termination_by (terms.length, 1)
end

/-! ## What can be read -/

mutual
/-- A row of operands and operators has an operand in front. -/
theorem readOperand_ok (last : Range) {terms : List Term} (h : Alternates d terms) :
    ∃ e after hlt, readOperand d last terms = .ok ⟨(e, after), hlt⟩ ∧ Continues d after := by
  rcases h.starts with ⟨e, rest, rfl, hrest⟩ | ⟨w, r, rest, rfl, hw, hrest⟩
  · exact ⟨e, rest, _, by rw [readOperand], hrest⟩
  · obtain ⟨entry, hentry⟩ := Option.isSome_iff_exists.1 hw
    obtain ⟨e, after, hlt, hread, hafter⟩ := readExpr_ok last entry.priority hrest
    exact ⟨_, after, _, by rw [readOperand, hentry]; dsimp only; rw [hread], hafter⟩
  termination_by (terms.length, 0)

/-- A row of operands and operators has an expression in front. -/
theorem readExpr_ok (last : Range) (priority : Nat) {terms : List Term} (h : Alternates d terms) :
    ∃ e after hlt, readExpr d last priority terms = .ok ⟨(e, after), hlt⟩ ∧ Continues d after := by
  obtain ⟨left, after, hlt, hread, hafter⟩ := readOperand_ok last h
  have hshorter : after.length < terms.length := hlt
  obtain ⟨e, after', hlt', hmore, hafter'⟩ := extend_ok last priority left hafter
  exact ⟨e, after', _, by rw [readExpr, hread]; dsimp only; rw [hmore], hafter'⟩
  termination_by (terms.length, 2)

/-- What can stand behind an operand can be added to an expression. -/
theorem extend_ok (last : Range) (priority : Nat) (left : Expr) {terms : List Term}
    (h : Continues d terms) :
    ∃ e after hlt, extend d last priority left terms = .ok ⟨(e, after), hlt⟩ ∧
      Continues d after := by
  match terms with
  | [] => exact ⟨left, [], _, by rw [extend]; simp, .inl rfl⟩
  | t :: rest =>
      obtain ⟨w, r, rest, heq, hw, hrest⟩ := h.resolve_left (List.cons_ne_nil _ _)
      obtain ⟨rfl, rfl⟩ := List.cons.inj heq
      cases hfilter : (d.binary? w).filter fun entry => priority ≤ entry.priority with
      | none =>
          exact ⟨left, .word w r :: rest, _, by rw [extend, hfilter], h⟩
      | some entry =>
          obtain ⟨right, after, hlt, hread, hafter⟩ :=
            readExpr_ok last (entry.priority + 1) hrest
          have hshorter : after.length < rest.length := hlt
          obtain ⟨e, after', hlt', hmore, hafter'⟩ := extend_ok last priority
            (.binary entry.op left right (left.range.join right.range)) hafter
          have hbound : after'.length < (Term.word w r :: rest).length + 1 := by
            simp only [List.length_cons] at hlt' ⊢
            omega
          refine ⟨e, after', hbound, ?_, hafter'⟩
          rw [extend, hfilter]
          dsimp only
          rw [hread]
          dsimp only
          rw [hmore]
  termination_by (terms.length, 1)
end

/-- Joining words leaves the operands as they are. -/
theorem Term.mem_of_mem_merge {terms : List Term} {e : Expr} (h : .operand e ∈ merge d terms) :
    .operand e ∈ terms := by
  have hafter (last : Term) (rest : List Term) (h : .operand e ∈ mergeAfter d last rest) :
      .operand e ∈ last :: rest := by
    induction rest generalizing last with
    | nil => exact h
    | cons t rest ih =>
        unfold mergeAfter at h
        split at h
        · rename_i both hjoined
          rcases List.mem_cons.1 (ih both h) with rfl | hmem
          · -- what is joined is a word
            unfold joined? at hjoined
            split at hjoined
            · dsimp only at hjoined
              split at hjoined <;> simp at hjoined
            · simp at hjoined
          · exact List.mem_cons_of_mem _ (List.mem_cons_of_mem _ hmem)
        · rcases List.mem_cons.1 h with rfl | h
          · exact List.mem_cons_self
          · exact List.mem_cons_of_mem _ (ih t h)
  cases terms with
  | nil => exact h
  | cons t rest => exact hafter t rest h

/-- Terms whose operands are leaves spell an expression exactly if, with the words of one operator
joined, they are signed operands with binary operators between them. The expression has the
operators and operands of these terms in their order, and is grouped by the priorities of the
domain. -/
theorem ofTerms_grouped (d : Domain) (terms : List Term)
    (hleaf : ∀ e, .operand e ∈ terms → e.IsLeaf) :
    ((∃ e, Expr.ofTerms d terms = .ok e) ↔ Alternates d (Term.merge d terms)) ∧
      ∀ e, Expr.ofTerms d terms = .ok e →
        (Term.merge d terms).map (Term.symbol? d) = e.symbols.map some ∧ e.Grouped d := by
  have hleaf' : ∀ e, .operand e ∈ Term.merge d terms → e.IsLeaf :=
    fun e he => hleaf e (Term.mem_of_mem_merge he)
  unfold Expr.ofTerms
  dsimp only
  generalize ((Term.merge d terms).getLast?.map Term.range).getD {} = last
  generalize Term.merge d terms = merged at hleaf'
  have hspells {e : Expr} {hlt} (h : readExpr d last 0 merged = .ok ⟨(e, []), hlt⟩) :
      Spells d merged e := by
    obtain ⟨⟨taken, heq, hspells⟩, -⟩ := readExpr_takes hleaf' h
    rwa [heq, List.append_nil]
  refine ⟨⟨fun ⟨e, h⟩ => ?_, fun halternates => ?_⟩, fun e h => ?_⟩
  · split at h
    · simp at h
    · rename_i hread
      exact (hspells hread).alternates
    · simp at h
  · obtain ⟨e, after, hlt, hread, hafter⟩ := readExpr_ok last 0 halternates
    -- every operator has at least the priority 0, so none is left over
    obtain rfl : after = [] := by
      refine hafter.resolve_right ?_
      rintro ⟨w, r, rest, rfl, hw, -⟩
      obtain ⟨entry, hentry⟩ := Option.isSome_iff_exists.1 hw
      have hnext := (readExpr_takes hleaf' hread).next entry.priority
        (by simp [nextPriority?, hentry])
      exact Nat.not_lt_zero _ hnext
    exact ⟨e, by rw [hread]⟩
  · split at h
    · simp at h
    · rename_i hread
      cases h
      exact ⟨(hspells hread).symbols, (hspells hread).grouped⟩
    · simp at h

/-- `1 EQ NOT 2 and not 4`. -/
def negatedTerms : List Term :=
  [.operand (.number 1 {}), .word "EQ" {}, .word "NOT" {}, .operand (.number 2 {}),
    .word "and" {}, .word "not" {}, .operand (.number 4 {})]

theorem ofTerms_negatedTerms :
    (∀ e, .operand e ∈ negatedTerms → e.IsLeaf) ∧
      ∃ e, Expr.ofTerms .boolean negatedTerms = .ok e ∧ e.Grouped .boolean ∧
        e.symbols = [.operand (.number 1 {}), .binary .eq, .unary .not, .operand (.number 2 {}),
          .binary .andNot, .operand (.number 4 {})] := by
  have hleaf : ∀ e, .operand e ∈ negatedTerms → e.IsLeaf := by
    intro e he
    simp only [negatedTerms, List.mem_cons, Term.operand.injEq, reduceCtorEq, false_or,
      List.not_mem_nil, or_false] at he
    rcases he with rfl | rfl | rfl <;> trivial
  have hmerged : Term.merge .boolean negatedTerms =
      [.operand (.number 1 {}), .word "EQ" {}, .word "NOT" {}, .operand (.number 2 {}),
        .word "and not" {}, .operand (.number 4 {})] := by
    have heqNot : Domain.boolean.multipleWords "EQ NOT" = false := by decide +kernel
    have handNot : Domain.boolean.multipleWords "and not" = true := by decide +kernel
    simp [negatedTerms, Term.merge, Term.mergeAfter, Term.joined?, heqNot, handNot]
    decide
  have heq : Domain.boolean.entry? "EQ" = some ⟨.eq, .binary, 4⟩ := by decide +kernel
  have hnot : Domain.boolean.entry? "NOT" = some ⟨.not, .unary, 3⟩ := by decide +kernel
  have handNot : Domain.boolean.entry? "and not" = some ⟨.andNot, .binary, 2⟩ := by decide +kernel
  have hrow : Alternates .boolean (Term.merge .boolean negatedTerms) := by
    rw [hmerged]
    exact .binary {} (.operand _) (by simp [Domain.binary?, heq]) <|
      .binary {} (.unary {} (by simp [Domain.unary?, hnot]) (.operand _))
        (by simp [Domain.binary?, handNot]) <| .signed (.operand _)
  obtain ⟨hread, hgrouped⟩ := ofTerms_grouped .boolean negatedTerms hleaf
  obtain ⟨e, he⟩ := hread.2 hrow
  obtain ⟨hsymbols, hgrouped⟩ := hgrouped e he
  refine ⟨hleaf, e, he, hgrouped, ?_⟩
  rw [hmerged] at hsymbols
  refine (List.map_inj_right fun _ _ => Option.some.inj).1 (hsymbols.symm.trans ?_)
  simp [Term.symbol?, heq, hnot, handNot]

end MacroAssembler.Conditional
