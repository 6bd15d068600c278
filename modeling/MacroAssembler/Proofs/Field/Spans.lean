import MacroAssembler.Proofs.Field.Addresses
import MacroAssembler.Proofs.Field.IndexedExpression

/-!
# Expressions stand where their text does

Every part of an expression that is read has the columns of the characters that it was read from.
The reader by number shows it: what it reads between two numbers stands between them (`Between`), so
that symbols and constants cover what spells them, operations cover their operands, and nothing goes
beyond the text (`placed_of_read`). The parts of an address are read in slices of its text, and
stand where these slices do (`Between.shift`).
-/

namespace MacroAssembler

namespace OrdinaryExpr

variable {Name : Type}

/-- The expressions that an expression is directly made of. -/
def operands : OrdinaryExpr Name → List (OrdinaryExpr Name)
  | constant _ _ => []
  | symbol _ _ => []
  | negate e _ => [e]
  | binary _ left right _ => [left, right]

/-- The symbols and the constants of an expression, in the order of writing. -/
def leaves : OrdinaryExpr Name → List (OrdinaryExpr Name)
  | constant v r => [constant v r]
  | symbol n r => [symbol n r]
  | negate e _ => e.leaves
  | binary _ left right _ => left.leaves ++ right.leaves

/-- The expression and all expressions in it. -/
def parts : OrdinaryExpr Name → List (OrdinaryExpr Name)
  | constant v r => [constant v r]
  | symbol n r => [symbol n r]
  | negate e r => negate e r :: e.parts
  | binary op left right r => binary op left right r :: (left.parts ++ right.parts)

end OrdinaryExpr

namespace Field

variable {Name : Type} {stands : Name → String → Prop} {p q : Piece} {i j i' j' : Nat}
  {e : OrdinaryExpr Name} {word : List Char}

/-! ## Spelling -/

/-- The word is the name of the symbol, but for the case of its letters, or it is a decimal number
or a self-defining term with the value of the constant. -/
inductive Spells (stands : Name → String → Prop) : List Char → OrdinaryExpr Name → Prop where
  | symbol {word : List Char} {n : Name} (r : Range) : word ≠ [] → (∀ c ∈ word, Text.isNameChar c) →
      stands n (Text.upper (String.ofList word)) → Spells stands word (.symbol n r)
  | number {digits : List Char} (r : Range) : digits ≠ [] → (∀ c ∈ digits, c.isDigit) →
      Numeral.valueOf 10 digits ≤ 0x7FFFFFFF →
      Spells stands digits (.constant (Int32.ofNat (Numeral.valueOf 10 digits)) r)
  | selfDefining {kind : Char} {body : List Char} {value : Int32} (r : Range) : '\'' ∉ body →
      selfDefining? kind body = some value →
      Spells stands (kind :: '\'' :: (body ++ ['\''])) (.constant value r)

/-- The expression stands between two numbers of the characters of a piece: a symbol and a constant
where it is spelled, the operand of a sign and the operands of an operator where the operation
stands, and one operand in front of the other. -/
inductive Between (stands : Name → String → Prop) (p : Piece) :
    Nat → Nat → OrdinaryExpr Name → Prop where
  | leaf {i j a b : Nat} {word : List Char} {e : OrdinaryExpr Name} : i ≤ a → b ≤ j →
      slice? p.text a b = some word → Spells stands word e →
      e.range = ⟨p.start.right a, p.start.right b⟩ → Between stands p i j e
  | negate {i j a b : Nat} {e : OrdinaryExpr Name} : i ≤ a → b ≤ j → Between stands p a b e →
      Between stands p i j (.negate e ⟨p.start.right a, p.start.right b⟩)
  | binary {i j a m b : Nat} {left right : OrdinaryExpr Name} (op : ArithmeticOp) : i ≤ a → b ≤ j →
      Between stands p a m left → Between stands p m b right →
      Between stands p i j (.binary op left right ⟨p.start.right a, p.start.right b⟩)

/-! ## Slices -/

theorem slice?_eq_some {cs : List Char} {a b : Nat} (h : slice? cs a b = some word) :
    a ≤ b ∧ b ≤ cs.length ∧ (cs.drop a).take (b - a) = word := by
  unfold slice? at h
  split at h
  · rename_i hbounds
    exact ⟨hbounds.1, hbounds.2, Option.some.inj h⟩
  · cases h

/-- A slice of a slice. -/
theorem slice?_trans {cs cs' : List Char} {k a b : Nat}
    (h : slice? cs k (k + cs'.length) = some cs') (h' : slice? cs' a b = some word) :
    slice? cs (k + a) (k + b) = some word := by
  obtain ⟨-, hlength, hslice⟩ := slice?_eq_some h
  obtain ⟨hle, hle', rfl⟩ := slice?_eq_some h'
  rw [Nat.add_sub_cancel_left] at hslice
  rw [slice?, if_pos ⟨by omega, by omega⟩, ← hslice, List.drop_take, List.drop_drop, List.take_take]
  congr 2
  omega

namespace Between

theorem mono (h : Between stands p i j e) (hi : i' ≤ i) (hj : j ≤ j') :
    Between stands p i' j' e := by
  cases h with
  | leaf ha hb hslice hspells hrange =>
      exact .leaf (hi.trans ha) (hb.trans hj) hslice hspells hrange
  | negate ha hb h => exact .negate (hi.trans ha) (hb.trans hj) h
  | binary op ha hb hleft hright => exact .binary op (hi.trans ha) (hb.trans hj) hleft hright

/-- What stands in a slice of a piece stands in the piece. -/
theorem shift {k : Nat} (h : Between stands q i j e) (hstart : q.start = p.start.right k)
    (hslice : slice? p.text k (k + q.text.length) = some q.text) :
    Between stands p (k + i) (k + j) e := by
  have hright (a : Nat) : q.start.right a = p.start.right (k + a) := by
    rw [hstart, Position.right_right]
  induction h with
  | leaf ha hb hword hspells hrange =>
      rw [hright, hright] at hrange
      exact .leaf (by omega) (by omega) (slice?_trans hslice hword) hspells hrange
  | negate ha hb _ ih =>
      rw [hright, hright]
      exact .negate (by omega) (by omega) ih
  | binary op ha hb _ _ ihl ihr =>
      rw [hright, hright]
      exact .binary op (by omega) (by omega) ihl ihr

theorem exists_range (h : Between stands p i j e) :
    ∃ a b, i ≤ a ∧ a ≤ b ∧ b ≤ j ∧ e.range = ⟨p.start.right a, p.start.right b⟩ := by
  induction h with
  | leaf ha hb hslice _ hrange => exact ⟨_, _, ha, (slice?_eq_some hslice).1, hb, hrange⟩
  | negate ha hb _ ih =>
      obtain ⟨a', b', ha', hab, hb', -⟩ := ih
      exact ⟨_, _, ha, by omega, hb, rfl⟩
  | binary op ha hb _ _ ihl ihr =>
      obtain ⟨a', b', ha', hab, hb', -⟩ := ihl
      obtain ⟨a'', b'', ha'', hab', hb'', -⟩ := ihr
      exact ⟨_, _, ha, by omega, hb, rfl⟩

theorem le (h : Between stands p i j e) : i ≤ j := by
  obtain ⟨a, b, ha, hab, hb, -⟩ := h.exists_range
  omega

/-- Whatever is in an expression stands where the expression does. -/
theorem of_mem_parts (h : Between stands p i j e) : ∀ e' ∈ e.parts, Between stands p i j e' := by
  induction h with
  | @leaf i j a b word e ha hb hslice hspells hrange =>
      have hself : e.parts = [e] := by cases hspells <;> rfl
      rw [hself]
      simpa using .leaf ha hb hslice hspells hrange
  | negate ha hb h ih =>
      exact List.forall_mem_cons.2 ⟨.negate ha hb h, fun e' he' => (ih e' he').mono ha hb⟩
  | binary op ha hb hleft hright ihl ihr =>
      refine List.forall_mem_cons.2 ⟨.binary op ha hb hleft hright, fun e' he' => ?_⟩
      have hm := hleft.le
      have hm' := hright.le
      rcases List.mem_append.1 he' with he' | he'
      · exact (ihl e' he').mono ha (by omega)
      · exact (ihr e' he').mono (by omega) hb

/-- The leaves are spelled where they stand. -/
theorem of_mem_leaves (h : Between stands p i j e) : ∀ leaf ∈ e.leaves, ∃ a b word, i ≤ a ∧ b ≤ j ∧
    leaf.range = ⟨p.start.right a, p.start.right b⟩ ∧ slice? p.text a b = some word ∧
    Spells stands word leaf := by
  induction h with
  | @leaf i j a b word e ha hb hslice hspells hrange =>
      have hself : e.leaves = [e] := by cases hspells <;> rfl
      rw [hself]
      rintro leaf hleaf
      obtain rfl := List.mem_singleton.1 hleaf
      exact ⟨a, b, word, ha, hb, hrange, hslice, hspells⟩
  | negate ha hb _ ih =>
      intro leaf hleaf
      obtain ⟨a', b', word, ha', hb', hrest⟩ := ih leaf hleaf
      exact ⟨a', b', word, ha.trans ha', hb'.trans hb, hrest⟩
  | binary op ha hb hleft hright ihl ihr =>
      intro leaf hleaf
      have hm := hleft.le
      have hm' := hright.le
      rcases List.mem_append.1 hleaf with hleaf | hleaf
      · obtain ⟨a', b', word, ha', hb', hrest⟩ := ihl leaf hleaf
        exact ⟨a', b', word, by omega, by omega, hrest⟩
      · obtain ⟨a', b', word, ha', hb', hrest⟩ := ihr leaf hleaf
        exact ⟨a', b', word, by omega, by omega, hrest⟩

/-- A leaf ends where the next one starts, or in front of it. -/
theorem pairwise_leaves (h : Between stands p i j e) :
    e.leaves.Pairwise fun l l' => l.range.stop.column ≤ l'.range.start.column := by
  induction h with
  | @leaf i j a b word e _ _ _ hspells _ =>
      have hself : e.leaves = [e] := by cases hspells <;> rfl
      rw [hself]
      exact List.pairwise_singleton _ _
  | negate _ _ _ ih => exact ih
  | binary op _ _ hleft hright ihl ihr =>
      refine List.pairwise_append.2 ⟨ihl, ihr, fun l hl l' hl' => ?_⟩
      obtain ⟨a, b, _, -, hb, hrange, -⟩ := hleft.of_mem_leaves l hl
      obtain ⟨a', b', _, ha', -, hrange', -⟩ := hright.of_mem_leaves l' hl'
      rw [hrange, hrange']
      exact Nat.add_le_add_left (hb.trans ha') _

/-- An operation covers its operands. -/
theorem covers_operands (h : Between stands p i j e) : ∀ o ∈ e.operands,
    e.range.start.column ≤ o.range.start.column ∧ o.range.stop.column ≤ e.range.stop.column := by
  have hcover {a b : Nat} {o : OrdinaryExpr Name} (h : Between stands p a b o) :
      (p.start.right a).column ≤ o.range.start.column ∧
        o.range.stop.column ≤ (p.start.right b).column := by
    obtain ⟨a', b', ha, -, hb, hrange⟩ := h.exists_range
    rw [hrange]
    exact ⟨Nat.add_le_add_left ha _, Nat.add_le_add_left hb _⟩
  cases h with
  | leaf _ _ _ hspells _ => cases hspells <;> simp [OrdinaryExpr.operands]
  | negate _ _ h => exact List.forall_mem_singleton.2 (hcover h)
  | binary op _ _ hleft hright =>
      exact List.forall_mem_cons.2 ⟨hcover (hleft.mono (Nat.le_refl _) hright.le),
        List.forall_mem_singleton.2 (hcover (hright.mono hleft.le (Nat.le_refl _)))⟩

end Between

/-! ## Reading -/

section

variable {start : Position} {text : List Char}

/-- The characters that pass a test are the slice up to the next number. -/
theorem takeWhileAt_word (done rest : List Char) {c : Char} {test : Char → Bool}
    (hc : test c = true) :
    takeWhileAt (done ++ c :: rest) test done.length =
        some (c :: rest.takeWhile test, (done ++ c :: rest.takeWhile test).length) ∧
      slice? (done ++ c :: rest) done.length (done ++ c :: rest.takeWhile test).length =
        some (c :: rest.takeWhile test) ∧
      ∀ d ∈ c :: rest.takeWhile test, test d = true := by
  have htake := takeWhileAt_append test done (c :: rest)
  have hslice := slice?_append done (c :: rest.takeWhile test) (rest.dropWhile test) rfl
    List.length_append
  rw [List.takeWhile_cons_of_pos hc] at htake
  rw [List.cons_append, List.takeWhile_append_dropWhile] at hslice
  refine ⟨htake, hslice, List.forall_mem_cons.2 ⟨hc, fun d hd => ?_⟩⟩
  exact List.all_eq_true.1 List.all_takeWhile d hd

/-- A number, a self-defining term and a symbol stand where they are read. -/
theorem atomAt_between {n next : Nat} {e : OrdinaryExpr String}
    (h : atomAt start text n = some (.ok (e, next))) : Between (· = ·) ⟨start, text⟩ n next e := by
  have hleaf {word : List Char} (hslice : slice? text n next = some word)
      (hspells : Spells (· = ·) word e) (hrange : e.range = ⟨start.right n, start.right next⟩) :
      Between (· = ·) ⟨start, text⟩ n next e :=
    .leaf (Nat.le_refl n) (Nat.le_refl next) hslice hspells hrange
  unfold atomAt at h
  split at h
  · cases h
  · rename_i c hc
    obtain ⟨hlt, hget⟩ := List.getElem?_eq_some_iff.1 hc
    obtain ⟨done, rest, rfl, rfl⟩ : ∃ done rest, text = done ++ c :: rest ∧ n = done.length :=
      ⟨text.take n, text.drop (n + 1),
        by rw [← hget, List.getElem_cons_drop, List.take_append_drop],
        (List.length_take_of_le (Nat.le_of_lt hlt)).symm⟩
    split at h
    · rename_i hdigit
      obtain ⟨htake, hslice, hdigits⟩ := takeWhileAt_word done rest hdigit
      rw [htake] at h
      simp only [Option.bind_eq_bind, Option.bind_some,
        Numeral.integer?_of_digits (List.cons_ne_nil _ _) hdigits] at h
      split at h
      · rename_i value hvalue
        split at hvalue
        · rename_i hle
          cases hvalue
          cases h
          exact hleaf hslice (.number _ (List.cons_ne_nil _ _) hdigits hle) rfl
        · cases hvalue
      · cases h
    · rcases selfDefiningAt_cases rfl with
        ⟨-, hterm⟩ | ⟨value, after, hlt, done', hread, hterm, hafter⟩ <;> rw [hterm] at h
      · simp only [Option.bind_eq_bind, Option.bind_some] at h
        split at h
        · rename_i hname
          obtain ⟨htake, hslice, hletters⟩ := takeWhileAt_word done rest hname
          rw [htake] at h
          cases h
          exact hleaf hslice (.symbol _ (List.cons_ne_nil _ _) hletters rfl) rfl
        · cases h
      · cases h
        obtain ⟨kind, body, heq, hbody, hvalue⟩ := readSelfDefining_eq hread
        have hword : c :: rest = (kind :: '\'' :: (body ++ ['\''])) ++ after := by simp [heq]
        rw [hword] at hafter hleaf ⊢
        have hdone : done' = done ++ (kind :: '\'' :: (body ++ ['\''])) := by
          rw [← List.append_assoc] at hafter
          exact (List.append_cancel_right hafter).symm
        refine hleaf (slice?_append done _ after rfl ?_) (.selfDefining _ hbody hvalue) rfl
        rw [hdone, List.length_append]

theorem Between.operator {first n m : Nat} {left right : OrdinaryExpr String}
    (hleft : Between (· = ·) ⟨start, text⟩ first n left)
    (hright : Between (· = ·) ⟨start, text⟩ (n + 1) m right) (op : ArithmeticOp) :
    Between (· = ·) ⟨start, text⟩ first m
      (.binary op left right ⟨start.right first, start.right m⟩) :=
  .binary op (Nat.le_refl first) (Nat.le_refl m) hleft (hright.mono (Nat.le_succ n) (Nat.le_refl m))

mutual
/-- A sum stands where it is read. -/
theorem sumAt_between {fuel n next : Nat} {e : OrdinaryExpr String}
    (h : sumAt start text fuel n = some (.ok (e, next))) :
    Between (· = ·) ⟨start, text⟩ n next e := by
  match fuel with
  | 0 =>
      rw [sumAt] at h
      cases h
  | fuel + 1 =>
      rw [sumAt] at h
      obtain ⟨x, hproduct, h⟩ := Option.bind_eq_some_iff.1 h
      match x with
      | .error names => cases h
      | .ok (left, m) => exact extendSumAt_between (productAt_between hproduct) h
  termination_by structural fuel

theorem extendSumAt_between {fuel first n next : Nat} {left e : OrdinaryExpr String}
    (hleft : Between (· = ·) ⟨start, text⟩ first n left)
    (h : extendSumAt start text (start.right first) left fuel n = some (.ok (e, next))) :
    Between (· = ·) ⟨start, text⟩ first next e := by
  match fuel with
  | 0 =>
      rw [extendSumAt] at h
      cases h
  | fuel + 1 =>
      rw [extendSumAt] at h
      split at h
      · cases h
        exact hleft
      · rename_i op _
        obtain ⟨x, hproduct, h⟩ := Option.bind_eq_some_iff.1 h
        match x with
        | .error names => cases h
        | .ok (right, m) =>
            exact extendSumAt_between (hleft.operator (productAt_between hproduct) op) h
  termination_by structural fuel

theorem productAt_between {fuel n next : Nat} {e : OrdinaryExpr String}
    (h : productAt start text fuel n = some (.ok (e, next))) :
    Between (· = ·) ⟨start, text⟩ n next e := by
  match fuel with
  | 0 =>
      rw [productAt] at h
      cases h
  | fuel + 1 =>
      rw [productAt] at h
      obtain ⟨x, hfactor, h⟩ := Option.bind_eq_some_iff.1 h
      match x with
      | .error names => cases h
      | .ok (left, m) => exact extendProductAt_between (factorAt_between hfactor) h
  termination_by structural fuel

theorem extendProductAt_between {fuel first n next : Nat} {left e : OrdinaryExpr String}
    (hleft : Between (· = ·) ⟨start, text⟩ first n left)
    (h : extendProductAt start text (start.right first) left fuel n = some (.ok (e, next))) :
    Between (· = ·) ⟨start, text⟩ first next e := by
  match fuel with
  | 0 =>
      rw [extendProductAt] at h
      cases h
  | fuel + 1 =>
      rw [extendProductAt] at h
      split at h
      · cases h
        exact hleft
      · rename_i op _
        obtain ⟨x, hfactor, h⟩ := Option.bind_eq_some_iff.1 h
        match x with
        | .error names => cases h
        | .ok (right, m) =>
            exact extendProductAt_between (hleft.operator (factorAt_between hfactor) op) h
  termination_by structural fuel

theorem factorAt_between {fuel n next : Nat} {e : OrdinaryExpr String}
    (h : factorAt start text fuel n = some (.ok (e, next))) :
    Between (· = ·) ⟨start, text⟩ n next e := by
  match fuel with
  | 0 =>
      rw [factorAt] at h
      cases h
  | fuel + 1 =>
      rw [factorAt] at h
      split at h
      · exact (factorAt_between h).mono (Nat.le_succ n) (Nat.le_refl next)
      · obtain ⟨x, hfactor, h⟩ := Option.bind_eq_some_iff.1 h
        match x with
        | .error names => cases h
        | .ok (e', m) =>
            cases h
            have hinner := (factorAt_between hfactor).mono (Nat.le_succ n) (Nat.le_refl next)
            exact .negate (Nat.le_refl n) (Nat.le_refl next) hinner
      · obtain ⟨x, hsum, h⟩ := Option.bind_eq_some_iff.1 h
        match x with
        | .error names => cases h
        | .ok (e', m) =>
            dsimp only at h
            split at h
            · cases h
              exact (sumAt_between hsum).mono (Nat.le_succ n) (Nat.le_succ m)
            · cases h
      · exact atomAt_between h
  termination_by structural fuel
end

end

/-- An expression that a piece spells stands in the piece. -/
theorem readExpr_between {e : OrdinaryExpr String} (h : readExpr p = .ok e) :
    Between (· = ·) p 0 p.text.length e := by
  have hread := readExprAt_eq p
  rw [h, readExprAt] at hread
  obtain ⟨x, hsum, hread⟩ := Option.bind_eq_some_iff.1 hread
  match x with
  | .error names => cases hread
  | .ok (e', next) =>
      dsimp only at hread
      split at hread
      · rename_i hnext
        cases hread
        exact hnext ▸ sumAt_between hsum
      · cases hread

/-! ## Numbered names -/

/-- The number stands for the name. -/
def Named (t : NameTable) (id : NameId) (name : String) : Prop := t.get? id = some name

section

variable {names t u : NameTable} {e : OrdinaryExpr NameId}

theorem Between.intern {e : OrdinaryExpr String} (h : Between (· = ·) p i j e)
    (hgrows : (e.intern t).2.Grows u) : Between (Named u) p i j (e.intern t).1 := by
  induction h generalizing t with
  | leaf ha hb hslice hspells hrange =>
      cases hspells with
      | @symbol _ n r hne hname hn =>
          have hnamed : Named u (t.insert n).1 n := hgrows.get? (t.get?_insert n)
          exact .leaf ha hb hslice (.symbol r hne hname (hn ▸ hnamed)) hrange
      | number r hne hdigits hle => exact .leaf ha hb hslice (.number r hne hdigits hle) hrange
      | selfDefining r hbody hvalue =>
          exact .leaf ha hb hslice (.selfDefining r hbody hvalue) hrange
  | negate ha hb _ ih => exact .negate ha hb (ih hgrows)
  | @binary i j a m b left right op ha hb _ _ ihl ihr =>
      exact .binary op ha hb (ihl ((right.intern_grows _).trans hgrows)) (ihr hgrows)

theorem internExpr_between (h : internExpr names p = (.ok e, t)) (hgrows : t.Grows u) :
    Between (Named u) p 0 p.text.length e := by
  unfold internExpr at h
  split at h
  · rename_i hread
    cases h
    exact (readExpr_between hread).intern hgrows
  · cases h

end

/-! ## Addresses -/

/-- The expressions stand between two numbers, one behind the other. -/
def Successive (stands : Name → String → Prop) (p : Piece) :
    Nat → Nat → List (OrdinaryExpr Name) → Prop
  | i, j, [] => i ≤ j
  | i, j, e :: es => ∃ m, Between stands p i m e ∧ Successive stands p m j es

section

variable {es : List (OrdinaryExpr Name)}

theorem Successive.le (h : Successive stands p i j es) : i ≤ j := by
  induction es generalizing i with
  | nil => exact h
  | cons e es ih =>
      obtain ⟨m, he, hes⟩ := h
      exact he.le.trans (ih hes)

theorem Successive.between (h : Successive stands p i j es) : ∀ e ∈ es, Between stands p i j e := by
  induction es generalizing i with
  | nil => simp
  | cons e es ih =>
      obtain ⟨m, he, hes⟩ := h
      exact List.forall_mem_cons.2 ⟨he.mono (Nat.le_refl i) hes.le,
        fun e' he' => (ih hes e' he').mono he.le (Nat.le_refl j)⟩

theorem Successive.pairwise_leaves (h : Successive stands p i j es) :
    (es.flatMap OrdinaryExpr.leaves).Pairwise
      fun l l' => l.range.stop.column ≤ l'.range.start.column := by
  induction es generalizing i with
  | nil => exact .nil
  | cons e es ih =>
      obtain ⟨m, he, hes⟩ := h
      refine List.pairwise_append.2 ⟨he.pairwise_leaves, ih hes, fun l hl l' hl' => ?_⟩
      obtain ⟨e', he', hl'⟩ := List.mem_flatMap.1 hl'
      obtain ⟨a, b, _, -, hb, hrange, -⟩ := he.of_mem_leaves l hl
      obtain ⟨a', b', _, ha', -, hrange', -⟩ := (hes.between e' he').of_mem_leaves l' hl'
      rw [hrange, hrange']
      exact Nat.add_le_add_left (hb.trans ha') _

end

theorem pairwise_number (n : Nat) (texts : List (List Char)) :
    (∀ q ∈ number n texts, n ≤ q.1) ∧
      (number n texts).Pairwise fun q q' => q.1 + q.2.length ≤ q'.1 := by
  induction texts generalizing n with
  | nil => exact ⟨by simp [number], .nil⟩
  | cons text texts ih =>
      obtain ⟨hle, hsorted⟩ := ih (n + text.length + 1)
      rw [number]
      refine ⟨List.forall_mem_cons.2 ⟨Nat.le_refl n, fun q hq => ?_⟩,
        List.pairwise_cons.2 ⟨fun q hq => ?_, hsorted⟩⟩
      · have := hle q hq
        omega
      · have := hle q hq
        dsimp only
        omega

/-- The registers stand where their pieces do. -/
theorem internRegisters_successive {names t u : NameTable} {k : Nat} {qs : List (Nat × List Char)}
    {registers : List (Option (OrdinaryExpr NameId))}
    (h : internRegisters names (qs.map fun q => ⟨(p.start.right k).right q.1, q.2⟩) =
      (some registers, t))
    (hgrows : t.Grows u) (hij : i ≤ j)
    (hqs : ∀ q ∈ qs, i ≤ k + q.1 ∧ k + q.1 + q.2.length ≤ j ∧
      slice? p.text (k + q.1) (k + q.1 + q.2.length) = some q.2)
    (hsorted : qs.Pairwise fun q q' => q.1 + q.2.length ≤ q'.1) :
    Successive (Named u) p i j registers.reduceOption := by
  induction qs generalizing names i registers with
  | nil =>
      cases h
      exact hij
  | cons q qs ih =>
      obtain ⟨hq, hqs⟩ := List.forall_mem_cons.1 hqs
      obtain ⟨hle, hsorted⟩ := List.pairwise_cons.1 hsorted
      rw [List.map_cons, internRegisters] at h
      split at h
      · obtain ⟨hothers, ht⟩ := Prod.mk.inj h
        obtain ⟨others, hrest, rfl⟩ := Option.map_eq_some_iff.1 hothers
        rw [List.reduceOption_cons_of_none]
        exact ih (Prod.ext hrest ht) hij hqs hsorted
      · generalize hread : internExpr names _ = found at h
        obtain ⟨register, t'⟩ := found
        cases register with
        | error d =>
            have hnone := congrArg Prod.fst h
            cases hnone
        | ok e =>
            obtain ⟨hothers, ht⟩ := Prod.mk.inj h
            obtain ⟨others, hrest, rfl⟩ := Option.map_eq_some_iff.1 hothers
            have hlater : t'.Grows t := ht ▸ internRegisters_grows t' _
            have he := internExpr_between hread (hlater.trans hgrows)
            rw [List.reduceOption_cons_of_some]
            refine ⟨k + q.1 + q.2.length, ?_, ?_⟩
            · exact (he.shift (Position.right_right _ _ _) hq.2.2).mono hq.1 (Nat.le_refl _)
            · refine ih (Prod.ext hrest ht) hq.2.1 (fun q' hq' => ?_) hsorted
              have := hle q' hq'
              exact ⟨by omega, (hqs q' hq').2⟩

/-- The expressions of an address are its displacement and the registers that are given. -/
theorem exprs_of_address? {d : OrdinaryExpr NameId}
    {registers : List (Option (OrdinaryExpr NameId))} {m : MachineOperand}
    (h : address? d registers = some m) : m.exprs = d :: registers.reduceOption := by
  unfold address? at h
  split at h
  · cases h
    rfl
  · rename_i first second
    cases h
    cases second <;> rfl
  · cases h
    rfl
  · cases h

/-- The displacement stands in front of the group, and the registers stand in it. -/
theorem internAddress_successive {names t : NameTable} {m : MachineOperand}
    (h : internAddress names p = (some m, t)) : Successive (Named t) p 0 p.text.length m.exprs := by
  obtain ⟨d, inner, e, t', hne, hsplit, hread⟩ := exists_of_internAddress (congrArg Prod.fst h)
  rw [internAddress_of_group hread hne hsplit] at h
  obtain ⟨haddress, ht⟩ := Prod.mk.inj h
  obtain ⟨registers, hregisters, haddress⟩ := Option.bind_eq_some_iff.1 haddress
  obtain ⟨hfront, hinside, hlength⟩ := slices_of_splitGroup hsplit
  rw [exprs_of_address? haddress]
  refine ⟨d.length, ?_, ?_⟩
  · have he := internExpr_between hread (ht ▸ internRegisters_grows t' _)
    rw [← Nat.zero_add d.length] at hfront
    simpa using he.shift rfl hfront
  · rw [pieces_eq] at hregisters ht
    refine internRegisters_successive (Prod.ext hregisters ht) (.refl t) (by omega)
      (fun q hq => ?_) ?_
    · obtain ⟨before, behind, hinner, hbefore, -⟩ := exists_of_mem_numberedPieces hq
      have hslice : slice? inner q.1 (q.1 + q.2.length) = some q.2 := by
        rw [hinner]
        exact slice?_append before q.2 behind hbefore.symm (by rw [hbefore])
      have hwhole := slice?_trans hinside hslice
      have hbound := (slice?_eq_some hslice).2.1
      rw [← Nat.add_assoc] at hwhole
      exact ⟨by omega, by omega, hwhole⟩
    · unfold numberedPieces
      split
      · exact .nil
      · exact (pairwise_number 0 _).2

theorem internMachineOperand_successive {names t : NameTable} {m : MachineOperand}
    (h : internMachineOperand names p = (.ok m, t)) :
    Successive (Named t) p 0 p.text.length m.exprs := by
  unfold internMachineOperand at h
  split at h
  · rename_i haddress
    cases h
    exact internAddress_successive haddress
  · split at h
    · rename_i e t' hread
      cases h
      exact ⟨p.text.length, internExpr_between hread (.refl _), Nat.le_refl _⟩
    · cases h

/-! ## Places -/

/-- The ranges of an expression that was read in a text, which starts at a place on a line. -/
structure Placed (names : NameTable) (p : Piece) (e : OrdinaryExpr NameId) : Prop where
  /-- A symbol or a constant covers the characters that spell it. -/
  leaves : ∀ leaf ∈ e.leaves, ∃ a b word, leaf.range = ⟨p.start.right a, p.start.right b⟩ ∧
    slice? p.text a b = some word ∧ Spells (Named names) word leaf
  /-- One symbol or constant stands behind the other. -/
  order : e.leaves.Pairwise fun l l' => l.range.stop.column ≤ l'.range.start.column
  /-- An operation covers its operands. -/
  operands : ∀ part ∈ e.parts, ∀ o ∈ part.operands,
    part.range.start.column ≤ o.range.start.column ∧ o.range.stop.column ≤ part.range.stop.column
  /-- No part goes beyond the text. -/
  inside : ∀ part ∈ e.parts, ∃ a b, a ≤ b ∧ b ≤ p.text.length ∧
    part.range = ⟨p.start.right a, p.start.right b⟩

theorem Between.placed {names : NameTable} {e : OrdinaryExpr NameId}
    (h : Between (Named names) p 0 p.text.length e) : Placed names p e where
  leaves leaf hleaf := by
    obtain ⟨a, b, word, -, -, hrange, hslice, hspells⟩ := h.of_mem_leaves leaf hleaf
    exact ⟨a, b, word, hrange, hslice, hspells⟩
  order := h.pairwise_leaves
  operands part hpart := (h.of_mem_parts part hpart).covers_operands
  inside part hpart := by
    obtain ⟨a, b, -, hab, hb, hrange⟩ := (h.of_mem_parts part hpart).exists_range
    exact ⟨a, b, hab, hb, hrange⟩

/-- The ranges of an expression point at its text. Every symbol and every constant covers exactly
the characters that spell it, one stands behind the other, an operation covers its operands, and
nothing goes beyond the text. The same holds for the displacement and the registers of an address,
in the text of the whole operand. -/
theorem placed_of_read (names : NameTable) (p : Piece) :
    (∀ e t, internExpr names p = (.ok e, t) → Placed t p e) ∧
      ∀ m t, internMachineOperand names p = (.ok m, t) → (∀ e ∈ m.exprs, Placed t p e) ∧
        (m.exprs.flatMap OrdinaryExpr.leaves).Pairwise
          fun l l' => l.range.stop.column ≤ l'.range.start.column := by
  refine ⟨fun e t h => (internExpr_between h (.refl t)).placed, fun m t h => ?_⟩
  have hexprs := internMachineOperand_successive h
  exact ⟨fun e he => (hexprs.between e he).placed, hexprs.pairwise_leaves⟩

/-- A displacement with a sign, a group and a quoted letter of two bytes, and two registers, of
which the second has a sign without a trace. -/
def accentedOperand : Piece := ⟨⟨3, 14⟩, "-(a+C'é')*2(B,+9)".toList⟩

theorem placed_accentedOperand :
    (∃ m t, internMachineOperand {} accentedOperand = (.ok m, t) ∧
      (m.exprs.flatMap OrdinaryExpr.leaves).map OrdinaryExpr.range = [.onLine 3 16 17,
        .onLine 3 18 22, .onLine 3 24 25, .onLine 3 26 27, .onLine 3 29 30] ∧
      ∀ e ∈ m.exprs, Placed t accentedOperand e) ∧
    ∃ e t, internExpr {} ⟨⟨3, 14⟩, "-(a+C'é')*2".toList⟩ = (.ok e, t) ∧
      e.range = .onLine 3 14 25 ∧ Placed t ⟨⟨3, 14⟩, "-(a+C'é')*2".toList⟩ e := by
  have hoperand : (internMachineOperand {} accentedOperand).1.toOption.map
      (fun m => (m.exprs.flatMap OrdinaryExpr.leaves).map OrdinaryExpr.range) =
      some [.onLine 3 16 17,
        .onLine 3 18 22, .onLine 3 24 25, .onLine 3 26 27, .onLine 3 29 30] := by cbv
  have hexpr : (internExpr {} ⟨⟨3, 14⟩, "-(a+C'é')*2".toList⟩).1.toOption.map OrdinaryExpr.range =
      some (.onLine 3 14 25) := by cbv
  have hok {α : Type} {x : Except Diagnostic α × NameTable} {a : α} (h : x.1.toOption = some a) :
      x = (.ok a, x.2) := by
    obtain ⟨d | a', t⟩ := x <;> cases h
    rfl
  obtain ⟨m, hm, hranges⟩ := Option.map_eq_some_iff.1 hoperand
  obtain ⟨e, he, hrange⟩ := Option.map_eq_some_iff.1 hexpr
  have hplaced := (placed_of_read {} accentedOperand).2 m _ (hok hm)
  exact ⟨⟨m, _, hok hm, hranges, hplaced.1⟩, e, _, hok he, hrange,
    (placed_of_read {} _).1 e _ (hok he)⟩

end Field

end MacroAssembler
