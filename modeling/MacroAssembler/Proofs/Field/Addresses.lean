import MacroAssembler.Proofs.Field.LetterCase

/-!
# Addresses and expressions

The operand of a machine instruction is an address, which is an expression in front of a group with
registers, or an expression. Whatever stands between apostrophes or in parentheses in its parts, an
address is read as its parts are (`internMachineOperand_of_address`), an expression is read as such
although it may end with a group (`internMachineOperand_of_expr`), and no text is both
(`not_accepted_of_address`).
-/

namespace MacroAssembler.Field

/-! ## Expressions that end with a group -/

/-- Learn names, one after the other. -/
def learnAll (names : NameTable) (seen : List String) : NameTable :=
  seen.foldl (fun t n => (t.insert n).2) names

/-- If there is a group at the end of the text, the text in front of it is not read to the end by
the rule; the names that are read of it and those of the group are the names of the expression. -/
def GroupBreaks (reads : List Char → List String → Prop) (cs : List Char)
    (t : OrdinaryExpr String) : Prop :=
  ∀ before inner, splitGroup cs = some (before, inner) →
    ∃ seen t', reads before seen ∧ IsSum inner t' ∧ t.names = seen ++ t'.names

def SumBreaks (cs : List Char) (seen : List String) : Prop := ∀ stop, readSum stop cs = .error seen

def ProductBreaks (cs : List Char) (seen : List String) : Prop :=
  ∀ stop, readProduct stop cs = .error seen

def FactorBreaks (cs : List Char) (seen : List String) : Prop :=
  ∀ stop, readFactor stop cs = .error seen

theorem viewRead_eq_error {n : Nat} {x : Except (List String) (Read n)} {seen : List String}
    (h : viewRead x = .error seen) : x = .error seen := by
  cases x with
  | error names =>
      cases h
      rfl
  | ok found => cases h

variable {cs cs' : List Char} {c : Char} {t left : OrdinaryExpr String} {op : ArithmeticOp}
  {seen : List String}

theorem ProductBreaks.sum (h : ProductBreaks cs seen) : SumBreaks cs seen :=
  fun stop => by rw [readSum, h stop]

theorem FactorBreaks.product (h : FactorBreaks cs seen) : ProductBreaks cs seen :=
  fun stop => by rw [readProduct, h stop]

/-- Nothing is no factor. -/
theorem FactorBreaks.nil : FactorBreaks [] [] :=
  fun stop => by rw [readFactor_eq_readAtom stop (by simp), readAtom]

theorem FactorBreaks.plus (h : FactorBreaks cs seen) : FactorBreaks ('+' :: cs) seen :=
  fun stop => by rw [readFactor, h stop]

theorem FactorBreaks.minus (h : FactorBreaks cs seen) : FactorBreaks ('-' :: cs) seen :=
  fun stop => by rw [readFactor, h stop]

/-- A product breaks in a later factor. -/
theorem FactorBreaks.extend (h : FactorBreaks cs' seen) (hleft : IsProduct cs left)
    (hop : multiplicative? c = some op) : ProductBreaks (cs ++ c :: cs') (left.names ++ seen) := by
  intro stop
  obtain ⟨hread, -⟩ := hleft.read (stops_of_multiplicative hop) stop {}
  refine viewRead_eq_error (hread.trans ?_)
  rw [extendProduct]
  simp only [hop, h stop]
  rfl

/-- A sum breaks in a later product. -/
theorem ProductBreaks.extend (h : ProductBreaks cs' seen) (hleft : IsSum cs left)
    (hop : additive? c = some op) : SumBreaks (cs ++ c :: cs') (left.names ++ seen) := by
  intro stop
  obtain ⟨hread, -⟩ := hleft.read (stopsProduct_of_additive hop) stop {}
  refine viewRead_eq_error (hread.trans ?_)
  rw [extendSum]
  simp only [hop, h stop]
  rfl

/-- Behind an operator a text has the group at its end that the part behind the operator has. -/
theorem splitGroup_operator (hcs : Balanced false cs) (hc : isPlain c) (hcs' : Balanced false cs') :
    splitGroup (cs ++ c :: cs') =
      (splitGroup cs').map fun (before, inner) => (cs ++ c :: before, inner) := by
  have htail : quotedAfter true (c :: cs') = true := by
    rw [quotedAfter_cons, quotedBehind_of_ne (isPlain_ne hc).1, hcs'.quotedAfter_eq]
  rw [hcs.splitGroup_append (List.cons_ne_nil _ _) htail,
    splitGroup_cons fun hopen => absurd hopen (isPlain_ne hc).2.1, Option.map_map]
  rfl

/-- A text without parentheses has no group. -/
theorem splitGroup_of_notMem (h : '(' ∉ cs) : splitGroup cs = none := by
  cases hsplit : splitGroup cs with
  | none => rfl
  | some g =>
      refine absurd ?_ h
      rw [splitGroup_eq hsplit]
      simp

namespace GroupBreaks

variable {reads reads' : List Char → List String → Prop} {right t' : OrdinaryExpr String}

theorem mono (h : GroupBreaks reads cs t) (hreads : ∀ cs seen, reads cs seen → reads' cs seen) :
    GroupBreaks reads' cs t := by
  intro before inner hsplit
  obtain ⟨seen, t', hbreaks, hinner, hnames⟩ := h before inner hsplit
  exact ⟨seen, t', hreads before seen hbreaks, hinner, hnames⟩

/-- A sign in front breaks where the factor does. -/
theorem sign (h : GroupBreaks reads cs t) (hc : c ≠ '(') (hnames : t'.names = t.names)
    (hreads : ∀ cs seen, reads cs seen → reads' (c :: cs) seen) :
    GroupBreaks reads' (c :: cs) t' := by
  intro before inner hsplit
  rw [splitGroup_cons fun hopen => absurd hopen hc] at hsplit
  obtain ⟨⟨before, inner⟩, hlater, heq⟩ := Option.map_eq_some_iff.1 hsplit
  obtain ⟨rfl, rfl⟩ := Prod.mk.inj heq
  obtain ⟨seen, t'', hbreaks, hinner, hseen⟩ := h before inner hlater
  exact ⟨seen, t'', hreads before seen hbreaks, hinner, hnames.trans hseen⟩

/-- An operation breaks where its second part does, when the first part has been read. -/
theorem operator (h : GroupBreaks reads cs' right) (hcs : Balanced false cs) (hc : isPlain c)
    (hcs' : Balanced false cs')
    (hreads : ∀ cs' seen, reads cs' seen → reads' (cs ++ c :: cs') (left.names ++ seen)) :
    GroupBreaks reads' (cs ++ c :: cs') (.binary op left right {}) := by
  intro before inner hsplit
  rw [splitGroup_operator hcs hc hcs'] at hsplit
  obtain ⟨⟨before, inner⟩, hlater, heq⟩ := Option.map_eq_some_iff.1 hsplit
  obtain ⟨rfl, rfl⟩ := Prod.mk.inj heq
  obtain ⟨seen, t', hbreaks, hinner, hnames⟩ := h before inner hlater
  refine ⟨left.names ++ seen, t', hreads before seen hbreaks, hinner, ?_⟩
  rw [OrdinaryExpr.names, hnames, List.append_assoc]

theorem of_notMem (h : '(' ∉ cs) : GroupBreaks reads cs t := by
  intro before inner hsplit
  rw [splitGroup_of_notMem h] at hsplit
  cases hsplit

end GroupBreaks

mutual
/-- In front of a group that ends a sum there is no sum. -/
theorem IsSum.groupBreaks {cs : List Char} {t : OrdinaryExpr String} (h : IsSum cs t) :
    GroupBreaks SumBreaks cs t := by
  match h with
  | .product h => exact h.groupBreaks.mono fun _ _ => ProductBreaks.sum
  | .extend hleft hop hright =>
      exact hright.groupBreaks.operator (hleft.balanced false) (isPlain_of_additive hop)
        (hright.balanced false) fun _ _ hbreaks => hbreaks.extend hleft hop

theorem IsProduct.groupBreaks {cs : List Char} {t : OrdinaryExpr String} (h : IsProduct cs t) :
    GroupBreaks ProductBreaks cs t := by
  match h with
  | .factor h => exact h.groupBreaks.mono fun _ _ => FactorBreaks.product
  | .extend hleft hop hright =>
      exact hright.groupBreaks.operator (hleft.balanced false) (isPlain_of_multiplicative hop)
        (hright.balanced false) fun _ _ hbreaks => hbreaks.extend hleft hop

theorem IsFactor.groupBreaks {cs : List Char} {t : OrdinaryExpr String} (h : IsFactor cs t) :
    GroupBreaks FactorBreaks cs t := by
  match h with
  | .plus h => exact h.groupBreaks.sign (by decide) rfl fun _ _ => FactorBreaks.plus
  | .minus h => exact h.groupBreaks.sign (by decide) rfl fun _ _ => FactorBreaks.minus
  | .primary h => exact h.groupBreaks

theorem IsPrimary.groupBreaks {cs : List Char} {t : OrdinaryExpr String} (h : IsPrimary cs t) :
    GroupBreaks FactorBreaks cs t := by
  match h with
  | .group h =>
      intro before inner hsplit
      have hgroup := Balanced.splitGroup_group (.nil false) (h.balanced true)
      obtain ⟨rfl, rfl⟩ := Prod.mk.inj (Option.some.inj (hgroup.symm.trans hsplit))
      exact ⟨[], _, .nil, h, rfl⟩
  | .number _ hdigits _ =>
      exact .of_notMem fun hmem => absurd (hdigits _ hmem) (by decide)
  | .selfDefining _ _ =>
      intro before inner hsplit
      have hlast := congrArg List.getLast? (splitGroup_eq hsplit)
      simp [List.getLast?_append, List.getLast?_cons] at hlast
  | .symbol _ hname _ =>
      exact .of_notMem fun hmem => absurd (hname _ hmem) (by decide)
end

/-! ## Expressions that are accepted -/

/-- The text is read as an expression to its end. -/
def Accepted (cs : List Char) : Prop := ∃ e, readExpr ⟨{}, cs⟩ = .ok e

/-- Where a text stands and which names are known does not matter to its being an expression. -/
theorem accepted_iff {cs : List Char} : Accepted cs ↔ ∃ t, IsSum cs t := by
  constructor
  · rintro ⟨e, h⟩
    exact ⟨_, readExpr_derives h⟩
  · rintro ⟨t, h⟩
    obtain ⟨e, hread, -⟩ := IsSum.readExpr_eq (p := ⟨{}, cs⟩) h
    exact ⟨e, hread⟩

variable {names : NameTable} {p : Piece}

theorem accepted_of_internExpr {e : OrdinaryExpr NameId} (h : (internExpr names p).1 = .ok e) :
    Accepted p.text := by
  unfold internExpr at h
  split at h
  · rename_i hread
    exact accepted_iff.2 ⟨_, readExpr_derives hread⟩
  · cases h

theorem Accepted.internExpr (h : Accepted p.text) (names : NameTable) :
    ∃ e names', internExpr names p = (.ok e, names') := by
  obtain ⟨t, hsum⟩ := accepted_iff.1 h
  obtain ⟨e, hread, -⟩ := hsum.readExpr_eq
  exact ⟨(e.intern names).1, (e.intern names).2, by rw [Field.internExpr, hread]⟩

/-- What is no expression is a fault. -/
theorem internExpr_of_not_accepted (h : ¬ Accepted p.text) (names : NameTable) :
    (internExpr names p).1 = .error (invalidExpression p) := by
  unfold internExpr
  cases hread : readExpr p with
  | ok e => exact absurd (accepted_iff.2 ⟨_, readExpr_derives hread⟩) h
  | error seen => rfl

theorem Accepted.balanced (h : Accepted cs) (inside : Bool) : Balanced inside cs := by
  obtain ⟨t, hsum⟩ := accepted_iff.1 h
  exact hsum.balanced inside

theorem not_accepted_nil : ¬ Accepted [] := by
  rintro ⟨e, h⟩
  have hnothing : readExpr ⟨{}, []⟩ = .error [] := by rw [readExpr, FactorBreaks.nil.product.sum]
  rw [hnothing] at h
  cases h

theorem Accepted.ne_nil (h : Accepted cs) : cs ≠ [] := by
  rintro rfl
  exact not_accepted_nil h

/-- A parenthesis does not go on with an expression. -/
theorem Accepted.not_accepted_open (h : Accepted cs) (rest : List Char) :
    ¬ Accepted (cs ++ '(' :: rest) := by
  rintro ⟨e, hread⟩
  obtain ⟨t, hsum⟩ := accepted_iff.1 h
  have hstops : StopsProduct ('(' :: rest) := by
    simp [StopsProduct, Stops]
    decide
  let whole : Piece := ⟨{}, cs ++ '(' :: rest⟩
  obtain ⟨hview, -⟩ := hsum.read hstops whole.stop {}
  rw [viewRead_extendSum_stop whole.stop {} t (by simp [additive?])] at hview
  obtain ⟨e', hlt, hread', -⟩ := viewRead_eq_ok hview
  have hbehind : readExpr whole = .error e'.names := by rw [readExpr, hread']
  rw [hbehind] at hread
  cases hread

/-! ## Operands that are expressions -/

theorem internExpr_of_breaks {start : Position} (h : SumBreaks cs seen) (names : NameTable) :
    internExpr names ⟨start, cs⟩ =
      (.error (invalidExpression ⟨start, cs⟩), learnAll names seen) := by
  have hread : readExpr ⟨start, cs⟩ = .error seen := by rw [readExpr, h]
  rw [internExpr, hread]
  rfl

/-- The names of an expression that is read are learned. -/
theorem internExpr_of_isSum (h : IsSum p.text t) (names : NameTable) :
    ∃ e, internExpr names p = (.ok e, learnAll names t.names) := by
  obtain ⟨e, hread, he⟩ := h.readExpr_eq
  have hnames : e.names = t.names := by rw [← he, OrdinaryExpr.names_withoutPlaces]
  refine ⟨(e.intern names).1, ?_⟩
  rw [internExpr, hread, learnAll, ← hnames, ← e.intern_snd]

/-- An expression is no address. If it ends with a group, its names are learned when it is taken
for one. -/
theorem internAddress_of_isSum (h : IsSum p.text t) (names : NameTable) :
    ∃ names', internAddress names p = (none, names') ∧
      (names' = names ∨ names' = learnAll names t.names) := by
  unfold internAddress
  cases hsplit : splitGroup p.text with
  | none => exact ⟨names, rfl, .inl rfl⟩
  | some g =>
      obtain ⟨before, inner⟩ := g
      obtain ⟨seen, t', hbreaks, hinner, hnames⟩ := h.groupBreaks before inner hsplit
      cases before with
      | nil => exact ⟨names, rfl, .inl rfl⟩
      | cons c before =>
          have haccepted : Accepted inner := accepted_iff.2 ⟨t', hinner⟩
          obtain ⟨e, hread⟩ := internExpr_of_isSum
            (p := ⟨p.start.right ((c :: before).length + 1), inner⟩) hinner (learnAll names seen)
          have hlearned : learnAll (learnAll names seen) t'.names = learnAll names t.names := by
            rw [hnames, learnAll, learnAll, learnAll, List.foldl_append]
          dsimp only
          rw [internExpr_of_breaks hbreaks, pieces_of_balanced haccepted.ne_nil
            (haccepted.balanced false), internRegisters, if_neg haccepted.ne_nil, hread, hlearned]
          exact ⟨_, rfl, .inr rfl⟩

/-- An expression is the same when its names have been learned. -/
theorem internExpr_again {e : OrdinaryExpr NameId} {names' : NameTable}
    (h : internExpr names p = (.ok e, names')) : internExpr names' p = (.ok e, names') := by
  unfold internExpr at h ⊢
  cases hread : readExpr p with
  | error seen =>
      rw [hread] at h
      cases h
  | ok e₀ =>
      rw [hread] at h
      cases h
      dsimp only
      rw [OrdinaryExpr.intern_of_grows (.refl _)]

/-- What is an expression is read as that expression, and the same names are learned. -/
theorem internMachineOperand_of_expr {e : OrdinaryExpr NameId} {names' : NameTable}
    (h : internExpr names p = (.ok e, names')) :
    internMachineOperand names p = (.ok (.expr e), names') := by
  obtain ⟨t, hsum⟩ := accepted_iff.1 (accepted_of_internExpr (congrArg Prod.fst h))
  obtain ⟨e', hlearns⟩ := internExpr_of_isSum hsum names
  obtain ⟨tried, haddress, rfl | rfl⟩ := internAddress_of_isSum hsum names
  · rw [internMachineOperand, haddress]
    dsimp only
    rw [h]
  · have hsame : learnAll names t.names = names' := congrArg Prod.snd (hlearns.symm.trans h)
    rw [internMachineOperand, haddress]
    dsimp only
    rw [hsame, internExpr_again h]

/-! ## Operands that are addresses -/

/-- The ways to write an address with a displacement and registers. -/
inductive AddressText (d : List Char) :
    List Char → Option (List Char) → Option (List Char) → Prop where
  | both (x b : List Char) :
      AddressText d (d ++ '(' :: (x ++ ',' :: (b ++ [')']))) (some x) (some b)
  | first (x : List Char) : AddressText d (d ++ '(' :: (x ++ [')'])) (some x) none
  | firstComma (x : List Char) : AddressText d (d ++ '(' :: (x ++ [',', ')'])) (some x) none
  | second (b : List Char) : AddressText d (d ++ '(' :: ',' :: (b ++ [')'])) none (some b)

/-- A register is read as an expression, unless it is left out. -/
inductive ReadsRegister (names : NameTable) (start : Position) :
    Option (List Char) → Option (OrdinaryExpr NameId) → NameTable → Prop where
  | omitted : ReadsRegister names start none none names
  | given {cs : List Char} {e : OrdinaryExpr NameId} {names' : NameTable} :
      internExpr names ⟨start, cs⟩ = (.ok e, names') →
      ReadsRegister names start (some cs) (some e) names'

/-- The text is an address whose parts are expressions. -/
def IsAddress (cs : List Char) : Prop :=
  ∃ d first second, AddressText d cs first second ∧ Accepted d ∧ (∀ x ∈ first, Accepted x) ∧
    ∀ b ∈ second, Accepted b

/-- No address is an expression. -/
theorem not_accepted_of_address (h : IsAddress cs) : ¬ Accepted cs := by
  obtain ⟨d, first, second, htext, hd, -⟩ := h
  cases htext <;> exact hd.not_accepted_open _

variable {d inner : List Char} {first second : Option (List Char)} {texts : List (List Char)}

/-- The text in the group of an address is made up of its registers. -/
theorem AddressText.exists_texts (h : AddressText d cs first second) :
    ∃ texts, cs = d ++ '(' :: ([','].intercalate texts ++ [')']) ∧
      (texts = [first.getD [], second.getD []] ∨ second = none ∧ texts = [first.getD []]) ∧
      (first.isSome ∨ second.isSome) := by
  cases h with
  | both x b => exact ⟨[x, b], by simp [List.intercalate], .inl rfl, .inl rfl⟩
  | first x => exact ⟨[x], by simp [List.intercalate], .inr ⟨rfl, rfl⟩, .inl rfl⟩
  | firstComma x => exact ⟨[x, []], by simp [List.intercalate], .inl rfl, .inl rfl⟩
  | second b => exact ⟨[[], b], by simp [List.intercalate], .inl rfl, .inr rfl⟩

theorem ReadsRegister.isSome_eq {names' : NameTable} {start : Position}
    {register : Option (List Char)} {e : Option (OrdinaryExpr NameId)}
    (h : ReadsRegister names start register e names') : e.isSome = register.isSome := by
  cases h <;> rfl

/-- A register that is an expression, or is left out, is read as one of the registers. -/
theorem exists_readsRegister {register : Option (List Char)} (h : ∀ cs ∈ register, Accepted cs)
    (names : NameTable) (start : Position) :
    ∃ e names', ReadsRegister names start register e names' ∧
      ∀ rest, internRegisters names (⟨start, register.getD []⟩ :: rest) =
        ((internRegisters names' rest).1.map (e :: ·), (internRegisters names' rest).2) := by
  cases register with
  | none =>
      refine ⟨none, names, .omitted, fun rest => ?_⟩
      rw [internRegisters, Option.getD_none, if_pos rfl]
  | some cs =>
      have hcs : Accepted cs := h cs rfl
      obtain ⟨e, names', hread⟩ := Accepted.internExpr (p := ⟨start, cs⟩) hcs names
      refine ⟨some e, names', .given hread, fun rest => ?_⟩
      rw [internRegisters, Option.getD_some, if_neg hcs.ne_nil, hread]

/-- The address that a displacement and the registers of a group make. -/
def address? (d : OrdinaryExpr NameId) : List (Option (OrdinaryExpr NameId)) → Option MachineOperand
  | [some first] => some (.address d (some first) none)
  | [some first, second] => some (.address d (some first) second)
  | [none, some second] => some (.address d none (some second))
  | _ => none

/-- An address has one register or two, of which one is given. -/
theorem address?_isSome_iff {d : OrdinaryExpr NameId}
    {registers : List (Option (OrdinaryExpr NameId))} :
    (address? d registers).isSome ↔
      (∃ e, registers = [some e]) ∨ ∃ e₁ e₂, registers = [e₁, e₂] ∧ (e₁.isSome ∨ e₂.isSome) := by
  unfold address?
  split
  · simp
  · simp
  · simp
  · rename_i hone hfirst hsecond
    refine iff_of_false (by simp) ?_
    rintro (⟨e, rfl⟩ | ⟨e₁, e₂, rfl, hgiven⟩)
    · exact hone e rfl
    · cases e₁ with
      | some first => exact hfirst first e₂ rfl
      | none =>
          obtain ⟨second, rfl⟩ : ∃ second, e₂ = some second :=
            Option.isSome_iff_exists.1 (hgiven.resolve_left (by simp))
          exact hsecond second rfl

/-- The expression in front of the group at the end is the displacement. -/
theorem internAddress_of_group {e : OrdinaryExpr NameId} {t : NameTable}
    (hread : internExpr names ⟨p.start, d⟩ = (.ok e, t)) (hne : d ≠ [])
    (hsplit : splitGroup p.text = some (d, inner)) :
    let registers := internRegisters t (pieces ⟨p.start.right (d.length + 1), inner⟩)
    internAddress names p = (registers.1.bind (address? e), registers.2) := by
  obtain ⟨c, d, rfl⟩ := List.exists_cons_of_ne_nil hne
  rw [internAddress, hsplit]
  dsimp only
  rw [hread]
  dsimp only
  generalize internRegisters t _ = registers
  obtain ⟨found, t'⟩ := registers
  unfold address?
  cases found with
  | none => rfl
  | some found =>
      dsimp only [Option.bind_some]
      split <;> simp_all

theorem address?_pair (d : OrdinaryExpr NameId) {e₁ e₂ : Option (OrdinaryExpr NameId)}
    (h : e₁.isSome ∨ e₂.isSome) : address? d [e₁, e₂] = some (.address d e₁ e₂) := by
  cases e₁ <;> cases e₂ <;> first | rfl | simp at h

/-- A register that is an expression, or is left out, is balanced. -/
theorem balanced_register {register : Option (List Char)} (h : ∀ cs ∈ register, Accepted cs) :
    Balanced false (register.getD []) := by
  cases register with
  | none => exact .nil false
  | some cs => exact (h cs rfl).balanced false

/-- An address whose parts are expressions is read as its parts are. -/
theorem internMachineOperand_of_address (htext : AddressText d p.text first second)
    (hd : Accepted d) (hfirst : ∀ cs ∈ first, Accepted cs) (hsecond : ∀ cs ∈ second, Accepted cs)
    (names : NameTable) :
    ∃ e e₁ e₂ t t₁ t₂, internExpr names ⟨p.start, d⟩ = (.ok e, t) ∧
      ReadsRegister t (p.start.right (d.length + 1)) first e₁ t₁ ∧
      ReadsRegister t₁ ((p.start.right (d.length + 1)).right ((first.getD []).length + 1)) second e₂
        t₂ ∧
      internMachineOperand names p = (.ok (.address e e₁ e₂), t₂) := by
  let start := p.start.right (d.length + 1)
  obtain ⟨texts, hwhole, htexts, hgiven⟩ := htext.exists_texts
  obtain ⟨e, t, hread⟩ := Accepted.internExpr (p := ⟨p.start, d⟩) hd names
  obtain ⟨e₁, t₁, hreads₁, hregister₁⟩ := exists_readsRegister hfirst t start
  obtain ⟨e₂, t₂, hreads₂, hregister₂⟩ :=
    exists_readsRegister hsecond t₁ (start.right ((first.getD []).length + 1))
  have hbalanced : ∀ text ∈ texts, Balanced false text := by
    have hboth := And.intro (balanced_register hfirst) (balanced_register hsecond)
    rcases htexts with rfl | ⟨-, rfl⟩ <;> simpa using by first | exact hboth | exact hboth.1
  have hne : [','].intercalate texts ≠ [] := by
    rcases htexts with rfl | ⟨rfl, rfl⟩
    · simp [List.intercalate]
    · obtain ⟨x, rfl⟩ := Option.isSome_iff_exists.1 (hgiven.resolve_right (by simp))
      simpa [List.intercalate] using (hfirst x rfl).ne_nil
  have hsplit : splitGroup p.text = some (d, [','].intercalate texts) := by
    rw [hwhole, (hd.balanced false).splitGroup_group (.intercalate hbalanced)]
  have hregisters : ((internRegisters t (locate start texts)).1.bind (address? e),
      (internRegisters t (locate start texts)).2) = (some (.address e e₁ e₂), t₂) := by
    have hsome : e₁.isSome ∨ e₂.isSome := by rwa [hreads₁.isSome_eq, hreads₂.isSome_eq]
    rcases htexts with rfl | ⟨rfl, rfl⟩
    · rw [locate, locate, locate, hregister₁, hregister₂, internRegisters]
      simp [address?_pair e hsome]
    · cases hreads₂
      rw [locate, locate, hregister₁, internRegisters]
      obtain ⟨x, rfl⟩ : ∃ x, e₁ = some x :=
        Option.isSome_iff_exists.1 (hsome.resolve_right (by simp))
      simp [address?]
  refine ⟨e, e₁, e₂, t, t₁, t₂, hread, hreads₁, hreads₂, ?_⟩
  rw [internMachineOperand, internAddress_of_group hread hd.ne_nil hsplit,
    pieces_intercalate hne hbalanced, hregisters]

/-! ## Operands that are neither -/

theorem unspaced_append {quoted : Bool} :
    Unspaced quoted (cs ++ cs') ↔ Unspaced quoted cs ∧ Unspaced (quotedAfter quoted cs) cs' := by
  induction cs generalizing quoted with
  | nil => simp [Unspaced, quotedAfter]
  | cons c cs ih =>
      rw [List.cons_append, Unspaced, Unspaced, ih, quotedAfter_cons, and_assoc]

/-- The text is a register, or it is empty and a register is left out. -/
def SpellsRegister (p : Piece) (register : Option (OrdinaryExpr NameId)) : Prop :=
  register.isSome ∧ Accepted p.text ∨ register = none ∧ p.text = []

theorem SpellsRegister.nil_or_accepted {register : Option (OrdinaryExpr NameId)}
    (h : SpellsRegister p register) : p.text = [] ∨ Accepted p.text :=
  h.symm.imp And.right And.right

theorem SpellsRegister.ne_nil {register : Option (OrdinaryExpr NameId)}
    (h : SpellsRegister p register) (hgiven : register.isSome) : p.text ≠ [] := by
  rcases h with ⟨-, haccepted⟩ | ⟨rfl, -⟩
  · exact haccepted.ne_nil
  · cases hgiven

/-- Registers that are read are expressions, unless they are left out. -/
theorem spellsRegister_of_internRegisters {ps : List Piece}
    {registers : List (Option (OrdinaryExpr NameId))}
    (h : (internRegisters names ps).1 = some registers) :
    List.Forall₂ SpellsRegister ps registers := by
  induction ps generalizing names registers with
  | nil =>
      cases h
      exact .nil
  | cons p ps ih =>
      rw [internRegisters] at h
      split at h
      · rename_i hnil
        obtain ⟨others, hothers, rfl⟩ := Option.map_eq_some_iff.1 h
        exact .cons (.inr ⟨rfl, hnil⟩) (ih hothers)
      · dsimp only at h
        split at h
        · rename_i e hread
          obtain ⟨others, hothers, rfl⟩ := Option.map_eq_some_iff.1 h
          exact .cons (.inl ⟨rfl, accepted_of_internExpr hread⟩) (ih hothers)
        · cases h

/-- What is read as an address has a displacement in front of the group at its end. -/
theorem exists_of_internAddress {m : MachineOperand} (h : (internAddress names p).1 = some m) :
    ∃ d inner e t, d ≠ [] ∧ splitGroup p.text = some (d, inner) ∧
      internExpr names ⟨p.start, d⟩ = (.ok e, t) := by
  unfold internAddress at h
  split at h
  · cases h
  · cases h
  · rename_i d inner hne hsplit
    cases hread : internExpr names ⟨p.start, d⟩ with
    | mk displacement t =>
        cases displacement with
        | error fault =>
            rw [hread] at h
            cases h
        | ok e => exact ⟨d, inner, e, t, hne, hsplit, hread⟩

/-- A displacement in front of a group with two registers, of which one may be left out. -/
theorem isAddress_pair {d x b : List Char} (hd : Accepted d) (hx : x = [] ∨ Accepted x)
    (hb : b = [] ∨ Accepted b) (hgiven : x ≠ [] ∨ b ≠ []) :
    IsAddress (d ++ '(' :: (x ++ ',' :: (b ++ [')']))) := by
  rcases hx with rfl | hx
  · have hb : Accepted b := hb.resolve_left (hgiven.resolve_left (by simp))
    exact ⟨d, _, _, .second b, hd, by simp, by simpa using hb⟩
  · rcases hb with rfl | hb
    · exact ⟨d, _, _, .firstComma x, hd, by simpa using hx, by simp⟩
    · exact ⟨d, _, _, .both x b, hd, by simpa using hx, by simpa using hb⟩

/-- What is read as an address is one. -/
theorem isAddress_of_internAddress {m : MachineOperand} (h : (internAddress names p).1 = some m)
    (hblanks : Unspaced false p.text) : IsAddress p.text := by
  obtain ⟨d, inner, e, t, hne, hsplit, hread⟩ := exists_of_internAddress h
  have hd : Accepted d := accepted_of_internExpr (congrArg Prod.fst hread)
  rw [internAddress_of_group hread hne hsplit] at h
  obtain ⟨registers, hregisters, haddress⟩ := Option.bind_eq_some_iff.1 h
  have hread := spellsRegister_of_internRegisters hregisters
  -- the displacement closes its apostrophes, so that the group starts outside of them
  have hinner : Unspaced false inner := by
    rw [splitGroup_eq hsplit, unspaced_append, (hd.balanced false).quotedAfter_eq] at hblanks
    have hgroup : Unspaced false (inner ++ [')']) := hblanks.2.2
    exact (unspaced_append.1 hgroup).1
  generalize hps : pieces ⟨p.start.right (d.length + 1), inner⟩ = ps at hread
  have htexts (hne : ps ≠ []) : inner = [','].intercalate (ps.map Piece.text) := by
    rw [← hps, pieces] at hne ⊢
    split
    · simp_all
    · rw [texts_locate, hinner.intercalate_cut]
  rw [splitGroup_eq hsplit]
  have hsome : (address? e registers).isSome := by simp [haddress]
  rcases address?_isSome_iff.1 hsome with ⟨e₁, rfl⟩ | ⟨e₁, e₂, rfl, hgiven⟩
  · obtain ⟨q, ps, hq, hnil, rfl⟩ := List.forall₂_cons_right_iff.1 hread
    obtain rfl := List.forall₂_nil_right_iff.1 hnil
    have hx : Accepted q.text := hq.nil_or_accepted.resolve_left (hq.ne_nil rfl)
    obtain rfl : inner = q.text := by simpa [List.intercalate] using htexts (by simp)
    exact ⟨d, _, _, .first q.text, hd, by simpa using hx, by simp⟩
  · obtain ⟨q, ps, hq, hrest, rfl⟩ := List.forall₂_cons_right_iff.1 hread
    obtain ⟨q', ps, hq', hnil, rfl⟩ := List.forall₂_cons_right_iff.1 hrest
    obtain rfl := List.forall₂_nil_right_iff.1 hnil
    obtain rfl : inner = q.text ++ ',' :: q'.text := by
      simpa [List.intercalate] using htexts (by simp)
    rw [List.append_assoc, List.cons_append]
    exact isAddress_pair hd hq.nil_or_accepted hq'.nil_or_accepted (hgiven.imp hq.ne_nil hq'.ne_nil)

/-- What is neither an address nor an expression is a fault. -/
theorem internMachineOperand_of_neither (hblanks : Unspaced false p.text)
    (haddress : ¬ IsAddress p.text) (hexpr : ¬ Accepted p.text) (names : NameTable) :
    (internMachineOperand names p).1 = .error (invalidExpression p) := by
  unfold internMachineOperand
  split
  · rename_i m names' heq
    exact absurd (isAddress_of_internAddress (congrArg Prod.fst heq) hblanks) haddress
  · rename_i names' heq
    have hfault := internExpr_of_not_accepted hexpr names'
    split
    · rename_i e names'' heq'
      rw [heq'] at hfault
      cases hfault
    · rename_i fault names'' heq'
      rw [heq'] at hfault
      exact congrArg Except.error (Except.error.inj hfault)

/-- A machine operand that is written as an address is read as one: its displacement and its
registers are the expressions that its parts spell, where they stand, and a register that is left
out is none. An operand that is an expression as a whole is read as that expression. Any other
operand without a blank outside of apostrophes, and a field is cut at such blanks, is a fault. No
operand is both an address and an expression. -/
theorem internMachineOperand_unambiguous (names : NameTable) (p : Piece) :
    (∀ d first second, AddressText d p.text first second → Accepted d →
      (∀ x ∈ first, Accepted x) → (∀ b ∈ second, Accepted b) →
      ∃ e e₁ e₂ t t₁ t₂, internExpr names ⟨p.start, d⟩ = (.ok e, t) ∧
        ReadsRegister t (p.start.right (d.length + 1)) first e₁ t₁ ∧
        ReadsRegister t₁ ((p.start.right (d.length + 1)).right ((first.getD []).length + 1)) second
          e₂ t₂ ∧
        internMachineOperand names p = (.ok (.address e e₁ e₂), t₂)) ∧
    (Accepted p.text → ∃ e t, internExpr names p = (.ok e, t) ∧
      internMachineOperand names p = (.ok (.expr e), t)) ∧
    (Unspaced false p.text → ¬ IsAddress p.text → ¬ Accepted p.text →
      (internMachineOperand names p).1 = .error (invalidExpression p)) ∧
    ¬ (IsAddress p.text ∧ Accepted p.text) := by
  refine ⟨fun d first second htext hd hfirst hsecond => ?_, fun hexpr => ?_,
    fun hblanks haddress hexpr => internMachineOperand_of_neither hblanks haddress hexpr names,
    fun h => not_accepted_of_address h.1 h.2⟩
  · exact internMachineOperand_of_address htext hd hfirst hsecond names
  · obtain ⟨e, t, hread⟩ := hexpr.internExpr names
    exact ⟨e, t, hread, internMachineOperand_of_expr hread⟩

/-- `C'(,'((A),C'))')`, where the displacement and the second register quote parentheses. -/
def quotingAddress : Piece := ⟨{}, "C'(,'((A),C'))')".toList⟩

theorem internMachineOperand_quotingAddress :
    ∃ e e₁ e₂ t t₁ t₂, internExpr {} ⟨{}, "C'(,'".toList⟩ = (.ok e, t) ∧
      ReadsRegister t ⟨0, 6⟩ (some "(A)".toList) e₁ t₁ ∧
      ReadsRegister t₁ ⟨0, 10⟩ (some "C'))'".toList) e₂ t₂ ∧
      internMachineOperand {} quotingAddress = (.ok (.address e e₁ e₂), t₂) ∧
      ¬ Accepted quotingAddress.text := by
  have htext : AddressText "C'(,'".toList quotingAddress.text (some "(A)".toList)
      (some "C'))'".toList) := by
    have heq : quotingAddress.text =
        "C'(,'".toList ++ '(' :: ("(A)".toList ++ ',' :: ("C'))'".toList ++ [')'])) := by
      decide +kernel
    rw [heq]
    exact .both _ _
  have hd : Accepted "C'(,'".toList := by
    have hterm : IsPrimary ('C' :: '\'' :: (['(', ','] ++ ['\''])) (.constant 0x282C {}) :=
      .selfDefining (by decide) (by decide +kernel)
    exact accepted_iff.2 ⟨_, .product (.factor (.primary hterm))⟩
  have hx : Accepted "(A)".toList := by
    have hsymbol : IsPrimary ['A'] (.symbol (Text.upper (String.ofList ['A'])) {}) :=
      .symbol (by simp) (by simp; decide) (by simp)
    exact accepted_iff.2
      ⟨_, .product (.factor (.primary (.group (.product (.factor (.primary hsymbol))))))⟩
  have hb : Accepted "C'))'".toList := by
    have hterm : IsPrimary ('C' :: '\'' :: ([')', ')'] ++ ['\''])) (.constant 0x2929 {}) :=
      .selfDefining (by decide) (by decide +kernel)
    exact accepted_iff.2 ⟨_, .product (.factor (.primary hterm))⟩
  have hfirst : ∀ cs ∈ some "(A)".toList, Accepted cs := by
    rintro cs ⟨⟩
    exact hx
  have hsecond : ∀ cs ∈ some "C'))'".toList, Accepted cs := by
    rintro cs ⟨⟩
    exact hb
  obtain ⟨haddress, -, -, hboth⟩ := internMachineOperand_unambiguous {} quotingAddress
  obtain ⟨e, e₁, e₂, t, t₁, t₂, hread, hreads₁, hreads₂, hoperand⟩ :=
    haddress _ _ _ htext hd hfirst hsecond
  exact ⟨e, e₁, e₂, t, t₁, t₂, hread, hreads₁, hreads₂, hoperand,
    fun hexpr => hboth ⟨⟨_, _, _, htext, hd, hfirst, hsecond⟩, hexpr⟩⟩

end MacroAssembler.Field
