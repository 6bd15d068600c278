import MacroAssembler.Proofs.Field.Grammar

/-!
# Self-defining terms

A letter and a text between apostrophes is an expression exactly if the text gives the digits of a
word in the base of the letter, or the letter asks for characters and there are one to four bytes of
them. The digits may have a plus sign in front. The expression is the number that the digits denote,
or the bytes with the first of them the most significant, read with a sign
(`internExpr_selfDefining_iff`).
-/

namespace MacroAssembler.Field

/-! ## What a term denotes -/

/-- The base of the digits that a letter asks for. -/
def baseOf? : Char → Option Nat
  | 'X' | 'x' => some 16
  | 'B' | 'b' => some 2
  | _ => none

/-- The number that bytes make up, the first of them the most significant. -/
def bigEndian : List UInt8 → Nat
  | [] => 0
  | b :: rest => b.toNat * 256 ^ rest.length + bigEndian rest

/-- The bytes of a text in UTF-8. -/
def bytesOf (cs : List Char) : List UInt8 := (String.ofList cs).toUTF8.data.toList

/-- The number that a term denotes, by its letter and the text between the apostrophes. -/
inductive Denotes : Char → List Char → Nat → Prop where
  | digits {kind : Char} {base : Nat} {body : List Char} : baseOf? kind = some base →
      Numeral.IsPattern base body → Denotes kind body (Numeral.valueOf base body)
  | characters {kind : Char} {body : List Char} : kind = 'C' ∨ kind = 'c' → body ≠ [] →
      Text.byteLength body ≤ 4 → Denotes kind body (bigEndian (bytesOf body))

/-- The number that a term with a plus sign in front of its digits denotes. -/
inductive PlusDenotes : Char → List Char → Nat → Prop where
  | digits {kind : Char} {base : Nat} {body : List Char} : baseOf? kind = some base →
      Numeral.IsPattern base body → PlusDenotes kind ('+' :: body) (Numeral.valueOf base body)

/-! ## Bytes -/

theorem length_bytesOf (cs : List Char) : (bytesOf cs).length = Text.byteLength cs := by
  have hlength : (bytesOf cs).length = (String.ofList cs).utf8ByteSize := rfl
  rw [hlength, String.utf8ByteSize_ofList]
  induction cs with
  | nil => rfl
  | cons c cs ih => rw [String.utf8Len_cons, ih rfl, Text.byteLength, Nat.add_comm]

/-- A byte is put behind the bytes before, as long as these leave room for it. -/
theorem toNat_shiftLeft_or {w : UInt32} (b : UInt8) (hw : (w.toNat + 1) * 256 ≤ UInt32.size) :
    (w <<< (8 : UInt32) ||| b.toUInt32).toNat = w.toNat * 256 + b.toNat := by
  have hb : b.toNat < 2 ^ 8 := b.toNat_lt
  have hsize : UInt32.size = 2 ^ 32 := rfl
  have hshift : (w <<< (8 : UInt32)).toNat = w.toNat <<< 8 := by
    rw [UInt32.toNat_shiftLeft]
    change w.toNat <<< 8 % 2 ^ 32 = _
    rw [Nat.shiftLeft_eq]
    exact Nat.mod_eq_of_lt (by omega)
  rw [UInt32.toNat_or, hshift, UInt8.toNat_toUInt32, ← Nat.shiftLeft_add_eq_or_of_lt hb,
    Nat.shiftLeft_eq]

/-- Bytes are put behind the bytes before, as long as these leave room for them. -/
theorem toNat_foldl_shiftLeft_or (bytes : List UInt8) (w : UInt32)
    (hw : (w.toNat + 1) * 256 ^ bytes.length ≤ UInt32.size) :
    (bytes.foldl (fun w b => (w <<< (8 : UInt32)) ||| b.toUInt32) w).toNat =
      w.toNat * 256 ^ bytes.length + bigEndian bytes := by
  induction bytes generalizing w with
  | nil => simp [bigEndian]
  | cons b rest ih =>
      rw [List.length_cons, Nat.pow_succ', ← Nat.mul_assoc] at hw
      have hroom : (w.toNat + 1) * 256 ≤ UInt32.size :=
        (Nat.le_mul_of_pos_right _ (by positivity)).trans hw
      have hnext := toNat_shiftLeft_or b hroom
      have hle : w.toNat * 256 + b.toNat + 1 ≤ (w.toNat + 1) * 256 := by
        have := b.toNat_lt
        omega
      rw [List.foldl_cons, ih, hnext, bigEndian, List.length_cons]
      · ring
      · rw [hnext]
        exact (Nat.mul_le_mul_right _ hle).trans hw

/-- Up to four bytes make up a word. -/
theorem toNat_wordOfBytes {bytes : List UInt8} (h : bytes.length ≤ 4) :
    (wordOfBytes bytes).toNat = bigEndian bytes := by
  have hroom : ((0 : UInt32).toNat + 1) * 256 ^ bytes.length ≤ UInt32.size :=
    calc ((0 : UInt32).toNat + 1) * 256 ^ bytes.length
        = 256 ^ bytes.length := Nat.one_mul _
      _ ≤ 256 ^ 4 := Nat.pow_le_pow_right (by decide) h
  simpa [wordOfBytes] using toNat_foldl_shiftLeft_or bytes 0 hroom

/-! ## The value of a term -/

section Values

variable {kind : Char} {base : Nat} {body : List Char}

theorem base_le_of_baseOf? (h : baseOf? kind = some base) : base ≤ 36 := by
  unfold baseOf? at h
  split at h <;> cases h <;> decide

/-- The letter of a base does not ask for characters. -/
theorem not_characters_of_baseOf? (h : baseOf? kind = some base) : ¬ (kind = 'C' ∨ kind = 'c') := by
  rintro (rfl | rfl) <;> cases h

theorem selfDefining?_digits (h : baseOf? kind = some base) :
    selfDefining? kind body = Numeral.pattern? base body := by
  unfold baseOf? at h
  split at h <;> cases h <;> rfl

theorem selfDefining?_characters (h : kind = 'C' ∨ kind = 'c') : selfDefining? kind body =
    if body ≠ [] ∧ Text.byteLength body ≤ 4 then some (Int32.ofNat (bigEndian (bytesOf body)))
    else none := by
  have hword (hle : Text.byteLength body ≤ 4) :
      (wordOfBytes (bytesOf body)).toInt32 = Int32.ofNat (bigEndian (bytesOf body)) := by
    rw [← length_bytesOf] at hle
    rw [← toNat_wordOfBytes hle, ← UInt32.toInt32_ofNat', UInt32.ofNat_toNat]
  have hvalue : selfDefining? kind body =
      if body ≠ [] ∧ Text.byteLength body ≤ 4 then some (wordOfBytes (bytesOf body)).toInt32
      else none := by
    obtain rfl | rfl := h <;> rfl
  rw [hvalue]
  split
  · rename_i hbytes
    rw [hword hbytes.2]
  · rfl

theorem selfDefining?_eq_none (hbase : baseOf? kind = none) (hkind : ¬ (kind = 'C' ∨ kind = 'c')) :
    selfDefining? kind body = none := by
  unfold selfDefining?
  split
  · rename_i hupper
    obtain rfl | rfl := (@Text.toUpper_eq_iff kind 'X' 'x' rfl rfl).1 hupper <;> cases hbase
  · rename_i hupper
    obtain rfl | rfl := (@Text.toUpper_eq_iff kind 'B' 'b' rfl rfl).1 hupper <;> cases hbase
  · rename_i hupper
    exact absurd ((@Text.toUpper_eq_iff kind 'C' 'c' rfl rfl).1 hupper) hkind
  · rfl

variable {n : Nat}

theorem denotes_digits_iff (h : baseOf? kind = some base) :
    Denotes kind body n ↔ Numeral.IsPattern base body ∧ Numeral.valueOf base body = n := by
  constructor
  · intro hdenotes
    cases hdenotes with
    | digits h' hpattern =>
        cases h.symm.trans h'
        exact ⟨hpattern, rfl⟩
    | characters hkind => exact absurd hkind (not_characters_of_baseOf? h)
  · rintro ⟨hpattern, rfl⟩
    exact .digits h hpattern

theorem plusDenotes_digits_iff (h : baseOf? kind = some base) : PlusDenotes kind body n ↔
    ∃ digits, body = '+' :: digits ∧ Numeral.IsPattern base digits ∧
      Numeral.valueOf base digits = n := by
  constructor
  · rintro ⟨h', hpattern⟩
    cases h.symm.trans h'
    exact ⟨_, rfl, hpattern, rfl⟩
  · rintro ⟨digits, rfl, hpattern, rfl⟩
    exact .digits h hpattern

theorem denotes_characters_iff (h : baseOf? kind = none) : Denotes kind body n ↔
    (kind = 'C' ∨ kind = 'c') ∧ (body ≠ [] ∧ Text.byteLength body ≤ 4) ∧
      bigEndian (bytesOf body) = n := by
  constructor
  · intro hdenotes
    cases hdenotes with
    | digits h' => cases h.symm.trans h'
    | characters hkind hne hle => exact ⟨hkind, ⟨hne, hle⟩, rfl⟩
  · rintro ⟨hkind, ⟨hne, hle⟩, rfl⟩
    exact .characters hkind hne hle

theorem not_plusDenotes (h : baseOf? kind = none) : ¬ PlusDenotes kind body n := by
  rintro ⟨h', -⟩
  cases h.symm.trans h'

/-- A term has a value exactly if it denotes a number, which its value has as its pattern. -/
theorem selfDefining?_eq_some_iff {value : Int32} : selfDefining? kind body = some value ↔
    ∃ n, (Denotes kind body n ∨ PlusDenotes kind body n) ∧ value = Int32.ofNat n := by
  cases hbase : baseOf? kind with
  | some base =>
      rw [selfDefining?_digits hbase, Numeral.pattern?_eq_some_iff (base_le_of_baseOf? hbase)]
      simp only [denotes_digits_iff hbase, plusDenotes_digits_iff hbase]
      constructor
      · rintro ⟨digits, rfl | rfl, hpattern, rfl⟩
        · exact ⟨_, .inl ⟨hpattern, rfl⟩, rfl⟩
        · exact ⟨_, .inr ⟨digits, rfl, hpattern, rfl⟩, rfl⟩
      · rintro ⟨n, ⟨hpattern, rfl⟩ | ⟨digits, rfl, hpattern, rfl⟩, rfl⟩
        · exact ⟨body, .inl rfl, hpattern, rfl⟩
        · exact ⟨digits, .inr rfl, hpattern, rfl⟩
  | none =>
      simp only [denotes_characters_iff hbase, not_plusDenotes hbase, or_false]
      by_cases hkind : kind = 'C' ∨ kind = 'c'
      · rw [selfDefining?_characters hkind, Option.ite_none_right_eq_some, Option.some_inj]
        constructor
        · rintro ⟨hbytes, rfl⟩
          exact ⟨_, ⟨hkind, hbytes, rfl⟩, rfl⟩
        · rintro ⟨n, ⟨-, hbytes, rfl⟩, rfl⟩
          exact ⟨hbytes, rfl⟩
      · rw [selfDefining?_eq_none hbase hkind]
        simp [hkind]

end Values

/-! ## Reading a term -/

section Reading

variable {stop : Position} {cs rest : List Char} {e : OrdinaryExpr String}

/-- A factor behind which no operator stands is the whole sum. -/
theorem readSum_of_readFactor {hlt : rest.length < cs.length}
    (h : readFactor stop cs = .ok ⟨(e, rest), hlt⟩)
    (hrest : ∀ c ∈ rest.head?, multiplicative? c = none ∧ additive? c = none) :
    readSum stop cs = .ok ⟨(e, rest), hlt⟩ := by
  have hproduct : readProduct stop cs = .ok ⟨(e, rest), hlt⟩ := by
    rw [readProduct, h]
    cases rest with
    | nil => simp only [extendProduct]
    | cons c rest => simp only [extendProduct, (hrest c rfl).1]
  rw [readSum, hproduct]
  cases rest with
  | nil => simp only [extendSum]
  | cons c rest => simp only [extendSum, (hrest c rfl).2]

/-- No factor is no sum. -/
theorem readSum_of_readFactor_error {names : List String} (h : readFactor stop cs = .error names) :
    readSum stop cs = .error names := by
  rw [readSum, readProduct, h]

/-- No expression starts with an apostrophe. -/
theorem readFactor_apostrophe (stop : Position) (cs : List Char) :
    readFactor stop ('\'' :: cs) = .error [] := by
  have hnone : readSelfDefining ('\'' :: cs) = none := by
    refine Option.eq_none_iff_forall_ne_some.2 fun found h => ?_
    obtain ⟨⟨value, after⟩, hlt⟩ := found
    obtain ⟨kind, body, heq, -, hvalue⟩ := readSelfDefining_eq h
    obtain ⟨rfl, -⟩ := List.cons.inj heq
    exact absurd (isAlpha_of_selfDefining hvalue) (by decide)
  have hname : Text.isNameChar '\'' = false := by decide
  rw [readFactor_eq_readAtom stop (by simp)]
  simp only [readAtom, hnone, hname]
  rfl

variable {kind : Char} {body : List Char}

/-- Of a text that is like a term, but is none, no more is read than the letter. -/
theorem readFactor_of_not_selfDefining (stop : Position) (hbody : '\'' ∉ body)
    (hnone : selfDefining? kind body = none) :
    (∃ names, readFactor stop (kind :: '\'' :: (body ++ ['\''])) = .error names) ∨
      ∃ e hlt, readFactor stop (kind :: '\'' :: (body ++ ['\''])) =
        .ok ⟨(e, '\'' :: (body ++ ['\''])), hlt⟩ := by
  by_cases hplus : kind = '+'
  · subst hplus
    rw [readFactor, readFactor_apostrophe]
    exact .inl ⟨_, rfl⟩
  by_cases hminus : kind = '-'
  · subst hminus
    rw [readFactor, readFactor_apostrophe]
    exact .inl ⟨_, rfl⟩
  by_cases hopen : kind = '('
  · subst hopen
    rw [readFactor, readSum_of_readFactor_error (readFactor_apostrophe stop _)]
    exact .inl ⟨_, rfl⟩
  rw [readFactor_eq_readAtom stop (by simp [hplus, hminus, hopen])]
  have hdigit : '\''.isDigit = false := by decide
  have hname : Text.isNameChar '\'' = false := by decide
  simp only [readAtom, readSelfDefining_eq_none hbody hnone, List.takeWhile_cons,
    List.dropWhile_cons, hdigit, hname, Bool.false_eq_true, if_false]
  split
  · split
    · exact .inr ⟨_, Nat.lt_succ_self _, rfl⟩
    · exact .inl ⟨_, rfl⟩
  · split
    · exact .inr ⟨_, Nat.lt_succ_self _, rfl⟩
    · exact .inl ⟨_, rfl⟩

/-- A text that is like a term, but is none, is no expression. -/
theorem readExpr_of_not_selfDefining {p : Piece} (htext : p.text = kind :: '\'' :: (body ++ ['\'']))
    (hbody : '\'' ∉ body) (hnone : selfDefining? kind body = none) :
    ∃ names, readExpr p = .error names := by
  obtain ⟨start, text⟩ := p
  obtain rfl : text = _ := htext
  have hrest : ∀ c ∈ ('\'' :: (body ++ ['\''])).head?,
      multiplicative? c = none ∧ additive? c = none := by
    simp [multiplicative?, additive?]
  unfold readExpr
  rcases readFactor_of_not_selfDefining (Piece.mk start _).stop hbody hnone with
    ⟨names, h⟩ | ⟨e, hlt, h⟩
  · rw [readSum_of_readFactor_error h]
    exact ⟨_, rfl⟩
  · rw [readSum_of_readFactor h hrest]
    exact ⟨_, rfl⟩

/-- The whole text of a piece takes all of its columns. -/
theorem span_nil (p : Piece) : span p.stop p.text [] = p.range := by
  simp [span, placeOf, Piece.range, Piece.stop, Position.right]

/-- A term is the constant of its value, which takes all columns of the text. -/
theorem readExpr_selfDefining {p : Piece} (htext : p.text = kind :: '\'' :: (body ++ ['\'']))
    (hbody : '\'' ∉ body) {value : Int32} (hvalue : selfDefining? kind body = some value) :
    readExpr p = .ok (.constant value p.range) := by
  rw [← span_nil]
  obtain ⟨start, text⟩ := p
  obtain rfl : text = _ := htext
  unfold readExpr
  obtain ⟨hlt, hread⟩ := readFactor_selfDefining (Piece.mk start _).stop hbody hvalue []
  rw [readSum_of_readFactor hread (by simp)]

end Reading

/-- A letter and a text between apostrophes is an expression exactly if it denotes a number, where
the digits may have a plus sign in front. It is then the constant with the pattern of that number,
takes all columns of the text, and no name is learned. A term denotes no number as it stands if its
digits have a plus sign in front. -/
theorem internExpr_selfDefining_iff (names : NameTable) {p : Piece} {kind : Char} {body : List Char}
    (htext : p.text = kind :: '\'' :: (body ++ ['\''])) (hbody : '\'' ∉ body) :
    ((∃ e, (internExpr names p).1 = .ok e) ↔
      ∃ n, Denotes kind body n ∨ PlusDenotes kind body n) ∧
    (∀ n, Denotes kind body n ∨ PlusDenotes kind body n → ∃ value : Int32,
      internExpr names p = (.ok (.constant value p.range), names) ∧
      value.toInt = (n : Int).bmod (2 ^ 32)) ∧
    ((∃ n, PlusDenotes kind body n) → ¬ ∃ n, Denotes kind body n) := by
  have hread {n : Nat} (h : Denotes kind body n ∨ PlusDenotes kind body n) :
      internExpr names p = (.ok (.constant (Int32.ofNat n) p.range), names) := by
    have hvalue := selfDefining?_eq_some_iff.2 ⟨n, h, rfl⟩
    rw [internExpr, readExpr_selfDefining htext hbody hvalue]
    rfl
  refine ⟨⟨?_, ?_⟩, fun n h => ⟨_, hread h, Int32.toInt_ofNat'⟩, ?_⟩
  · rintro ⟨e, he⟩
    cases hvalue : selfDefining? kind body with
    | some value =>
        obtain ⟨n, h, -⟩ := selfDefining?_eq_some_iff.1 hvalue
        exact ⟨n, h⟩
    | none =>
        obtain ⟨seen, herror⟩ := readExpr_of_not_selfDefining htext hbody hvalue
        simp [internExpr, herror] at he
  · rintro ⟨n, h⟩
    exact ⟨_, by rw [hread h]⟩
  · rintro ⟨n, ⟨hbase, -⟩⟩ ⟨m, h⟩
    obtain ⟨hpattern, -⟩ := (denotes_digits_iff hbase).1 h
    exact hpattern.ne_cons_plus (base_le_of_baseOf? hbase) _ rfl

/-- All bits of a word, and a character of two bytes. -/
theorem internExpr_selfDefining_extremes :
    let read text := internExpr {} ⟨{}, String.toList text⟩
    (∃ value r, read "X'FFFFFFFF'" = (.ok (.constant value r), {}) ∧ value.toInt = -1) ∧
    ∃ value r, read "c'Ä'" = (.ok (.constant value r), {}) ∧ value.toInt = 0xC384 := by
  intro read
  have hpattern : Numeral.IsPattern 16 "FFFFFFFF".toList :=
    ⟨by decide, by simp [Numeral.isDigitOf, Numeral.digitValue], by decide⟩
  have hcharacters : Denotes 'c' "Ä".toList (bigEndian (bytesOf "Ä".toList)) :=
    .characters (.inr rfl) (by decide) (by decide)
  obtain ⟨-, hvalue, -⟩ := @internExpr_selfDefining_iff {} ⟨{}, "X'FFFFFFFF'".toList⟩ 'X'
    "FFFFFFFF".toList (by decide) (by decide)
  obtain ⟨-, hvalue', -⟩ := @internExpr_selfDefining_iff {} ⟨{}, "c'Ä'".toList⟩ 'c'
    "Ä".toList (by decide) (by decide)
  obtain ⟨value, hread, hint⟩ := hvalue _ (.inl (.digits rfl hpattern))
  obtain ⟨value', hread', hint'⟩ := hvalue' _ (.inl hcharacters)
  exact ⟨⟨value, _, hread, hint.trans (by decide +kernel)⟩,
    value', _, hread', hint'.trans (by decide +kernel)⟩

/-- A digit with a plus sign in front is no row of digits, but is read as one. -/
theorem plusDigit_selfDefines :
    internExpr {} ⟨{}, "X'+F'".toList⟩ = (.ok (.constant 15 ⟨{}, ⟨0, 5⟩⟩), {}) ∧
    ¬ ∃ n, Denotes 'X' "+F".toList n := by
  have hvalue : selfDefining? 'X' "+F".toList = some 15 := by decide
  have htext : "X'+F'".toList = 'X' :: '\'' :: ("+F".toList ++ ['\'']) := by decide
  have hread := @readExpr_selfDefining 'X' "+F".toList ⟨{}, "X'+F'".toList⟩ htext
    (by decide) 15 hvalue
  refine ⟨by rw [internExpr, hread]; rfl, ?_⟩
  rintro ⟨n, h⟩
  obtain ⟨hpattern, -⟩ := (@denotes_digits_iff 'X' 16 _ _ rfl).1 h
  exact hpattern.ne_cons_plus (by decide) _ rfl

end MacroAssembler.Field
