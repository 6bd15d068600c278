import MacroAssembler.Conditional.Evaluation
import MacroAssembler.Proofs.Numerals

/-!
# Conversions between notations

A number is given as itself, or as a text: its bits, its hexadecimal digits, or its decimal digits
with a sign. A function that converts reads one of the four and writes another. Since each reads
what the others write for it, conversions agree whichever notations they take a number through
(`conversions_commute`).
-/

namespace MacroAssembler.Conditional

/-! ## Each notation is read as it is written -/

section Notations

variable (width : Nat) (i : Int32)

theorem bits?_eq {base : Nat} {s : String} (h : s ≠ "") :
    bits? base s = Numeral.pattern? base s.toList :=
  if_neg fun hempty => h (String.isEmpty_iff.1 hempty)

/-- A word is read back from its digits, however many zeros stand in front. -/
theorem bits?_pad_write {base : Nat} (hbase : 1 < base) (hle : base ≤ 16) :
    bits? base (String.ofList (Numeral.pad width (Numeral.write base i.toUInt32.toNat))) =
      some i := by
  have hne : String.ofList (Numeral.pad width (Numeral.write base i.toUInt32.toNat)) ≠ "" := by
    intro h
    exact Numeral.pad_ne_nil width (Numeral.write_ne_nil _) (String.ofList_eq_empty_iff.1 h)
  rw [bits?_eq hne, String.toList_ofList, Numeral.pattern?_pad_write hbase hle]

@[simp] theorem bits?_binary : bits? 2 (Numeral.binary width i) = some i :=
  bits?_pad_write width i (by decide) (by decide)

@[simp] theorem bits?_hexadecimal : bits? 16 (Numeral.hexadecimal width i) = some i :=
  bits?_pad_write width i (by decide) (by decide)

theorem not_isBlank_of_isDigit {c : Char} (h : c.isDigit) : ¬ Text.isBlank c := by
  have hrange : 48 ≤ c.toNat ∧ c.toNat ≤ 57 := by
    simp only [Char.isDigit, Bool.and_eq_true, decide_eq_true_eq] at h
    exact h
  simp only [Text.isBlank, Bool.or_eq_true, Bool.and_eq_true, decide_eq_true_eq, beq_iff_eq]
  omega

/-- A number is written without blanks. -/
theorem not_isBlank_of_mem_write {n : Nat} : ∀ c ∈ Numeral.write 10 n, ¬ Text.isBlank c := by
  intro c hc
  rw [Numeral.write_ten] at hc
  exact not_isBlank_of_isDigit (Nat.isDigit_of_mem_toDigits (by decide) le_rfl hc)

@[simp] theorem number?_decimal : number? (Numeral.decimal i) = some i := by
  have hblank : ∀ c ∈ (Numeral.decimal i).toList, ¬ Text.isBlank c := by
    rw [Numeral.toList_decimal]
    split
    · exact List.forall_mem_cons.2 ⟨by decide, not_isBlank_of_mem_write⟩
    · exact not_isBlank_of_mem_write
  rw [number?, Text.trim_eq_self hblank, Numeral.integer?_decimal]

@[simp] theorem number?_signed : number? (Numeral.signed i) = some i := by
  have hblank : ∀ c ∈ (Numeral.signed i).toList, ¬ Text.isBlank c := by
    rw [Numeral.toList_signed]
    refine List.forall_mem_cons.2 ⟨?_, not_isBlank_of_mem_write⟩
    split <;> decide
  rw [number?, Text.trim_eq_self hblank, Numeral.integer?_signed]

end Notations

/-! ## What a conversion writes -/

section Functions

variable {s : String} {i : Int32}

/-- A text that is read as bits is converted by the number it denotes. -/
theorem apply_fromBits (h : bits? 2 s = some i) :
    applyFunction .b2a [.character s] = .ok (.arithmetic i) ∧
    applyFunction .b2d [.character s] = .ok (.character (Numeral.signed i)) ∧
    applyFunction .b2x [.character s] = .ok (.character (Numeral.hexadecimal 0 i)) := by
  simp [applyFunction, Function.needsProgram, applyToText, h]

/-- A text that is read in decimal is converted by the number it denotes. -/
theorem apply_fromDecimal (h : number? s = some i) :
    applyFunction .d2a [.character s] = .ok (.arithmetic i) ∧
    applyFunction .d2b [.character s] = .ok (.character (Numeral.binary 32 i)) ∧
    applyFunction .d2x [.character s] = .ok (.character (Numeral.hexadecimal 0 i)) := by
  simp [applyFunction, Function.needsProgram, applyToText, h]

/-- A text that is read in hexadecimal is converted by the number it denotes; each digit gives four
bits. -/
theorem apply_fromHexadecimal (h : bits? 16 s = some i) :
    applyFunction .x2b [.character s] =
      .ok (.character (Numeral.binary (4 * Text.byteLength s.toList) i)) ∧
    applyFunction .x2d [.character s] = .ok (.character (Numeral.signed i)) := by
  simp [applyFunction, Function.needsProgram, applyToText, h]

variable {lookup : VariableSymbol → Option Value} {e : Expr} {v : Value} {place : Function → Range}

/-- A function of one argument is applied to the value of that argument. -/
theorem evaluate_call {f : Function} (hf : f.arity = 1) (h : e.evaluate lookup = .ok v)
    (range : Range) : (Expr.call f [e] range).evaluate lookup = applyFunction f [v] := by
  rw [Expr.evaluate, if_neg (by rw [List.length_singleton, hf]; exact not_not.2 rfl),
    Expr.evaluateEach, h]
  rfl

/-- Functions of one argument, each called on the value of the next, and the last on an
expression. -/
def nested (place : Function → Range) (fs : List Function) (e : Expr) : Expr :=
  fs.foldr (fun f e => .call f [e] (place f)) e

theorem evaluate_nested_cons {f : Function} {fs : List Function} (hf : f.arity = 1)
    (h : (nested place fs e).evaluate lookup = .ok v) :
    (nested place (f :: fs) e).evaluate lookup = applyFunction f [v] :=
  evaluate_call hf h (place f)

end Functions

/-! ## Conversions agree -/

section Agreement

variable {s : String} {i : Int32}

/-- Each digit takes a byte. -/
theorem byteLength_of_digits {base : Nat} (hbase : base ≤ 36)
    (hdigits : ∀ c ∈ s.toList, Numeral.isDigitOf base c) :
    Text.byteLength s.toList = s.length := by
  rw [← String.length_toList, Text.byteLength_eq_length_iff]
  exact fun c hc => Numeral.utf8Size_of_isDigitOf hbase (hdigits c hc)

/-- A word has eight hexadecimal digits. -/
theorem byteLength_hexadecimal : Text.byteLength (Numeral.hexadecimal 8 i).toList = 8 := by
  have hdigits : ∀ c ∈ (Numeral.hexadecimal 8 i).toList, Numeral.isDigitOf 16 c := by
    rw [Numeral.hexadecimal, String.toList_ofList]
    exact Numeral.isDigitOf_of_mem_pad _ (by decide)
      (Numeral.isDigitOf_of_mem_write _ (by decide) (by decide))
  rw [byteLength_of_digits (by decide) hdigits, Numeral.hexadecimal, ← String.length_toList,
    String.toList_ofList]
  exact Numeral.length_pad_write (by decide) (by decide) i.toUInt32.toNat_lt

/-- A text of at most eight hexadecimal digits denotes the word whose pattern is its value. -/
theorem bits?_of_digits (hne : s ≠ "") (hlength : s.length ≤ 8)
    (hdigits : ∀ c ∈ s.toList, Numeral.isDigitOf 16 c) :
    ∃ i, bits? 16 s = some i ∧ i.toUInt32.toNat < 16 ^ s.length := by
  have hpattern : Numeral.IsPattern 16 s.toList :=
    Numeral.isPattern_of_length_le (by decide) (String.toList_eq_nil_iff.not.2 hne) hdigits
      (String.length_toList.trans_le hlength) (by decide)
  refine ⟨Int32.ofNat (Numeral.valueOf 16 s.toList), ?_, ?_⟩
  · rw [bits?_eq hne]
    exact hpattern.pattern?_eq (by decide)
  · rw [Numeral.toNat_toUInt32_ofNat hpattern.fits, ← String.length_toList]
    exact Numeral.valueOf_lt hdigits

/-- Each digit of so small a number is written with four bits. -/
theorem length_binary {k : Nat} (hk : 0 < k) (h : i.toUInt32.toNat < 16 ^ k) :
    (Numeral.binary (4 * k) i).length = 4 * k := by
  rw [Numeral.binary, ← String.length_toList, String.toList_ofList]
  refine Numeral.length_pad_write (by decide) (by omega) ?_
  rwa [Nat.pow_mul]

theorem mem_binary (width : Nat) : ∀ c ∈ (Numeral.binary width i).toList, c = '0' ∨ c = '1' := by
  intro c hc
  rw [Numeral.binary, String.toList_ofList] at hc
  exact Numeral.isDigitOf_two (Numeral.isDigitOf_of_mem_pad _ (by decide)
    (Numeral.isDigitOf_of_mem_write _ (by decide) (by decide)) c hc)

variable (lookup : VariableSymbol → Option Value) (place : Function → Range)

/-- A number comes back from a conversion to bits or to decimal and from the function that writes
it. The decimal numeral, the bits and the hexadecimal digits of a number are the same whichever
notation they are converted from. A nonempty text of at most eight hexadecimal digits is converted
to four bits for each digit, and these denote the number that the text denotes. -/
theorem conversions_commute :
    (∀ (e : Expr) (i : Int32), e.evaluate lookup = .ok (.arithmetic i) →
      let value fs := (nested place fs e).evaluate lookup
      value [.b2a, .a2b] = .ok (.arithmetic i) ∧
      value [.d2a, .a2d] = .ok (.arithmetic i) ∧
      value [.d2a, .signed] = .ok (.arithmetic i) ∧
      (∃ d, value [.a2d] = .ok (.character d) ∧ value [.b2d, .a2b] = .ok (.character d) ∧
        value [.x2d, .a2x] = .ok (.character d) ∧ value [.x2d, .d2x, .a2d] = .ok (.character d)) ∧
      (∃ b, value [.a2b] = .ok (.character b) ∧ value [.d2b, .a2d] = .ok (.character b) ∧
        value [.x2b, .a2x] = .ok (.character b)) ∧
      ∃ x, value [.b2x, .a2b] = .ok (.character x) ∧ value [.d2x, .a2d] = .ok (.character x)) ∧
    (∀ (e : Expr) (s : String), e.evaluate lookup = .ok (.character s) →
      s ≠ "" → s.length ≤ 8 → (∀ c ∈ s.toList, Numeral.isDigitOf 16 c) →
      let value fs := (nested place fs e).evaluate lookup
      ∃ bits d, value [.x2b] = .ok (.character bits) ∧ bits.length = 4 * s.length ∧
        (∀ c ∈ bits.toList, c = '0' ∨ c = '1') ∧
        value [.b2d, .x2b] = .ok (.character d) ∧ value [.x2d] = .ok (.character d)) := by
  constructor
  · intro e i he value
    have hself : value [] = .ok (.arithmetic i) := he
    -- what is written for the number itself
    have ha2b : value [.a2b] = .ok (.character (Numeral.binary 32 i)) :=
      (evaluate_nested_cons rfl hself).trans rfl
    have ha2d : value [.a2d] = .ok (.character (Numeral.signed i)) :=
      (evaluate_nested_cons rfl hself).trans rfl
    have ha2x : value [.a2x] = .ok (.character (Numeral.hexadecimal 8 i)) :=
      (evaluate_nested_cons rfl hself).trans rfl
    have hsigned : value [.signed] = .ok (.character (Numeral.decimal i)) :=
      (evaluate_nested_cons rfl hself).trans rfl
    -- what is written for the number that is read from those
    obtain ⟨hb2a, hb2d, hb2x⟩ := apply_fromBits (bits?_binary 32 i)
    obtain ⟨hd2a, hd2b, hd2x⟩ := apply_fromDecimal (number?_signed i)
    obtain ⟨hd2a', -, -⟩ := apply_fromDecimal (number?_decimal i)
    obtain ⟨hx2b, hx2d⟩ := apply_fromHexadecimal (bits?_hexadecimal 8 i)
    obtain ⟨-, hx2d'⟩ := apply_fromHexadecimal (bits?_hexadecimal 0 i)
    rw [byteLength_hexadecimal] at hx2b
    have hd2xa2d : value [.d2x, .a2d] = .ok (.character (Numeral.hexadecimal 0 i)) :=
      (evaluate_nested_cons rfl ha2d).trans hd2x
    refine ⟨(evaluate_nested_cons rfl ha2b).trans hb2a, (evaluate_nested_cons rfl ha2d).trans hd2a,
      (evaluate_nested_cons rfl hsigned).trans hd2a', ⟨_, ha2d, ?_, ?_, ?_⟩, ⟨_, ha2b, ?_, ?_⟩,
      ⟨_, ?_, hd2xa2d⟩⟩
    · exact (evaluate_nested_cons rfl ha2b).trans hb2d
    · exact (evaluate_nested_cons rfl ha2x).trans hx2d
    · exact (evaluate_nested_cons rfl hd2xa2d).trans hx2d'
    · exact (evaluate_nested_cons rfl ha2d).trans hd2b
    · exact (evaluate_nested_cons rfl ha2x).trans hx2b
    · exact (evaluate_nested_cons rfl ha2b).trans hb2x
  · intro e s he hne hlength hdigits value
    obtain ⟨i, hi, hsmall⟩ := bits?_of_digits hne hlength hdigits
    obtain ⟨hx2b, hx2d⟩ := apply_fromHexadecimal hi
    obtain ⟨-, hb2d, -⟩ := apply_fromBits (bits?_binary (4 * s.length) i)
    rw [byteLength_of_digits (by decide) hdigits] at hx2b
    have hself : value [] = .ok (.character s) := he
    have hbits : value [.x2b] = .ok (.character (Numeral.binary (4 * s.length) i)) :=
      (evaluate_nested_cons rfl hself).trans hx2b
    have hpositive : 0 < s.length := Nat.pos_of_ne_zero (mt String.length_eq_zero_iff.1 hne)
    exact ⟨_, _, hbits, length_binary hpositive hsmall, mem_binary _,
      (evaluate_nested_cons rfl hbits).trans hb2d, (evaluate_nested_cons rfl hself).trans hx2d⟩

/-- The least number, whose absolute value is no number, and a text with zeros in front. -/
theorem conversions_commute_leastNumber :
    let value e fs := (nested (fun _ => {}) fs e).evaluate fun _ => none
    let least := Expr.number (-0x80000000) {}
    let digits := Expr.text "00f" {}
    value least [.d2a, .a2d] = .ok (.arithmetic (-0x80000000)) ∧
    (∃ d, value least [.a2d] = .ok (.character d) ∧
      value least [.x2d, .a2x] = .ok (.character d)) ∧
    ∃ bits d, value digits [.x2b] = .ok (.character bits) ∧ bits.length = 12 ∧
      value digits [.b2d, .x2b] = .ok (.character d) ∧
      value digits [.x2d] = .ok (.character d) := by
  intro value least digits
  obtain ⟨hnumber, hdigits⟩ := conversions_commute (fun _ => none) (fun _ => {})
  obtain ⟨-, hd2a, -, ⟨d, ha2d, -, hx2d, -⟩, -⟩ := hnumber least (-0x80000000) rfl
  obtain ⟨bits, d', hx2b, hlength, -, hb2d, hx2d'⟩ :=
    hdigits digits "00f" rfl (by decide) (by decide)
      (by simp [Numeral.isDigitOf, Numeral.digitValue])
  exact ⟨hd2a, ⟨d, ha2d, hx2d⟩, bits, d', hx2b, hlength, hb2d, hx2d'⟩

end Agreement

end MacroAssembler.Conditional
