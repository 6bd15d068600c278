import MacroAssembler.Proofs.Conditional.Conversions
import MacroAssembler.Proofs.Conditional.Shifts

/-!
# Which texts are converted

ISHEX and ISBIN ask for a row of digits that a word can hold, and ISDEC for the digits of a number
that is not negative. A text that passes is converted. Of the texts that fail, the functions that
read hexadecimal or binary digits convert those in which a plus sign stands in front of such a row,
and no others of at most as many characters as a word has digits (`conversions_valid_iff`).
-/

namespace MacroAssembler.Conditional

/-- The functions that read hexadecimal digits. -/
def fromHexadecimal : List Function := [.x2d, .x2b]

/-- The functions that read binary digits. -/
def fromBinary : List Function := [.b2a, .b2d, .b2x]

variable {s : String}

/-! ## What the predicates ask for -/

/-- Each digit takes a byte, so that the limit is one of digits. -/
theorem isNumeral_iff {base limit : Nat} (hbase : base ≤ 36) : isNumeral base limit s ↔
    s ≠ "" ∧ s.length ≤ limit ∧ ∀ c ∈ s.toList, Numeral.isDigitOf base c := by
  simp only [isNumeral, Bool.and_eq_true, Bool.not_eq_true', String.isEmpty_eq_false_iff,
    decide_eq_true_eq, List.all_eq_true, and_assoc]
  refine and_congr_right fun _ => and_congr_left fun hdigits => ?_
  rw [byteLength_of_digits hbase hdigits]

/-- A text that is not longer than a word passes if it is a pattern of bits. -/
theorem isNumeral_iff_isPattern {base limit : Nat} (hpos : 0 < base) (hbase : base ≤ 36)
    (hword : base ^ limit ≤ UInt32.size) (hlength : s.length ≤ limit) :
    isNumeral base limit s ↔ Numeral.IsPattern base s.toList := by
  rw [isNumeral_iff hbase]
  constructor
  · rintro ⟨hne, -, hdigits⟩
    exact Numeral.isPattern_of_length_le hpos (String.toList_eq_nil_iff.not.2 hne) hdigits
      (String.length_toList.trans_le hlength) hword
  · exact fun h => ⟨String.toList_eq_nil_iff.not.1 h.ne_nil, hlength, h.digits⟩

/-- A plus sign does not pass. -/
theorem isNumeral_eq_false {base limit : Nat} (hpos : 0 < base) (hbase : base ≤ 36)
    (hword : base ^ limit ≤ UInt32.size) (hlength : s.length ≤ limit)
    (h : Numeral.IsPlusPattern base s.toList) : isNumeral base limit s = false := by
  rw [Bool.eq_false_iff, ne_eq, isNumeral_iff_isPattern hpos hbase hword hlength]
  exact fun hpattern => hpattern.not_isPlusPattern hbase h

/-- A text that passes as a decimal number is read as the number that its digits denote. -/
theorem number?_of_isDecimal (h : isDecimal s) :
    ∃ i, number? s = some i ∧ i.toInt = Numeral.valueOf 10 s.toList := by
  simp only [isDecimal, Bool.and_eq_true, decide_eq_true_eq] at h
  obtain ⟨hnumeral, hvalue⟩ := h
  obtain ⟨hne, -, hdigits⟩ := (isNumeral_iff (by decide)).1 hnumeral
  have hdecimal : ∀ c ∈ s.toList, c.isDigit :=
    fun c hc => Numeral.isDigit_of_isDigitOf (hdigits c hc)
  refine ⟨Int32.ofNat (Numeral.valueOf 10 s.toList), ?_, Int32.toInt_ofNat_of_lt hvalue⟩
  rw [number?, Text.trim_eq_self fun c hc => not_isBlank_of_isDigit (hdecimal c hc),
    Numeral.integer?_of_digits (String.toList_eq_nil_iff.not.2 hne) hdecimal, if_pos (by omega)]

/-! ## What is converted -/

/-- A function of a text that does not need the program fails if it has no value. -/
theorem exists_apply_iff {f : Function} (hf : f.needsProgram = false) :
    (∃ v, applyFunction f [.character s] = .ok v) ↔ ∃ v, applyToText f s = some v := by
  have happly : applyFunction f [.character s] =
      match applyToText f s with
      | some v => .ok v
      | none => .error (.invalidArgument f) := by
    rw [applyFunction, hf]
    cases f <;> rfl
  rw [happly]
  cases applyToText f s <;> simp

theorem exists_apply_fromHexadecimal_iff {f : Function} (hf : f ∈ fromHexadecimal) :
    (∃ v, applyFunction f [.character s] = .ok v) ↔ ∃ i, bits? 16 s = some i := by
  simp only [fromHexadecimal, List.mem_cons, List.not_mem_nil, or_false] at hf
  obtain rfl | rfl := hf <;>
    rw [exists_apply_iff rfl] <;> simp [applyToText]

theorem exists_apply_fromBinary_iff {f : Function} (hf : f ∈ fromBinary) :
    (∃ v, applyFunction f [.character s] = .ok v) ↔ ∃ i, bits? 2 s = some i := by
  simp only [fromBinary, List.mem_cons, List.not_mem_nil, or_false] at hf
  obtain rfl | rfl | rfl := hf <;>
    rw [exists_apply_iff rfl] <;> simp [applyToText]

/-- A text that is not longer than a word is read if it passes, or is a plus sign and a pattern. -/
theorem exists_bits?_iff {base limit : Nat} (hpos : 0 < base) (hbase : base ≤ 36)
    (hword : base ^ limit ≤ UInt32.size) (hlength : s.length ≤ limit) (hne : s ≠ "") :
    (∃ i, bits? base s = some i) ↔
      isNumeral base limit s ∨ Numeral.IsPlusPattern base s.toList := by
  rw [bits?_eq hne, Numeral.exists_pattern?_iff hbase,
    isNumeral_iff_isPattern hpos hbase hword hlength]

/-- A nonempty text of at most eight characters is converted from hexadecimal digits exactly if it
passes ISHEX or is a plus sign in front of hexadecimal digits, which does not pass. So it is with
texts of at most 32 characters, binary digits and ISBIN. A text that passes ISDEC is converted to
the number that its digits denote. -/
theorem conversions_valid_iff {lookup : VariableSymbol → Option Value} {e : Expr}
    (he : e.evaluate lookup = .ok (.character s)) (hne : s ≠ "") (range : Range) :
    let value f := (Expr.call f [e] range).evaluate lookup
    (s.length ≤ 8 →
      (∀ f ∈ fromHexadecimal, (∃ v, value f = .ok v) ↔
        value .ishex = .ok (.boolean true) ∨ Numeral.IsPlusPattern 16 s.toList) ∧
      (Numeral.IsPlusPattern 16 s.toList → value .ishex = .ok (.boolean false))) ∧
    (s.length ≤ 32 →
      (∀ f ∈ fromBinary, (∃ v, value f = .ok v) ↔
        value .isbin = .ok (.boolean true) ∨ Numeral.IsPlusPattern 2 s.toList) ∧
      (Numeral.IsPlusPattern 2 s.toList → value .isbin = .ok (.boolean false))) ∧
    (value .isdec = .ok (.boolean true) →
      GivesInteger (value .d2a) (Numeral.valueOf 10 s.toList)) := by
  intro value
  have hvalue {f : Function} (hf : f.arity = 1) : value f = applyFunction f [.character s] :=
    evaluate_call hf he range
  have hishex : value .ishex = .ok (.boolean (isNumeral 16 8 s)) := hvalue rfl
  have hisbin : value .isbin = .ok (.boolean (isNumeral 2 32 s)) := hvalue rfl
  have hisdec : value .isdec = .ok (.boolean (isDecimal s)) := hvalue rfl
  have hhexadecimal : ∀ f ∈ fromHexadecimal, f.arity = 1 := by decide
  have hbinary : ∀ f ∈ fromBinary, f.arity = 1 := by decide
  refine ⟨fun hlength => ⟨fun f hf => ?_, fun hplus => ?_⟩,
    fun hlength => ⟨fun f hf => ?_, fun hplus => ?_⟩, fun hdec => ?_⟩
  · rw [hvalue (hhexadecimal f hf), exists_apply_fromHexadecimal_iff hf, hishex,
      exists_bits?_iff (by decide) (by decide) (by decide) hlength hne]
    simp
  · rw [hishex, isNumeral_eq_false (by decide) (by decide) (by decide) hlength hplus]
  · rw [hvalue (hbinary f hf), exists_apply_fromBinary_iff hf, hisbin,
      exists_bits?_iff (by decide) (by decide) (by decide) hlength hne]
    simp
  · rw [hisbin, isNumeral_eq_false (by decide) (by decide) (by decide) hlength hplus]
  · rw [hisdec] at hdec
    obtain ⟨i, hi, hvalueOf⟩ := number?_of_isDecimal (s := s) (by simpa using hdec)
    exact ⟨i, (hvalue rfl).trans (apply_fromDecimal hi).1, hvalueOf⟩

/-- The text "10" passes all three tests. -/
theorem conversions_valid_ten :
    let value f := (Expr.call f [.text "10" {}] {}).evaluate fun _ => none
    (∃ v, value .x2b = .ok v) ∧ (∃ v, value .b2x = .ok v) ∧ GivesInteger (value .d2a) 10 := by
  intro value
  obtain ⟨hhexadecimal, hbinary, hdecimal⟩ :=
    @conversions_valid_iff "10" (fun _ => none) (.text "10" {}) rfl (by decide) {}
  have hishex : value .ishex = .ok (.boolean true) := by decide +kernel
  have hisbin : value .isbin = .ok (.boolean true) := by decide +kernel
  have hisdec : value .isdec = .ok (.boolean true) := by decide +kernel
  exact ⟨((hhexadecimal (by decide)).1 .x2b (by decide)).2 (.inl hishex),
    ((hbinary (by decide)).1 .b2x (by decide)).2 (.inl hisbin), hdecimal hisdec⟩

/-- A digit with a plus sign in front is converted, though it is no hexadecimal numeral. -/
theorem plusDigit_converted :
    let value f := (Expr.call f [.text "+F" {}] {}).evaluate fun _ => none
    value .x2d = .ok (.character "+15") ∧ value .ishex = .ok (.boolean false) := by
  decide +kernel

end MacroAssembler.Conditional
