import Mathlib
import MacroAssembler.Proofs.Letters
import MacroAssembler.Text.Blank
import MacroAssembler.Text.Numeral

/-!
# Numerals are read as they are written

The digits of a number denote it in every base up to sixteen (`valueOf_write`), and zeros in front
of them change nothing (`valueOf_pad`). A word that is written as a pattern of bits or with a sign
is therefore read back (`pattern?_pad_write`, `integer?_decimal`, `integer?_signed`).
-/

namespace MacroAssembler

/-- A text without blanks has none at its ends. -/
theorem Text.trim_eq_self {cs : List Char} (h : ∀ c ∈ cs, ¬ isBlank c) : trim cs = cs := by
  have hstart {ds : List Char} (h : ∀ c ∈ ds, ¬ isBlank c) : trimStart ds = ds :=
    List.dropWhile_eq_self_iff.2 fun hl => h _ (List.getElem_mem hl)
  have hreverse : ∀ c ∈ cs.reverse, ¬ isBlank c := fun c hc => h c (List.mem_reverse.1 hc)
  rw [trim, hstart h, hstart hreverse, List.reverse_reverse]

namespace Numeral

section Digits

variable {base : Nat} {cs : List Char}

/-- The value of a decimal digit. -/
theorem digitValue_of_isDigit {c : Char} (h : c.isDigit) :
    digitValue c = c.toNat - '0'.toNat ∧ digitValue c < 10 := by
  simp only [Char.isDigit, Bool.and_eq_true, decide_eq_true_eq, ge_iff_le] at h
  have hvalue : digitValue c = c.toNat - '0'.toNat := if_pos h
  have hle : c.toNat ≤ '9'.toNat := h.2
  have hzero : '0'.toNat = 48 := rfl
  have hnine : '9'.toNat = 57 := rfl
  refine ⟨hvalue, ?_⟩
  omega

/-- The decimal digits are those of the base ten. -/
theorem isDigit_of_isDigitOf {c : Char} (h : isDigitOf 10 c) : c.isDigit := by
  have hvalue : digitValue c < 10 := of_decide_eq_true h
  unfold digitValue at hvalue
  split at hvalue
  · rename_i hrange
    simp only [Char.isDigit, Bool.and_eq_true, decide_eq_true_eq, ge_iff_le]
    exact hrange
  · split_ifs at hvalue <;> omega

/-- The digit that a number below sixteen is written with has that value. -/
theorem digitValue_digitChar : ∀ d < 16, digitValue (Nat.digitChar d).toUpper = d := by decide

/-- A sign is no digit. -/
theorem ne_sign_of_isDigitOf {c : Char} (hbase : base ≤ 36) (hc : isDigitOf base c) :
    c ≠ '+' ∧ c ≠ '-' := by
  have hvalue : digitValue c < base := of_decide_eq_true hc
  refine ⟨?_, ?_⟩ <;> rintro rfl
  · have hplus : digitValue '+' = 36 := by decide
    omega
  · have hminus : digitValue '-' = 36 := by decide
    omega

/-- A digit of a base up to thirty-six takes a single byte. -/
theorem utf8Size_of_isDigitOf {c : Char} (hbase : base ≤ 36) (hc : isDigitOf base c) :
    c.utf8Size = 1 := by
  have hvalue : digitValue c < 36 := (of_decide_eq_true hc).trans_le hbase
  have hle : c.toNat ≤ 127 := by
    unfold digitValue at hvalue
    split at hvalue
    · rename_i h
      exact le_trans h.2 (by decide)
    split at hvalue
    · rename_i h
      exact le_trans h.2 (by decide)
    split at hvalue
    · rename_i h
      exact le_trans h.2 (by decide)
    · exact absurd hvalue (by decide)
  have hbyte : c.val ≤ 0x7f := UInt32.le_iff_toNat_le.2 hle
  exact if_pos hbyte

/-- The digits of the base two are two. -/
theorem isDigitOf_two {c : Char} (hc : isDigitOf 2 c) : c = '0' ∨ c = '1' := by
  have hvalue : digitValue c < 2 := of_decide_eq_true hc
  unfold digitValue at hvalue
  split at hvalue
  · rename_i h
    have hlow : 48 ≤ c.toNat := h.1
    have hzero : '0'.toNat = 48 := rfl
    obtain hc | hc : c.toNat = 48 ∨ c.toNat = 49 := by omega
    · exact .inl (Char.toNat_inj.1 hc)
    · exact .inr (Char.toNat_inj.1 hc)
  split at hvalue
  · omega
  split at hvalue <;> omega

theorem valueFrom_append (n : Nat) (cs ds : List Char) :
    valueFrom base n (cs ++ ds) = valueFrom base (valueFrom base n cs) ds := by
  induction cs generalizing n with
  | nil => rfl
  | cons c cs ih => exact ih (n * base + digitValue c)

/-- Digits read after a number `n` give less than digits read after `n + 1`. -/
theorem valueFrom_lt (h : ∀ c ∈ cs, isDigitOf base c) (n : Nat) :
    valueFrom base n cs < (n + 1) * base ^ cs.length := by
  induction cs generalizing n with
  | nil => simp [valueFrom]
  | cons c cs ih =>
      obtain ⟨hc, hcs⟩ := List.forall_mem_cons.1 h
      have hdigit : n * base + digitValue c + 1 ≤ (n + 1) * base := by
        have hvalue : digitValue c < base := of_decide_eq_true hc
        rw [Nat.succ_mul]
        omega
      calc valueFrom base (n * base + digitValue c) cs
          < (n * base + digitValue c + 1) * base ^ cs.length := ih hcs _
        _ ≤ (n + 1) * base * base ^ cs.length := Nat.mul_le_mul_right _ hdigit
        _ = (n + 1) * base ^ (cs.length + 1) := by rw [Nat.mul_assoc, Nat.pow_succ']

/-- A row of digits denotes a number with no more digits than it has. -/
theorem valueOf_lt (h : ∀ c ∈ cs, isDigitOf base c) : valueOf base cs < base ^ cs.length := by
  simpa only [valueOf, Nat.zero_add, Nat.one_mul] using valueFrom_lt h 0

end Digits

/-! ## Writing -/

section Writing

variable {base : Nat} (n width : Nat) (cs : List Char)

/-- The last digit is the remainder, and the digits before it are those of the quotient. -/
theorem write_eq (hbase : 1 < base) : write base n =
    if n < base then [(Nat.digitChar n).toUpper]
    else write base (n / base) ++ [(Nat.digitChar (n % base)).toUpper] := by
  rw [write, Nat.toDigits_eq_if hbase]
  split <;> simp [write]

/-- A number has a digit. -/
theorem write_ne_nil : write base n ≠ [] := by simp [write]

/-- A number is written with as many digits as its powers of the base tell. -/
theorem length_write_le_iff {k : Nat} (hbase : 1 < base) (hk : 0 < k) :
    (write base n).length ≤ k ↔ n < base ^ k := by
  rw [write, List.length_map, Nat.length_toDigits_le_iff hbase hk]

/-- The digits of a number denote it. -/
theorem valueOf_write (hbase : 1 < base) (hle : base ≤ 16) : valueOf base (write base n) = n := by
  induction n using Nat.strongRecOn with
  | ind n ih =>
      rw [write_eq n hbase]
      split
      · rename_i hlt
        simp [valueOf, valueFrom, digitValue_digitChar n (hlt.trans_le hle)]
      · rename_i hge
        have hquotient : valueFrom base 0 (write base (n / base)) = n / base :=
          ih (n / base) (Nat.div_lt_self (by omega) hbase)
        have hremainder : n % base < 16 := (Nat.mod_lt n (by omega)).trans_le hle
        rw [valueOf, valueFrom_append, hquotient]
        simp only [valueFrom, digitValue_digitChar _ hremainder]
        exact Nat.div_add_mod' n base

/-- What a number is written with are digits. -/
theorem isDigitOf_of_mem_write (hbase : 1 < base) (hle : base ≤ 16) :
    ∀ c ∈ write base n, isDigitOf base c := by
  have hdigit {d : Nat} (hd : d < base) : isDigitOf base (Nat.digitChar d).toUpper := by
    rw [isDigitOf, digitValue_digitChar d (hd.trans_le hle), decide_eq_true_iff]
    exact hd
  induction n using Nat.strongRecOn with
  | ind n ih =>
      intro c hc
      rw [write_eq n hbase] at hc
      split at hc
      · rename_i hlt
        obtain rfl := List.mem_singleton.1 hc
        exact hdigit hlt
      · obtain hc | hc := List.mem_append.1 hc
        · exact ih (n / base) (Nat.div_lt_self (by omega) hbase) c hc
        · obtain rfl := List.mem_singleton.1 hc
          exact hdigit (Nat.mod_lt n (by omega))

variable {cs} in
theorem pad_ne_nil (h : cs ≠ []) : pad width cs ≠ [] := List.append_ne_nil_of_right_ne_nil _ h

theorem length_pad : (pad width cs).length = max width cs.length := by
  rw [pad, List.length_append, List.length_replicate]
  omega

/-- A number that is small enough is written with exactly as many digits as the width. -/
theorem length_pad_write {n width : Nat} (hbase : 1 < base) (hwidth : 0 < width)
    (h : n < base ^ width) : (pad width (write base n)).length = width := by
  rw [length_pad]
  exact max_eq_left ((length_write_le_iff n hbase hwidth).2 h)

/-- Zeros in front do not change what a row of digits denotes. -/
theorem valueOf_pad : valueOf base (pad width cs) = valueOf base cs := by
  have hzeros (k : Nat) : valueFrom base 0 (List.replicate k '0') = 0 := by
    induction k with
    | zero => rfl
    | succ k ih =>
        have hzero : digitValue '0' = 0 := rfl
        rw [List.replicate_succ, valueFrom, hzero, Nat.zero_mul, Nat.add_zero, ih]
  rw [valueOf, pad, valueFrom_append, hzeros, valueOf]

variable {cs} in
theorem isDigitOf_of_mem_pad (hbase : 0 < base) (h : ∀ c ∈ cs, isDigitOf base c) :
    ∀ c ∈ pad width cs, isDigitOf base c := by
  intro c hc
  obtain hc | hc := List.mem_append.1 hc
  · obtain rfl := List.eq_of_mem_replicate hc
    exact decide_eq_true hbase
  · exact h c hc

end Writing

/-! ## Patterns of bits -/

/-- The text is a nonempty row of digits of the base, whose value is that of a pattern of bits. -/
structure IsPattern (base : Nat) (cs : List Char) : Prop where
  ne_nil : cs ≠ []
  digits : ∀ c ∈ cs, isDigitOf base c
  fits : valueOf base cs < UInt32.size

/-- A plus sign stands in front of a pattern. -/
def IsPlusPattern (base : Nat) (cs : List Char) : Prop :=
  ∃ digits, cs = '+' :: digits ∧ IsPattern base digits

section Patterns

variable {base : Nat} {cs : List Char}

/-- Only a row of digits is read as the number that they denote. -/
theorem digits?_filter_eq_some_iff {limit n : Nat} :
    (digits? base cs).filter (· < limit) = some n ↔
      cs ≠ [] ∧ (∀ c ∈ cs, isDigitOf base c) ∧ valueOf base cs < limit ∧ n = valueOf base cs := by
  rw [Option.filter_eq_some_iff, digits?, decide_eq_true_iff]
  constructor
  · rintro ⟨h, hlimit⟩
    split at h
    · rename_i hdigits
      cases h
      exact ⟨hdigits.1, List.all_eq_true.1 hdigits.2, hlimit, rfl⟩
    · cases h
  · rintro ⟨hne, hdigits, hlimit, rfl⟩
    exact ⟨if_pos ⟨hne, List.all_eq_true.2 hdigits⟩, hlimit⟩

/-- A row of digits that is not longer than a word is a pattern. -/
theorem isPattern_of_length_le {k : Nat} (hbase : 0 < base) (hne : cs ≠ [])
    (hdigits : ∀ c ∈ cs, isDigitOf base c) (hlength : cs.length ≤ k)
    (hword : base ^ k ≤ UInt32.size) : IsPattern base cs where
  ne_nil := hne
  digits := hdigits
  fits := calc valueOf base cs
      < base ^ cs.length := valueOf_lt hdigits
    _ ≤ base ^ k := Nat.pow_le_pow_right hbase hlength
    _ ≤ UInt32.size := hword

/-- A pattern does not start with a sign. -/
theorem IsPattern.ne_cons_plus (hbase : base ≤ 36) (h : IsPattern base cs) (rest : List Char) :
    cs ≠ '+' :: rest := by
  rintro rfl
  exact (ne_sign_of_isDigitOf hbase (h.digits '+' List.mem_cons_self)).1 rfl

theorem IsPattern.not_isPlusPattern (hbase : base ≤ 36) (h : IsPattern base cs) :
    ¬ IsPlusPattern base cs :=
  fun ⟨digits, heq, _⟩ => h.ne_cons_plus hbase digits heq

/-- A word is read from the digits of its pattern, after a plus sign or none. -/
theorem pattern?_eq_some_iff (hbase : base ≤ 36) {i : Int32} : pattern? base cs = some i ↔
    ∃ digits, (cs = digits ∨ cs = '+' :: digits) ∧ IsPattern base digits ∧
      i = Int32.ofNat (valueOf base digits) := by
  have hread (body : List Char) :
      ((digits? base body).filter (· < UInt32.size)).map Int32.ofNat = some i ↔
        IsPattern base body ∧ i = Int32.ofNat (valueOf base body) := by
    rw [Option.map_eq_some_iff]
    constructor
    · rintro ⟨n, hn, rfl⟩
      obtain ⟨hne, hdigits, hlimit, rfl⟩ := digits?_filter_eq_some_iff.1 hn
      exact ⟨⟨hne, hdigits, hlimit⟩, rfl⟩
    · rintro ⟨h, rfl⟩
      exact ⟨_, digits?_filter_eq_some_iff.2 ⟨h.ne_nil, h.digits, h.fits, rfl⟩, rfl⟩
  unfold pattern? natural?
  split
  · rename_i rest
    rw [hread]
    constructor
    · exact fun h => ⟨rest, .inr rfl, h⟩
    · rintro ⟨digits, rfl | heq, h⟩
      · exact absurd rfl (h.1.ne_cons_plus hbase rest)
      · obtain ⟨-, rfl⟩ := List.cons.inj heq
        exact h
  · rename_i hplus
    rw [hread]
    constructor
    · exact fun h => ⟨cs, .inl rfl, h⟩
    · rintro ⟨digits, rfl | heq, h⟩
      · exact h
      · exact absurd heq (hplus digits)

/-- A pattern is read as the word that has it. -/
theorem IsPattern.pattern?_eq (h : IsPattern base cs) (hbase : base ≤ 36) :
    pattern? base cs = some (Int32.ofNat (valueOf base cs)) :=
  (pattern?_eq_some_iff hbase).2 ⟨cs, .inl rfl, h, rfl⟩

/-- The texts that are read as a word. -/
theorem exists_pattern?_iff (hbase : base ≤ 36) :
    (∃ i, pattern? base cs = some i) ↔ IsPattern base cs ∨ IsPlusPattern base cs := by
  simp only [pattern?_eq_some_iff hbase]
  constructor
  · rintro ⟨i, digits, rfl | rfl, h, -⟩
    · exact .inl h
    · exact .inr ⟨digits, rfl, h⟩
  · rintro (h | ⟨digits, rfl, h⟩)
    · exact ⟨_, cs, .inl rfl, h, rfl⟩
    · exact ⟨_, digits, .inr rfl, h, rfl⟩

/-- A word is determined by its pattern. -/
theorem ofNat_toNat_toUInt32 (i : Int32) : Int32.ofNat i.toUInt32.toNat = i := by
  rw [← UInt32.toInt32_ofNat', UInt32.ofNat_toNat, Int32.toInt32_toUInt32]

/-- A number that fits a word is the pattern of a word. -/
theorem toNat_toUInt32_ofNat {n : Nat} (h : n < UInt32.size) :
    (Int32.ofNat n).toUInt32.toNat = n := by
  rw [Int32.toUInt32_ofNat', UInt32.toNat_ofNat_of_lt' h]

/-- A word is read back from the digits of its pattern, however many zeros stand in front. -/
theorem pattern?_pad_write (hbase : 1 < base) (hle : base ≤ 16) (width : Nat) (i : Int32) :
    pattern? base (pad width (write base i.toUInt32.toNat)) = some i := by
  have hvalue : valueOf base (pad width (write base i.toUInt32.toNat)) = i.toUInt32.toNat := by
    rw [valueOf_pad, valueOf_write _ hbase hle]
  have hpattern : IsPattern base (pad width (write base i.toUInt32.toNat)) := by
    refine ⟨pad_ne_nil _ (write_ne_nil _),
      isDigitOf_of_mem_pad _ (by omega) (isDigitOf_of_mem_write _ hbase hle), ?_⟩
    rw [hvalue]
    exact i.toUInt32.toNat_lt
  rw [hpattern.pattern?_eq (by omega), hvalue, ofNat_toNat_toUInt32]

end Patterns

/-! ## Signed numbers -/

section Signed

/-- The number that a row of digits is read as. -/
theorem integer?_of_digits {digits : List Char} (hne : digits ≠ [])
    (hdigits : ∀ c ∈ digits, c.isDigit) :
    integer? digits = if valueOf 10 digits ≤ 0x7FFFFFFF then
      some (Int32.ofNat (valueOf 10 digits)) else none := by
  have hall : ∀ c ∈ digits, isDigitOf 10 c :=
    fun c hc => decide_eq_true (digitValue_of_isDigit (hdigits c hc)).2
  obtain ⟨c, rest, rfl⟩ := List.exists_cons_of_ne_nil hne
  have hsign := ne_sign_of_isDigitOf (by decide) (hall c List.mem_cons_self)
  unfold integer?
  split
  · rename_i heq
    exact absurd (List.cons.inj heq).1 hsign.2
  · rename_i heq
    exact absurd (List.cons.inj heq).1 hsign.1
  · rw [digits?, if_pos ⟨hne, List.all_eq_true.2 hall⟩, Option.filter_some]
    split <;> split <;> simp_all <;> omega

/-- Decimal digits have no capitals. -/
theorem write_ten (n : Nat) : write 10 n = Nat.toDigits 10 n := by
  have hdigit : ∀ c ∈ Nat.toDigits 10 n, c.toUpper = c := by
    intro c hc
    have hc : c.isDigit := Nat.isDigit_of_mem_toDigits (by decide) le_rfl hc
    obtain h | ⟨-, h⟩ := Text.eq_or_isAlpha c.toUpper_toUpper_eq_toUpper
    · exact h
    · exact absurd hc (Text.not_isDigit_of_isAlpha h)
  rw [write, List.map_congr_left hdigit, List.map_id']

/-- The decimal digits of a number are read as the number. -/
theorem digits?_write (n : Nat) : digits? 10 (write 10 n) = some n := by
  rw [digits?, if_pos ⟨write_ne_nil n, List.all_eq_true.2
    (isDigitOf_of_mem_write n (by decide) (by decide))⟩, valueOf_write n (by decide) (by decide)]

variable (i : Int32)

theorem ofInt_neg_natAbs (h : i.toInt < 0) : Int32.ofInt (-(i.toInt.natAbs : Int)) = i := by
  rw [Int.ofNat_natAbs_of_nonpos h.le, Int.neg_neg, Int32.ofInt_toInt]

theorem ofNat_natAbs (h : ¬ i.toInt < 0) : Int32.ofNat i.toInt.natAbs = i := by
  rw [← Int32.ofInt_eq_ofNat, Int.natAbs_of_nonneg (not_lt.1 h), Int32.ofInt_toInt]

/-- A number is written with the digits of its absolute value. -/
theorem toList_decimal : (decimal i).toList =
    if i.toInt < 0 then '-' :: write 10 i.toInt.natAbs else write 10 i.toInt.natAbs := by
  rw [decimal, write_ten]
  cases i.toInt with
  | ofNat n => exact (congrArg String.toList Nat.repr_eq_ofList_toDigits).trans (by simp)
  | negSucc n =>
      rw [if_pos (Int.negSucc_lt_zero n)]
      change ("-" ++ (n + 1).repr).toList = _
      rw [Nat.repr_eq_ofList_toDigits]
      simp

/-- A number is written with a sign in any case. -/
theorem toList_signed : (signed i).toList =
    (if i.toInt < 0 then '-' else '+') :: write 10 i.toInt.natAbs := by
  have hneg : i < 0 ↔ i.toInt < 0 := Int32.lt_iff_toInt_lt
  simp only [signed, hneg]
  split
  · rename_i h
    rw [toList_decimal, if_pos h]
  · rename_i h
    rw [String.toList_append, toList_decimal, if_neg h]
    rfl

/-- A negative number is read back from its digits. -/
theorem integer?_minus (h : i.toInt < 0) :
    integer? ('-' :: write 10 i.toInt.natAbs) = some i := by
  have hle : i.toInt.natAbs ≤ 0x80000000 := by
    have := i.le_toInt
    omega
  simp only [integer?, digits?_write]
  rw [Option.filter_some, if_pos (decide_eq_true hle)]
  exact congrArg some (ofInt_neg_natAbs i h)

/-- A number is read back from its decimal numeral. -/
theorem integer?_decimal : integer? (decimal i).toList = some i := by
  rw [toList_decimal]
  split
  · rename_i h
    exact integer?_minus i h
  · rename_i h
    have hdigits : ∀ c ∈ write 10 i.toInt.natAbs, c.isDigit := by
      rw [write_ten]
      exact fun c hc => Nat.isDigit_of_mem_toDigits (by decide) le_rfl hc
    have hle : i.toInt.natAbs ≤ 0x7FFFFFFF := by
      have := i.toInt_lt
      omega
    rw [integer?_of_digits (write_ne_nil _) hdigits, valueOf_write _ (by decide) (by decide),
      if_pos hle, ofNat_natAbs i h]

/-- A number is read back from its decimal numeral with a sign. -/
theorem integer?_signed : integer? (signed i).toList = some i := by
  rw [toList_signed]
  split
  · rename_i h
    exact integer?_minus i h
  · rename_i h
    have hlt : i.toInt.natAbs < 0x80000000 := by
      have := i.toInt_lt
      omega
    change ((digits? 10 (write 10 i.toInt.natAbs)).filter (· < 0x80000000)).map _ = _
    rw [digits?_write, Option.filter_some, if_pos (decide_eq_true hlt), Option.map_some,
      ofNat_natAbs i h]

end Signed

end Numeral

end MacroAssembler
