import Mathlib
import MacroAssembler.Text.Letters
import MacroAssembler.Text.Numeral

/-!
# Letter case of characters and texts

Two characters with the same capital are the same, or both are letters (`eq_or_isAlpha`), so that
a reader that asks for signs and digits cannot tell them apart. Texts that are `Alike` differ in
the case of letters at most.
-/

namespace MacroAssembler.Text

/-- The capital of a small letter has its number less 32, and all other characters stay. -/
theorem toNat_toUpper (c : Char) :
    (c.toUpper.toNat = c.toNat ∧ ¬ (97 ≤ c.toNat ∧ c.toNat ≤ 122)) ∨
      (c.toUpper.toNat + 32 = c.toNat ∧ 97 ≤ c.toNat ∧ c.toNat ≤ 122) := by
  unfold Char.toUpper
  split
  · rename_i h
    have hlow : 97 ≤ c.toNat := h.1
    have hhigh : c.toNat ≤ 122 := h.2
    refine .inr ⟨?_, hlow, hhigh⟩
    change (c.val + ('A'.val - 'a'.val)).toNat + 32 = c.toNat
    rw [UInt32.toNat_add]
    change (c.toNat + 4294967264) % 4294967296 + 32 = c.toNat
    omega
  · rename_i h
    exact .inl ⟨rfl, h⟩

/-- A capital letter is the capital of itself and of its small letter alone. -/
theorem toUpper_eq_iff {c capital small : Char} (hcapital : capital.isUpper)
    (hsmall : small.toNat = capital.toNat + 32) :
    c.toUpper = capital ↔ c = capital ∨ c = small := by
  have hrange : 65 ≤ capital.toNat ∧ capital.toNat ≤ 90 := by
    simp only [Char.isUpper, decide_eq_true_eq] at hcapital
    exact hcapital
  rw [← Char.toNat_inj, ← Char.toNat_inj, ← Char.toNat_inj, hsmall]
  rcases toNat_toUpper c with ⟨hc, hc'⟩ | ⟨hc, hc'⟩ <;> omega

theorem isAlpha_iff (c : Char) :
    c.isAlpha ↔ (65 ≤ c.toNat ∧ c.toNat ≤ 90) ∨ (97 ≤ c.toNat ∧ c.toNat ≤ 122) := by
  simp only [Char.isAlpha, Char.isUpper, Char.isLower, Bool.or_eq_true, Bool.and_eq_true,
    decide_eq_true_eq, ge_iff_le]
  rfl

theorem not_isDigit_of_isAlpha {c : Char} (h : c.isAlpha) : ¬ c.isDigit := by
  rw [isAlpha_iff] at h
  simp only [Char.isDigit, Bool.and_eq_true, decide_eq_true_eq, ge_iff_le]
  change ¬ (48 ≤ c.toNat ∧ c.toNat ≤ 57)
  omega

section

variable {c d : Char}

/-- Characters with the same capital are the same, unless they are letters. -/
theorem eq_or_isAlpha (h : c.toUpper = d.toUpper) :
    c = d ∨ (c.isAlpha = true ∧ d.isAlpha = true) := by
  have hnat := congrArg Char.toNat h
  rw [isAlpha_iff, isAlpha_iff]
  rcases toNat_toUpper c with ⟨hc, hc'⟩ | ⟨hc, hc'⟩ <;>
    rcases toNat_toUpper d with ⟨hd, hd'⟩ | ⟨hd, hd'⟩
  · exact .inl (Char.toNat_inj.1 (by omega))
  · exact .inr (by omega)
  · exact .inr (by omega)
  · exact .inr (by omega)

/-- A character that is no letter is known by its capital. -/
theorem eq_iff_eq (h : c.toUpper = d.toUpper) {x : Char} (hx : x.isAlpha = false) :
    c = x ↔ d = x := by
  rcases eq_or_isAlpha h with rfl | ⟨hc, hd⟩
  · exact Iff.rfl
  · constructor <;> rintro rfl <;> simp_all

theorem sign_congr (h : c.toUpper = d.toUpper) {x : Char} (hx : x.isAlpha = false) :
    (c = x) = (d = x) := propext (eq_iff_eq h hx)

theorem isDigit_eq (h : c.toUpper = d.toUpper) : c.isDigit = d.isDigit := by
  rcases eq_or_isAlpha h with rfl | ⟨hc, hd⟩
  · rfl
  · rw [Bool.eq_false_iff.2 (not_isDigit_of_isAlpha hc),
      Bool.eq_false_iff.2 (not_isDigit_of_isAlpha hd)]

theorem isNameChar_eq (h : c.toUpper = d.toUpper) : isNameChar c = isNameChar d := by
  rcases eq_or_isAlpha h with rfl | ⟨hc, hd⟩
  · rfl
  · simp [isNameChar, Char.isAlphanum, hc, hd]

/-- A digit of any base has the same value in either case. -/
theorem digitValue_eq (h : c.toUpper = d.toUpper) :
    Numeral.digitValue c = Numeral.digitValue d := by
  have hnat := congrArg Char.toNat h
  have hvalue (c : Char) : Numeral.digitValue c =
      if 48 ≤ c.toNat ∧ c.toNat ≤ 57 then c.toNat - 48
      else if 97 ≤ c.toNat ∧ c.toNat ≤ 122 then c.toNat - 97 + 10
      else if 65 ≤ c.toNat ∧ c.toNat ≤ 90 then c.toNat - 65 + 10 else 36 := rfl
  rw [hvalue, hvalue]
  rcases toNat_toUpper c with ⟨hc, hc'⟩ | ⟨hc, hc'⟩ <;>
    rcases toNat_toUpper d with ⟨hd, hd'⟩ | ⟨hd, hd'⟩ <;>
    (repeat' split) <;> omega

theorem utf8Size_eq (h : c.toUpper = d.toUpper) : c.utf8Size = d.utf8Size := by
  have hone {c : Char} (hc : c.isAlpha = true) : c.utf8Size = 1 := by
    have hc := (isAlpha_iff c).1 hc
    have hle : c.val ≤ 0x7f := by
      rw [UInt32.le_iff_toNat_le]
      change c.toNat ≤ 127
      omega
    exact if_pos hle
  rcases eq_or_isAlpha h with rfl | ⟨hc, hd⟩
  · rfl
  · rw [hone hc, hone hd]

end

/-! ## Texts -/

theorem length_le_byteLength (cs : List Char) : cs.length ≤ byteLength cs := by
  induction cs with
  | nil => exact Nat.le_refl 0
  | cons c cs ih =>
      have := c.utf8Size_pos
      rw [byteLength, List.length_cons]
      omega

/-- A text takes as many bytes as it has characters if each of them is a single byte. -/
theorem byteLength_eq_length_iff {cs : List Char} :
    byteLength cs = cs.length ↔ ∀ c ∈ cs, c.utf8Size = 1 := by
  induction cs with
  | nil => simp [byteLength]
  | cons c cs ih =>
      have := c.utf8Size_pos
      have := length_le_byteLength cs
      rw [byteLength, List.length_cons, List.forall_mem_cons, ← ih]
      omega

/-- The texts differ at most in the case of letters. -/
abbrev Alike : List Char → List Char → Prop := List.Forall₂ fun c d => c.toUpper = d.toUpper

namespace Alike

variable {cs ds : List Char}

/-- Texts are alike if they are the same in capital letters. -/
theorem map_toUpper (h : Alike cs ds) : cs.map Char.toUpper = ds.map Char.toUpper := by
  induction h with
  | nil => rfl
  | cons hupper _ ih => rw [List.map_cons, List.map_cons, hupper, ih]

theorem upper (h : Alike cs ds) : upper (String.ofList cs) = upper (String.ofList ds) := by
  simp [Text.upper, h.map_toUpper]

theorem byteLength (h : Alike cs ds) : byteLength cs = byteLength ds := by
  induction h with
  | nil => rfl
  | cons hupper _ ih => rw [Text.byteLength, Text.byteLength, utf8Size_eq hupper, ih]

theorem nil_iff (h : Alike cs ds) : cs = [] ↔ ds = [] := by
  cases h <;> simp

theorem tail (h : Alike cs ds) : Alike cs.tail ds.tail := by
  cases h with
  | nil => exact .nil
  | cons _ hrest => exact hrest

/-- A text starts with a sign if the other one does. -/
theorem head?_eq_some (h : Alike cs ds) {x : Char} (hx : x.isAlpha = false) :
    cs.head? = some x ↔ ds.head? = some x := by
  cases h with
  | nil => simp
  | cons hupper _ => simpa using eq_iff_eq hupper hx

theorem mem_iff (h : Alike cs ds) {x : Char} (hx : x.isAlpha = false) : x ∈ cs ↔ x ∈ ds := by
  induction h with
  | nil => simp
  | cons hupper _ ih =>
      have hhead := eq_iff_eq hupper hx
      simp only [List.mem_cons, ih, eq_comm (a := x), hhead]

/-- A test that no letter case changes takes the same number of characters off both texts. -/
theorem span (h : Alike cs ds) {test : Char → Bool}
    (htest : ∀ {c d : Char}, c.toUpper = d.toUpper → test c = test d) :
    Alike (cs.takeWhile test) (ds.takeWhile test) ∧
    Alike (cs.dropWhile test) (ds.dropWhile test) := by
  induction h with
  | nil => exact ⟨.nil, .nil⟩
  | @cons c d cs ds hupper hrest ih =>
      have hsame := htest hupper
      cases hc : test c with
      | true =>
          simp only [List.takeWhile_cons, List.dropWhile_cons, ← hsame, hc, if_true]
          exact ⟨.cons hupper ih.1, ih.2⟩
      | false =>
          simp only [List.takeWhile_cons, List.dropWhile_cons, ← hsame, hc, Bool.false_eq_true,
            if_false]
          exact ⟨.nil, .cons hupper hrest⟩

/-! ### Numerals -/

theorem valueFrom (h : Alike cs ds) (base n : Nat) :
    Numeral.valueFrom base n cs = Numeral.valueFrom base n ds := by
  induction h generalizing n with
  | nil => rfl
  | cons hupper _ ih => rw [Numeral.valueFrom, Numeral.valueFrom, digitValue_eq hupper, ih]

theorem digits? (h : Alike cs ds) (base : Nat) :
    Numeral.digits? base cs = Numeral.digits? base ds := by
  have hall : cs.all (Numeral.isDigitOf base) = ds.all (Numeral.isDigitOf base) := by
    induction h with
    | nil => rfl
    | cons hupper _ ih =>
        rw [List.all_cons, List.all_cons, ih, Numeral.isDigitOf, Numeral.isDigitOf,
          digitValue_eq hupper]
  have hnil : (cs ≠ []) = (ds ≠ []) := propext (not_congr h.nil_iff)
  simp only [Numeral.digits?, Numeral.valueOf, hall, hnil, h.valueFrom]

theorem integer? (h : Alike cs ds) : Numeral.integer? cs = Numeral.integer? ds := by
  cases h with
  | nil => rfl
  | @cons c d cs ds hupper hrest =>
      have hwhole : Alike (c :: cs) (d :: ds) := .cons hupper hrest
      by_cases hminus : c = '-'
      · obtain rfl : d = '-' := (eq_iff_eq hupper rfl).1 hminus
        subst hminus
        simp only [Numeral.integer?, digits? hrest]
      by_cases hplus : c = '+'
      · obtain rfl : d = '+' := (eq_iff_eq hupper rfl).1 hplus
        subst hplus
        simp only [Numeral.integer?, digits? hrest]
      have hminus' : d ≠ '-' := mt (eq_iff_eq hupper rfl).2 hminus
      have hplus' : d ≠ '+' := mt (eq_iff_eq hupper rfl).2 hplus
      unfold Numeral.integer?
      split <;> split <;> simp_all [digits? hwhole]

theorem pattern? (h : Alike cs ds) (base : Nat) :
    Numeral.pattern? base cs = Numeral.pattern? base ds := by
  cases h with
  | nil => rfl
  | @cons c d cs ds hupper hrest =>
      have hwhole : Alike (c :: cs) (d :: ds) := .cons hupper hrest
      by_cases hplus : c = '+'
      · obtain rfl : d = '+' := (eq_iff_eq hupper rfl).1 hplus
        subst hplus
        simp only [Numeral.pattern?, Numeral.natural?, digits? hrest]
      have hplus' : d ≠ '+' := mt (eq_iff_eq hupper rfl).2 hplus
      unfold Numeral.pattern? Numeral.natural?
      split <;> split <;> simp_all [digits? hwhole]

end Alike

end MacroAssembler.Text
