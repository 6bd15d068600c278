import Mathlib.Tactic.Positivity
import Mathlib.Algebra.Order.Ring.Int
import MacroAssembler.Conditional.Evaluation

/-!
# Shifts as integer arithmetic

What the four shifts compute, in integers without bounds (`shifts_exact`): the product with a power
of two, which must fit a word or is reduced to one, and the quotient by a power of two, rounded
down. For a reduced result, `n.bmod (2 ^ 32)` is the number whose pattern of bits is that of `n`.
-/

namespace MacroAssembler.Conditional

/-- The integer fits a word of 32 bits with a sign. -/
def FitsWord (n : Int) : Prop := -2 ^ 31 ≤ n ∧ n < 2 ^ 31

instance (n : Int) : Decidable (FitsWord n) := inferInstanceAs (Decidable (_ ∧ _))

/-- The result is a number, and it is that integer. -/
def GivesInteger (result : Except EvalError Value) (n : Int) : Prop :=
  ∃ v : Int32, result = .ok (.arithmetic v) ∧ v.toInt = n

/-! ## Words -/

/-- The pattern of a natural number, read with a sign. -/
theorem toInt_toInt32_uint32 (u : UInt32) : u.toInt32.toInt = (u.toNat : Int).bmod (2 ^ 32) :=
  u.toBitVec.toInt_eq_toNat_bmod

/-- A number is its own pattern, read with a sign. -/
theorem toInt_eq_bmod (v : Int32) : v.toInt = (v.toUInt32.toNat : Int).bmod (2 ^ 32) :=
  v.toBitVec.toInt_eq_toNat_bmod

/-- What fits a word is not changed by reducing it to one. -/
theorem fitsWord_iff {n : Int} : FitsWord n ↔ n.bmod (2 ^ 32) = n := by
  rw [FitsWord, Int.bmod_eq_iff (by decide)]
  simp

/-- A number that fits a word is stored in it. -/
theorem FitsWord.toInt_ofInt {n : Int} (h : FitsWord n) : (Int32.ofInt n).toInt = n := by
  rw [Int32.toInt_ofInt]
  exact fitsWord_iff.1 h

section Places

variable {k : Nat}

/-- A count below the width of a double word is taken as it is. -/
theorem places_int64 : ∀ k < 64, ((Int64.ofNat k).toBitVec.smod 64).toNat = k := by decide

/-- A count below the width of a word is taken as it is. -/
theorem places_int32 : ∀ k < 32, ((Int32.ofNat k).toBitVec.smod 32).toNat = k := by decide

/-- A double word shifted to the left is the product, reduced to a double word. -/
theorem toInt_shiftLeft_int64 (v : Int64) (hk : k < 64) :
    (v <<< Int64.ofNat k).toInt = (v.toInt * 2 ^ k).bmod (2 ^ 64) := by
  rw [← Int64.toInt_toBitVec, Int64.toBitVec_shiftLeft, BitVec.shiftLeft_eq', places_int64 k hk,
    BitVec.toInt_shiftLeft, Nat.shiftLeft_eq, ← Int64.toInt_toBitVec, BitVec.toInt_eq_toNat_bmod,
    Int.bmod_mul_bmod, Nat.cast_mul, Nat.cast_pow, Nat.cast_ofNat]

/-- A double word shifted to the right is the quotient, rounded down. -/
theorem toInt_shiftRight_int64 (v : Int64) (hk : k < 64) :
    (v >>> Int64.ofNat k).toInt = v.toInt / 2 ^ k := by
  rw [← Int64.toInt_toBitVec, Int64.toBitVec_shiftRight, BitVec.toInt_sshiftRight',
    places_int64 k hk, Int64.toInt_toBitVec, Int.shiftRight_eq_div_pow, Nat.cast_pow,
    Nat.cast_ofNat]

/-- A word shifted to the right is the quotient, rounded down. -/
theorem toInt_shiftRight_int32 (v : Int32) (hk : k < 32) :
    (v >>> Int32.ofNat k).toInt = v.toInt / 2 ^ k := by
  rw [← Int32.toInt_toBitVec, Int32.toBitVec_shiftRight, BitVec.toInt_sshiftRight',
    places_int32 k hk, Int32.toInt_toBitVec, Int.shiftRight_eq_div_pow, Nat.cast_pow,
    Nat.cast_ofNat]

/-- A product that is reduced to a double word lost nothing if it can be divided again. -/
theorem bmod_eq_of_ediv_eq {m : Int} (hk : k < 64)
    (hback : (m * 2 ^ k).bmod (2 ^ 64) / 2 ^ k = m) : (m * 2 ^ k).bmod (2 ^ 64) = m * 2 ^ k := by
  have hpow : (2 : Int) ^ k ∣ ((2 ^ 64 : Nat) : Int) := by
    rw [Nat.cast_pow]
    exact pow_dvd_pow 2 hk.le
  have hdvd : (2 : Int) ^ k ∣ (m * 2 ^ k).bmod (2 ^ 64) :=
    (Int.dvd_iff_dvd_of_dvd_sub (hpow.trans Int.dvd_bmod_sub_self)).2 (Dvd.intro_left m rfl)
  calc (m * 2 ^ k).bmod (2 ^ 64)
      = (m * 2 ^ k).bmod (2 ^ 64) / 2 ^ k * 2 ^ k := (Int.ediv_mul_cancel hdvd).symm
    _ = m * 2 ^ k := by rw [hback]

end Places

/-! ## The four shifts -/

/-- Counts from 0 to 63 are taken, others are refused. -/
theorem shiftCount_eq (count : Int32) :
    shiftCount count = if 0 ≤ count.toInt ∧ count.toInt ≤ 63 then .ok count.toInt.toNat
      else .error (.shiftOutOfRange count) := by
  have hle : 0 ≤ count ∧ count ≤ 63 ↔ 0 ≤ count.toInt ∧ count.toInt ≤ 63 := by
    rw [Int32.le_iff_toInt_le, Int32.le_iff_toInt_le]
    rfl
  simp only [shiftCount, hle]

section Shifts

variable (value : Int32) {k : Nat}

/-- An arithmetic shift to the left gives the product if it fits a word. -/
theorem shiftLeftArithmetic_eq (hk : k < 64) :
    shiftLeftArithmetic value k = if FitsWord (value.toInt * 2 ^ k)
      then .ok (Int32.ofInt (value.toInt * 2 ^ k)) else .error (.overflow .sla) := by
  unfold shiftLeftArithmetic
  extract_lets places shifted
  have hshifted : shifted.toInt = (value.toInt * 2 ^ k).bmod (2 ^ 64) := by
    rw [toInt_shiftLeft_int64 _ hk, Int32.toInt_toInt64]
  have hback : shifted >>> places = value.toInt64 ↔ shifted.toInt / 2 ^ k = value.toInt := by
    rw [← Int64.toInt_inj, toInt_shiftRight_int64 _ hk, Int32.toInt_toInt64]
  have hword : shifted.toInt32.toInt64 = shifted ↔ FitsWord shifted.toInt := by
    rw [← Int64.toInt_inj, Int32.toInt_toInt64, Int64.toInt_toInt32, fitsWord_iff]
  by_cases hfits : FitsWord (value.toInt * 2 ^ k)
  · have hexact : shifted.toInt = value.toInt * 2 ^ k := by
      rw [hshifted]
      exact Int.bmod_eq_of_le (by have := hfits.1; omega) (by have := hfits.2; omega)
    have hdiv : shifted.toInt / 2 ^ k = value.toInt := by
      rw [hexact]
      exact Int.mul_ediv_cancel _ (by positivity)
    rw [if_pos ⟨hback.2 hdiv, hword.2 (hexact ▸ hfits)⟩, if_pos hfits, ← hexact,
      Int32.ofInt_int64ToInt]
  · have hlost : ¬ (shifted >>> places = value.toInt64 ∧ shifted.toInt32.toInt64 = shifted) := by
      rintro ⟨hdiv, hfits'⟩
      rw [hback, hshifted] at hdiv
      rw [hword, hshifted, bmod_eq_of_ediv_eq hk hdiv] at hfits'
      exact hfits hfits'
    rw [if_neg hlost, if_neg hfits]

/-- A logical shift to the left gives the product, reduced to a word. -/
theorem toInt_shiftLeftLogical :
    (shiftLeftLogical value k).toInt = (value.toInt * 2 ^ k).bmod (2 ^ 32) := by
  rw [toInt_eq_bmod value, Int.bmod_mul_bmod]
  unfold shiftLeftLogical
  split
  · rename_i hk
    have hplaces : (UInt32.ofNat k).toNat % 32 = k := by
      rw [UInt32.toNat_ofNat']
      omega
    rw [toInt_toInt32_uint32, UInt32.toNat_shiftLeft, hplaces, Nat.shiftLeft_eq, Int.natCast_emod,
      Int.emod_bmod, Nat.cast_mul, Nat.cast_pow, Nat.cast_ofNat]
  · rename_i hk
    have hdvd : ((2 ^ 32 : Nat) : Int) ∣ value.toUInt32.toNat * 2 ^ k := by
      rw [Nat.cast_pow]
      exact Dvd.dvd.mul_left (pow_dvd_pow 2 (by omega)) _
    rw [Int.bmod_eq_zero_of_dvd hdvd]
    rfl

/-- A logical shift to the right gives the quotient of the pattern. -/
theorem toInt_shiftRightLogical : (shiftRightLogical value k).toInt =
    ((value.toUInt32.toNat / 2 ^ k : Nat) : Int).bmod (2 ^ 32) := by
  unfold shiftRightLogical
  split
  · rename_i hk
    have hplaces : (UInt32.ofNat k).toNat % 32 = k := by
      rw [UInt32.toNat_ofNat']
      omega
    rw [toInt_toInt32_uint32, UInt32.toNat_shiftRight, hplaces, Nat.shiftRight_eq_div_pow]
  · rename_i hk
    have hlt : value.toUInt32.toNat < 2 ^ k :=
      value.toUInt32.toNat_lt.trans_le (Nat.pow_le_pow_right (by decide) (by omega))
    rw [Nat.div_eq_of_lt hlt]
    rfl

/-- Divided by so large a power of two, only the sign of a word is left. -/
theorem toInt_ediv_two_pow (hk : 31 ≤ k) :
    value.toInt / 2 ^ k = if value.toInt < 0 then -1 else 0 := by
  have hpow : (2 : Int) ^ 31 ≤ 2 ^ k := pow_le_pow_right₀ (by decide) hk
  have hle := value.le_toInt
  have hlt := value.toInt_lt
  split
  · rename_i hneg
    exact Int.ediv_eq_neg_one_of_neg_of_le hneg (by omega)
  · rename_i hpos
    exact Int.ediv_eq_zero_of_lt (by omega) (by omega)

/-- An arithmetic shift to the right gives the quotient. -/
theorem toInt_shiftRightArithmetic :
    (shiftRightArithmetic value k).toInt = value.toInt / 2 ^ k := by
  unfold shiftRightArithmetic
  rw [toInt_shiftRight_int32 _ (by omega)]
  by_cases hk : k ≤ 31
  · rw [Nat.min_eq_left hk]
  · have hk : 31 ≤ k := by omega
    rw [Nat.min_eq_right hk, toInt_ediv_two_pow value le_rfl, toInt_ediv_two_pow value hk]

end Shifts

/-- The operators that shift. -/
def shifts : List Operator := [.sla, .sll, .srl, .sra]

section Evaluation

variable {lookup : VariableSymbol → Option Value} {left right : Expr} {value count : Int32}

/-- A shift of one number by another applies the operator to them. -/
theorem evaluate_shift (hleft : left.evaluate lookup = .ok (.arithmetic value))
    (hright : right.evaluate lookup = .ok (.arithmetic count)) {op : Operator} (hop : op ∈ shifts)
    (range : Range) : (Expr.binary op left right range).evaluate lookup =
      (applyArithmetic op value count).map Value.arithmetic := by
  have hcomparison : comparison? op = none := by
    revert op
    decide
  rw [Expr.evaluate, hleft, hright]
  change applyBinary op (.arithmetic value) (.arithmetic count) = _
  rw [applyBinary, hcomparison]
  cases applyArithmetic op value count <;> rfl

/-- A shift by a count that is taken. -/
theorem applyArithmetic_of_count (value : Int32) {k : Nat} (hk : shiftCount count = .ok k) :
    applyArithmetic .sla value count = shiftLeftArithmetic value k ∧
    applyArithmetic .sll value count = .ok (shiftLeftLogical value k) ∧
    applyArithmetic .srl value count = .ok (shiftRightLogical value k) ∧
    applyArithmetic .sra value count = .ok (shiftRightArithmetic value k) := by
  simp only [applyArithmetic, hk]
  exact ⟨rfl, rfl, rfl, rfl⟩

/-- A shift fails with its count exactly if the count is refused. -/
theorem applyArithmetic_eq_shiftOutOfRange_iff {op : Operator} (hop : op ∈ shifts) :
    applyArithmetic op value count = .error (.shiftOutOfRange count) ↔
      ¬ (0 ≤ count.toInt ∧ count.toInt ≤ 63) := by
  by_cases hcount : 0 ≤ count.toInt ∧ count.toInt ≤ 63
  · have hk : shiftCount count = .ok count.toInt.toNat := by rw [shiftCount_eq, if_pos hcount]
    obtain ⟨hsla, hsll, hsrl, hsra⟩ := applyArithmetic_of_count value hk
    rw [shiftLeftArithmetic_eq _ (by omega)] at hsla
    refine iff_of_false ?_ (not_not.2 hcount)
    simp only [shifts, List.mem_cons, List.not_mem_nil, or_false] at hop
    obtain rfl | rfl | rfl | rfl := hop
    · rw [hsla]
      split <;> simp
    · simp [hsll]
    · simp [hsrl]
    · simp [hsra]
  · have hrefused : shiftCount count = .error (.shiftOutOfRange count) := by
      rw [shiftCount_eq, if_neg hcount]
    refine iff_of_true ?_ hcount
    simp only [shifts, List.mem_cons, List.not_mem_nil, or_false] at hop
    obtain rfl | rfl | rfl | rfl := hop <;> simp only [applyArithmetic, hrefused] <;> rfl

/-- A shift by a count below 0 or above 63 fails with that count, and no other shift fails like
this. For the other counts, the arithmetic shift to the left gives the product with the power of
two if it fits a word and else overflows, the logical shift to the left gives the product reduced to
a word, the logical shift to the right the quotient of the pattern of bits, and the arithmetic shift
to the right the quotient of the number, both rounded down. -/
theorem shifts_exact (hleft : left.evaluate lookup = .ok (.arithmetic value))
    (hright : right.evaluate lookup = .ok (.arithmetic count)) (range : Range) :
    let shifted op := (Expr.binary op left right range).evaluate lookup
    let places := count.toInt.toNat
    let product := value.toInt * 2 ^ places
    (∀ op ∈ shifts, shifted op = .error (.shiftOutOfRange count) ↔
      ¬ (0 ≤ count.toInt ∧ count.toInt ≤ 63)) ∧
    (0 ≤ count.toInt ∧ count.toInt ≤ 63 →
      (FitsWord product → GivesInteger (shifted .sla) product) ∧
      (¬ FitsWord product → shifted .sla = .error (.overflow .sla)) ∧
      GivesInteger (shifted .sll) (product.bmod (2 ^ 32)) ∧
      GivesInteger (shifted .srl)
        (((value.toUInt32.toNat / 2 ^ places : Nat) : Int).bmod (2 ^ 32)) ∧
      GivesInteger (shifted .sra) (value.toInt / 2 ^ places)) := by
  intro shifted places product
  have hshifted {op : Operator} (hop : op ∈ shifts) :
      shifted op = (applyArithmetic op value count).map Value.arithmetic :=
    evaluate_shift hleft hright hop range
  refine ⟨fun op hop => ?_, fun hcount => ?_⟩
  · rw [hshifted hop, ← applyArithmetic_eq_shiftOutOfRange_iff hop]
    cases applyArithmetic op value count <;> simp [Except.map]
  · have hplaces : shiftCount count = .ok places := by rw [shiftCount_eq, if_pos hcount]
    obtain ⟨hsla, hsll, hsrl, hsra⟩ := applyArithmetic_of_count value hplaces
    rw [shiftLeftArithmetic_eq value (by omega)] at hsla
    refine ⟨fun hfits => ⟨_, ?_, hfits.toInt_ofInt⟩, fun hlost => ?_,
      ⟨_, ?_, toInt_shiftLeftLogical value⟩, ⟨_, ?_, toInt_shiftRightLogical value⟩,
      ⟨_, ?_, toInt_shiftRightArithmetic value⟩⟩
    · rw [hshifted (by decide), hsla, if_pos hfits]
      rfl
    · rw [hshifted (by decide), hsla, if_neg hlost]
      rfl
    · rw [hshifted (by decide), hsll]
      rfl
    · rw [hshifted (by decide), hsrl]
      rfl
    · rw [hshifted (by decide), hsra]
      rfl

/-- The number -5 shifted by 30 places: the product does not fit a word. -/
theorem shifts_exact_negative :
    let shifted op :=
      (Expr.binary op (.number (-5) {}) (.number 30 {}) {}).evaluate fun _ => none
    ¬ FitsWord (-5 * 2 ^ 30) ∧ shifted .sla = .error (.overflow .sla) ∧
    GivesInteger (shifted .sll) (-2 ^ 30) ∧ GivesInteger (shifted .srl) 3 ∧
    GivesInteger (shifted .sra) (-1) := by
  have hlost : ¬ FitsWord (-5 * 2 ^ 30) := by decide
  have hproduct : ((-5 : Int) * 2 ^ 30).bmod (2 ^ 32) = -2 ^ 30 := by decide
  have hpattern : (((-5 : Int32).toUInt32.toNat / 2 ^ 30 : Nat) : Int).bmod (2 ^ 32) = 3 := by
    decide
  have hquotient : (-5 : Int) / 2 ^ 30 = -1 := by decide
  have hvalue : (-5 : Int32).toInt = -5 := rfl
  have hcount : (30 : Int32).toInt = 30 := rfl
  obtain ⟨-, hexact⟩ :=
    @shifts_exact (fun _ => none) (.number (-5) {}) (.number 30 {}) (-5) 30 rfl rfl {}
  rw [hcount, hvalue, show (30 : Int).toNat = 30 from rfl, hproduct, hpattern, hquotient] at hexact
  obtain ⟨-, hsla, hsll, hsrl, hsra⟩ := hexact (by decide)
  exact ⟨hlost, hsla hlost, hsll, hsrl, hsra⟩

end Evaluation

end MacroAssembler.Conditional
