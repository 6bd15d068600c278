import MacroAssembler.Proofs.Conditional.Conversions
import MacroAssembler.Proofs.Conditional.Shifts

/-!
# Doubled apostrophes and ampersands

In a text between apostrophes, an apostrophe and an ampersand are written twice. DOUBLE writes them
so, and DCLEN counts the characters that such a text stands for. The two characters are doubled in
either order with the same result (`doubling_comm`), so that the two passes of DCLEN take back what
the two passes of DOUBLE did, whichever runs of the two a text has (`collapse_doubled`).
-/

namespace MacroAssembler.Conditional

/-! ## One character -/

/-- The text with every occurrence of one character written twice. -/
def doubling (c : Char) (cs : List Char) : List Char :=
  cs.flatMap fun a => if a = c then [a, a] else [a]

section Passes

variable {c : Char}

theorem doubling_cons_self (cs : List Char) : doubling c (c :: cs) = c :: c :: doubling c cs := by
  rw [doubling, List.flatMap_cons, if_pos rfl]
  rfl

theorem doubling_cons_of_ne {a : Char} (h : a ≠ c) (cs : List Char) :
    doubling c (a :: cs) = a :: doubling c cs := by
  rw [doubling, List.flatMap_cons, if_neg h]
  rfl

/-- Neither pass makes or breaks a pair of the other: two characters are doubled in either order. -/
theorem doubling_comm {b : Char} (h : b ≠ c) (cs : List Char) :
    doubling b (doubling c cs) = doubling c (doubling b cs) := by
  induction cs with
  | nil => rfl
  | cons a cs ih =>
      by_cases hb : a = b
      · subst hb
        rw [doubling_cons_of_ne h, doubling_cons_self, doubling_cons_self, doubling_cons_of_ne h,
          doubling_cons_of_ne h, ih]
      · by_cases hc : a = c
        · subst hc
          rw [doubling_cons_self, doubling_cons_of_ne hb, doubling_cons_of_ne hb,
            doubling_cons_of_ne hb, doubling_cons_self, ih]
        · rw [doubling_cons_of_ne hc, doubling_cons_of_ne hb, doubling_cons_of_ne hb,
            doubling_cons_of_ne hc, ih]

theorem collapse_cons_self (cs : List Char) : collapse c (c :: c :: cs) = c :: collapse c cs := by
  simp [collapse]

theorem collapse_cons_of_ne {a : Char} (h : a ≠ c) (cs : List Char) :
    collapse c (a :: cs) = a :: collapse c cs := by
  cases cs <;> simp [collapse, h]

/-- Pairs are found from the left, so that a run of any length comes back from twice that length. -/
theorem collapse_doubling (cs : List Char) : collapse c (doubling c cs) = cs := by
  induction cs with
  | nil => rfl
  | cons a cs ih =>
      by_cases h : a = c
      · rw [h, doubling_cons_self, collapse_cons_self, ih]
      · rw [doubling_cons_of_ne h, collapse_cons_of_ne h, ih]

theorem length_collapse_le (cs : List Char) : (collapse c cs).length ≤ cs.length := by
  fun_induction collapse c cs with
  | case1 a b rest hpair ih =>
      simp only [List.length_cons]
      omega
  | case2 a b rest hpair ih =>
      simp only [List.length_cons] at ih ⊢
      omega
  | case3 cs => exact le_rfl

end Passes

/-! ## Apostrophes and ampersands -/

/-- Both characters are doubled by two passes, one for each. -/
theorem doubled_eq (cs : List Char) : doubled cs = doubling '&' (doubling '\'' cs) := by
  rw [doubling, doubling, List.flatMap_assoc, doubled]
  refine congrArg (cs.flatMap ·) (funext fun a => ?_)
  by_cases hquote : a = '\''
  · subst hquote
    rfl
  · by_cases hand : a = '&'
    · subst hand
      rfl
    · simp [hquote, hand]

/-- Apostrophes were doubled first and are also collapsed first, so that the passes are not taken
back in the order in which they were made: the text is the same for either order of making them. -/
theorem collapse_doubled (cs : List Char) : collapse '&' (collapse '\'' (doubled cs)) = cs := by
  rw [doubled_eq, doubling_comm (by decide), collapse_doubling, collapse_doubling]

theorem undoubledLength_doubled (cs : List Char) : undoubledLength (doubled cs) = cs.length := by
  rw [undoubledLength, collapse_doubled]

theorem undoubledLength_le (cs : List Char) : undoubledLength cs ≤ cs.length :=
  (length_collapse_le _).trans (length_collapse_le _)

/-! ## The functions -/

section Evaluation

variable {lookup : VariableSymbol → Option Value} {e : Expr} {s : String}

/-- A word that stores a count is not above it, whether the count fits or not. -/
theorem toInt_ofNat_le (n : Nat) : (Int32.ofNat n).toInt ≤ n := by
  rw [Int32.toInt_ofNat', Int.bmod_def, Int32.size]
  split <;> omega

/-- The two ways to write DOUBLE have the same value. -/
theorem evaluate_double (he : e.evaluate lookup = .ok (.character s)) (range : Range) {d : Expr}
    (hd : d ∈ [Expr.call .double [e] range, Expr.unary .double e range]) :
    d.evaluate lookup = .ok (.character (String.ofList (doubled s.toList))) := by
  simp only [List.mem_cons, List.not_mem_nil, or_false] at hd
  obtain rfl | rfl := hd
  · exact (evaluate_call rfl he range).trans rfl
  · rw [Expr.evaluate, he]
    rfl

theorem evaluate_dclen (he : e.evaluate lookup = .ok (.character s)) (range : Range) :
    (Expr.call .dclen [e] range).evaluate lookup =
      .ok (.arithmetic (Int32.ofNat (undoubledLength s.toList))) :=
  (evaluate_call rfl he range).trans rfl

/-- DCLEN of a doubled text is the number of characters of the text, as a word, whichever way DOUBLE
is written; and DCLEN of a text is never above the number of its characters. -/
theorem dclen_double (he : e.evaluate lookup = .ok (.character s)) (range place : Range) :
    let length d := (Expr.call .dclen [d] range).evaluate lookup
    (∀ d ∈ [Expr.call .double [e] place, Expr.unary .double e place],
      length d = .ok (.arithmetic (Int32.ofNat s.length)) ∧
      (FitsWord s.length → GivesInteger (length d) s.length)) ∧
    ∃ n ≤ s.length, length e = .ok (.arithmetic (Int32.ofNat n)) ∧
      (Int32.ofNat n).toInt ≤ s.length := by
  intro length
  have hle : undoubledLength s.toList ≤ s.length :=
    (undoubledLength_le s.toList).trans_eq String.length_toList
  refine ⟨fun d hd => ?_, undoubledLength s.toList, hle, evaluate_dclen he range,
    (toInt_ofNat_le _).trans (Int.ofNat_le.2 hle)⟩
  have hlength : length d = .ok (.arithmetic (Int32.ofNat s.length)) := by
    refine (evaluate_dclen (evaluate_double he place hd) range).trans ?_
    rw [String.toList_ofList, undoubledLength_doubled, String.length_toList]
  exact ⟨hlength, fun hfits => ⟨_, hlength, Int32.toInt_ofNat_of_lt (Int.ofNat_lt.1 hfits.2)⟩⟩

/-- Runs of both characters, with a character of two bytes between them. -/
theorem dclen_double_runs :
    let length e := (Expr.call .dclen [e] {}).evaluate fun _ => none
    let text := Expr.text "''&é'&&&" {}
    GivesInteger (length (.call .double [text] {})) 8 ∧
    GivesInteger (length (.unary .double text {})) 8 ∧
    ∃ n ≤ 8, length text = .ok (.arithmetic (Int32.ofNat n)) := by
  intro length text
  obtain ⟨hdouble, n, hle, hlength, -⟩ :=
    @dclen_double (fun _ => none) text "''&é'&&&" rfl {} {}
  have hfits : FitsWord "''&é'&&&".length := by decide
  exact ⟨(hdouble _ (by simp)).2 hfits, (hdouble _ (by simp)).2 hfits, n, hle, hlength⟩

end Evaluation

end MacroAssembler.Conditional
