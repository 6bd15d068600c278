import Mathlib.Data.Prod.Lex
import Mathlib.Data.Set.Basic
import Mathlib.Data.String.Basic
import MacroAssembler.Conditional.Evaluation

/-!
# The order of texts

The six comparisons of texts agree with one total order, in which a text that takes fewer bytes
comes first, and between texts of equally many bytes the first characters that differ decide. Texts
over a set of characters come in the order of their numbers of characters exactly if all characters
of the set take equally many bytes (`comparisons_ordered`).
-/

namespace MacroAssembler.Conditional

/-! ## Ranks -/

/-- The place of a text in the order that looks at the size first and then at the characters. -/
def rank (size : List Char → Nat) (s : String) : Nat ×ₗ List Char := toLex (size s.toList, s.toList)

section Ranks

variable {size : List Char → Nat} {l r : String}

/-- Different texts have different places. -/
theorem rank_eq_iff : rank size l = rank size r ↔ l = r := by
  refine ⟨fun h => String.toList_inj.1 (Prod.mk.inj (toLex.injective h)).2, fun h => ?_⟩
  rw [h]

theorem rank_lt_iff : rank size l < rank size r ↔
    size l.toList < size r.toList ∨ size l.toList = size r.toList ∧ l.toList < r.toList :=
  Prod.Lex.toLex_lt_toLex

/-- The comparison of two texts tells which of them has the lower rank by bytes. -/
theorem compareTexts_compares (l r : String) :
    (compareTexts l r).Compares (rank Text.byteLength l) (rank Text.byteLength r) := by
  rcases lt_trichotomy (Text.byteLength l.toList) (Text.byteLength r.toList) with
    hsize | hsize | hsize
  · rw [compareTexts, compare_lt_iff_lt.2 hsize]
    exact rank_lt_iff.2 (.inl hsize)
  · rw [compareTexts, compare_eq_iff_eq.2 hsize]
    rcases lt_trichotomy l r with h | rfl | h
    · rw [compare_lt_iff_lt.2 h]
      exact rank_lt_iff.2 (.inr ⟨hsize, String.lt_iff_toList_lt.1 h⟩)
    · rw [compare_eq_iff_eq.2 rfl]
      exact rfl
    · rw [compare_gt_iff_gt.2 h]
      exact rank_lt_iff.2 (.inr ⟨hsize.symm, String.lt_iff_toList_lt.1 h⟩)
  · rw [compareTexts, compare_gt_iff_gt.2 hsize]
    exact rank_lt_iff.2 (.inl hsize)

end Ranks

/-! ## Comparisons -/

/-- The six comparisons of two texts say how the texts stand to each other in the order by size. -/
structure Compared (size : List Char → Nat) (result : Operator → Except EvalError Value)
    (l r : String) : Prop where
  eq : result .eq = .ok (.boolean (l = r))
  ne : result .ne = .ok (.boolean (l ≠ r))
  lt : result .lt = .ok (.boolean (rank size l < rank size r))
  le : result .le = .ok (.boolean (rank size l ≤ rank size r))
  gt : result .gt = .ok (.boolean (rank size l > rank size r))
  ge : result .ge = .ok (.boolean (rank size l ≥ rank size r))

/-- The texts of a set are compared in the order by size, whatever expressions they are the values
of. -/
def OrderedBy (size : List Char → Nat) (texts : Set String) : Prop :=
  ∀ (lookup : VariableSymbol → Option Value) (left right : Expr) (range : Range), ∀ l ∈ texts,
    ∀ r ∈ texts, left.evaluate lookup = .ok (.character l) →
      right.evaluate lookup = .ok (.character r) →
      Compared size (fun op => (Expr.binary op left right range).evaluate lookup) l r

/-- An order in which the texts stand to each other in the same way is compared by, too. -/
theorem Compared.congr {size size' : List Char → Nat} {result : Operator → Except EvalError Value}
    {l r : String} (h : Compared size result l r)
    (hlt : rank size l < rank size r ↔ rank size' l < rank size' r)
    (hgt : rank size r < rank size l ↔ rank size' r < rank size' l) :
    Compared size' result l r := by
  have hle := not_congr hgt
  have hge := not_congr hlt
  rw [not_lt, not_lt] at hle hge
  constructor
  · exact h.eq
  · exact h.ne
  · rw [h.lt, decide_eq_decide.2 hlt]
  · rw [h.le, decide_eq_decide.2 hle]
  · rw [h.gt, decide_eq_decide.2 hgt]
  · rw [h.ge, decide_eq_decide.2 hge]

/-- A comparison of two texts looks at their order. -/
theorem evaluate_comparison {lookup : VariableSymbol → Option Value} {left right : Expr}
    {l r : String} (hleft : left.evaluate lookup = .ok (.character l))
    (hright : right.evaluate lookup = .ok (.character r)) {op : Operator} {holds : Ordering → Bool}
    (hop : comparison? op = some holds) (range : Range) :
    (Expr.binary op left right range).evaluate lookup =
      .ok (.boolean (holds (compareTexts l r))) := by
  rw [Expr.evaluate, hleft, hright]
  change applyBinary op (.character l) (.character r) = _
  rw [applyBinary, hop]
  rfl

/-- What the six relations say of the outcome of a comparison. -/
theorem outcome_eq {α : Type} [LinearOrder α] {a b : α} {o : Ordering} (h : o.Compares a b) :
    o.isEq = decide (a = b) ∧ o.isNe = decide (a ≠ b) ∧ o.isLT = decide (a < b) ∧
      o.isLE = decide (a ≤ b) ∧ o.isGT = decide (a > b) ∧ o.isGE = decide (a ≥ b) := by
  cases o with
  | lt =>
      have h : a < b := h
      simp [h, h.ne, h.le, h.not_gt, h.not_ge]
  | eq =>
      obtain rfl : a = b := h
      simp
  | gt =>
      have h : b < a := h
      simp [h, h.ne', h.le, h.not_gt, h.not_ge]

/-- All texts are ordered by their numbers of bytes. -/
theorem orderedBy_byteLength : OrderedBy Text.byteLength Set.univ := by
  intro lookup left right range l _ r _ hleft hright
  have hresult {op : Operator} {holds : Ordering → Bool} (hop : comparison? op = some holds) :=
    evaluate_comparison hleft hright hop range
  obtain ⟨heq, hne, hlt, hle, hgt, hge⟩ := outcome_eq (compareTexts_compares l r)
  simp only [ne_eq, rank_eq_iff] at heq hne
  constructor
  · rw [hresult rfl, heq]
  · rw [hresult rfl, hne]
  · rw [hresult rfl, hlt]
  · rw [hresult rfl, hle]
  · rw [hresult rfl, hgt]
  · rw [hresult rfl, hge]

/-! ## Bytes and characters -/

section Alphabets

variable {size : Nat}

theorem utf8Size_eq (c : Char) : c.utf8Size =
    if c.toNat ≤ 0x7F then 1 else if c.toNat ≤ 0x7FF then 2
    else if c.toNat ≤ 0xFFFF then 3 else 4 :=
  rfl

/-- A character that takes fewer bytes has a lower number. -/
theorem lt_of_utf8Size_lt {a b : Char} (h : a.utf8Size < b.utf8Size) : a < b := by
  rw [← not_le]
  intro hle
  have hle : b.toNat ≤ a.toNat := hle
  rw [utf8Size_eq, utf8Size_eq] at h
  split_ifs at h <;> omega

theorem byteLength_eq_mul {cs : List Char} (h : ∀ c ∈ cs, c.utf8Size = size) :
    Text.byteLength cs = size * cs.length := by
  induction cs with
  | nil => rfl
  | cons c cs ih =>
      obtain ⟨hc, hcs⟩ := List.forall_mem_cons.1 h
      rw [Text.byteLength, hc, ih hcs, List.length_cons, Nat.mul_succ, Nat.add_comm]

/-- Texts of characters that take equally many bytes stand to each other by bytes as they stand by
characters. -/
theorem rank_lt_iff_of_utf8Size (hpos : 0 < size) {l r : String}
    (hl : ∀ c ∈ l.toList, c.utf8Size = size) (hr : ∀ c ∈ r.toList, c.utf8Size = size) :
    rank Text.byteLength l < rank Text.byteLength r ↔ rank List.length l < rank List.length r := by
  simp only [rank_lt_iff, byteLength_eq_mul hl, byteLength_eq_mul hr, Nat.mul_lt_mul_left hpos,
    Nat.mul_right_inj hpos.ne']

/-- Of two characters that do not take equally many bytes, two texts of equally many bytes can be
written, of which the one with fewer characters comes second. -/
theorem exists_rank_lt_of_utf8Size_lt {a b : Char} (h : a.utf8Size < b.utf8Size) :
    ∃ l r : String, (∀ c ∈ l.toList, c = b) ∧ (∀ c ∈ r.toList, c = a) ∧
      rank List.length l < rank List.length r ∧
      rank Text.byteLength r < rank Text.byteLength l := by
  refine ⟨String.ofList (List.replicate a.utf8Size b), String.ofList (List.replicate b.utf8Size a),
    ?_, ?_, ?_, ?_⟩
  · rw [String.toList_ofList]
    exact fun c hc => List.eq_of_mem_replicate hc
  · rw [String.toList_ofList]
    exact fun c hc => List.eq_of_mem_replicate hc
  · refine rank_lt_iff.2 (.inl ?_)
    simpa only [String.toList_ofList, List.length_replicate] using h
  · have hbytes (c : Char) (n : Nat) :
        Text.byteLength (List.replicate n c) = c.utf8Size * n := by
      rw [byteLength_eq_mul fun d hd => by rw [List.eq_of_mem_replicate hd], List.length_replicate]
    refine rank_lt_iff.2 (.inr ?_)
    simp only [String.toList_ofList, hbytes, Nat.mul_comm b.utf8Size, true_and]
    obtain ⟨m, hm⟩ := Nat.exists_eq_add_one_of_ne_zero a.utf8Size_pos.ne'
    obtain ⟨n, hn⟩ := Nat.exists_eq_add_one_of_ne_zero b.utf8Size_pos.ne'
    rw [hm, hn, List.replicate_succ, List.replicate_succ]
    exact List.cons_lt_cons_iff.2 (.inl (lt_of_utf8Size_lt h))

end Alphabets

/-- The comparisons of texts agree with one total order, whatever expressions the texts are the
values of: a text that takes fewer bytes comes first, and between texts of equally many bytes the
first characters that differ decide. Texts over a set of characters are in the order of their
numbers of characters exactly if all characters of the set take equally many bytes. -/
theorem comparisons_ordered (alphabet : Set Char) :
    OrderedBy Text.byteLength Set.univ ∧
    (OrderedBy List.length {s | ∀ c ∈ s.toList, c ∈ alphabet} ↔
      ∀ a ∈ alphabet, ∀ b ∈ alphabet, a.utf8Size = b.utf8Size) := by
  refine ⟨orderedBy_byteLength, fun h a ha b hb => ?_, fun h => ?_⟩
  · have hnot {a b : Char} (ha : a ∈ alphabet) (hb : b ∈ alphabet) : ¬ a.utf8Size < b.utf8Size := by
      intro hlt
      obtain ⟨l, r, hl, hr, hchars, hbytes⟩ := exists_rank_lt_of_utf8Size_lt hlt
      have hbyChars := (h (fun _ => none) (.text l {}) (.text r {}) {} l
        (fun c hc => hl c hc ▸ hb) r (fun c hc => hr c hc ▸ ha) rfl rfl).lt
      have hbyBytes := (orderedBy_byteLength (fun _ => none) (.text l {}) (.text r {}) {} l
        trivial r trivial rfl rfl).lt
      rw [hbyBytes, decide_eq_false hbytes.not_gt, decide_eq_true hchars] at hbyChars
      simp at hbyChars
    exact Nat.le_antisymm (not_lt.1 (hnot hb ha)) (not_lt.1 (hnot ha hb))
  · obtain ⟨size, hpos, hsize⟩ : ∃ size, 0 < size ∧ ∀ c ∈ alphabet, c.utf8Size = size := by
      obtain rfl | ⟨a, ha⟩ := alphabet.eq_empty_or_nonempty
      · exact ⟨1, Nat.one_pos, fun c hc => hc.elim⟩
      · exact ⟨a.utf8Size, a.utf8Size_pos, fun c hc => h c hc a ha⟩
    intro lookup left right range l hl r hr hleft hright
    have hl' : ∀ c ∈ l.toList, c.utf8Size = size := fun c hc => hsize c (hl c hc)
    have hr' : ∀ c ∈ r.toList, c.utf8Size = size := fun c hc => hsize c (hr c hc)
    exact (orderedBy_byteLength lookup left right range l trivial r trivial hleft hright).congr
      (rank_lt_iff_of_utf8Size hpos hl' hr') (rank_lt_iff_of_utf8Size hpos hr' hl')

/-- The character with the number 200, which takes two bytes, comes behind two letters. -/
theorem accentedCharacter_behind_letters :
    let accented := Expr.unary .byte (.number 200 {}) {}
    let letters := Expr.text "AB" {}
    let compared op := (Expr.binary op accented letters {}).evaluate fun _ => none
    accented.evaluate (fun _ => none) = .ok (.character "È") ∧
    rank List.length "È" < rank List.length "AB" ∧ compared .lt = .ok (.boolean false) ∧
    ¬ Compared List.length compared "È" "AB" := by
  intro accented letters compared
  have haccented : accented.evaluate (fun _ => none) = .ok (.character "È") := by decide +kernel
  have hfirst : rank List.length "È" < rank List.length "AB" := by decide
  have hbehind : compared .lt = .ok (.boolean false) := by decide +kernel
  refine ⟨haccented, hfirst, hbehind, fun h => ?_⟩
  have hlt := h.lt
  rw [hbehind, decide_eq_true hfirst] at hlt
  simp at hlt

end MacroAssembler.Conditional
