import MacroAssembler.Proofs.Assembly.Prototypes

/-!
# Cleaning a concatenation

Cleaning takes the fragments without text out of a concatenation and of the sublists in it, and
nothing else. A concatenation that was cleaned is rendered as before. Its value as an argument,
which is found by another walk, has the text that it is rendered with; if a name is unknown, both
fail at the first one (`Concatenation.clean_render_data`).
-/

namespace MacroAssembler.Conditional

mutual
/-- The fragment is not an empty text, and there is none in its sublists. -/
def Fragment.IsClean : Fragment → Prop
  | .text s => s ≠ ""
  | .sublist items => Concatenation.AreClean items
  | _ => True

/-- No fragment of the concatenation is without text, in sublists as well. -/
def Concatenation.IsClean : List Fragment → Prop
  | [] => True
  | fragment :: rest => fragment.IsClean ∧ Concatenation.IsClean rest

/-- None of the concatenations has a fragment without text. -/
def Concatenation.AreClean : List (List Fragment) → Prop
  | [] => True
  | item :: rest => Concatenation.IsClean item ∧ Concatenation.AreClean rest
end

mutual
/-- Cleaning leaves no fragment without text. -/
theorem Concatenation.clean_isClean (c : List Fragment) :
    Concatenation.IsClean (Concatenation.clean c) := by
  match c with
  | [] =>
      rw [Concatenation.clean]
      trivial
  | .text s :: rest =>
      have hrest := Concatenation.clean_isClean rest
      rw [Concatenation.clean]
      split
      · exact hrest
      · rename_i hs
        have hne : s ≠ "" := by simpa using hs
        exact ⟨hne, hrest⟩
  | .sublist items :: rest =>
      rw [Concatenation.clean, Fragment.clean]
      · exact ⟨Concatenation.cleanEach_areClean items, Concatenation.clean_isClean rest⟩
      · rintro s ⟨⟩
  | .reference _ :: rest | .dot :: rest | .equals :: rest =>
      exact ⟨trivial, Concatenation.clean_isClean rest⟩

theorem Concatenation.cleanEach_areClean (items : List (List Fragment)) :
    Concatenation.AreClean (Concatenation.cleanEach items) := by
  match items with
  | [] =>
      rw [Concatenation.cleanEach]
      trivial
  | item :: rest =>
      rw [Concatenation.cleanEach]
      exact ⟨Concatenation.clean_isClean item, Concatenation.cleanEach_areClean rest⟩
end

mutual
/-- Cleaning takes nothing else out. -/
theorem Concatenation.clean_of_isClean {c : List Fragment} (h : Concatenation.IsClean c) :
    Concatenation.clean c = c := by
  match c with
  | [] => rw [Concatenation.clean]
  | .text s :: rest =>
      have hne : s ≠ "" := h.1
      have hs : ¬ s.isEmpty = true := by simpa using hne
      rw [Concatenation.clean, if_neg hs, Concatenation.clean_of_isClean h.2]
  | .sublist items :: rest =>
      rw [Concatenation.clean, Fragment.clean, Concatenation.cleanEach_of_areClean h.1,
        Concatenation.clean_of_isClean h.2]
      rintro s ⟨⟩
  | .reference _ :: rest | .dot :: rest | .equals :: rest =>
      exact congrArg _ (Concatenation.clean_of_isClean h.2)

theorem Concatenation.cleanEach_of_areClean {items : List (List Fragment)}
    (h : Concatenation.AreClean items) : Concatenation.cleanEach items = items := by
  match items with
  | [] => rw [Concatenation.cleanEach]
  | item :: rest =>
      rw [Concatenation.cleanEach, Concatenation.clean_of_isClean h.1,
        Concatenation.cleanEach_of_areClean h.2]
end

mutual
/-- A fragment is rendered as before its sublists were cleaned. -/
theorem Fragment.render_clean (names : NameTable) (fragment : Fragment) :
    fragment.clean.render names = fragment.render names := by
  match fragment with
  | .sublist items =>
      rw [Fragment.clean, Fragment.render, Fragment.render, Concatenation.renderEach_clean]
  | .text _ | .reference _ | .dot | .equals => rfl

/-- A concatenation is rendered as before it was cleaned. -/
theorem Concatenation.render_clean (names : NameTable) (c : List Fragment) :
    Concatenation.render names (Concatenation.clean c) = Concatenation.render names c := by
  match c with
  | [] => rw [Concatenation.clean]
  | .text s :: rest =>
      have hrest := Concatenation.render_clean names rest
      rw [Concatenation.clean]
      split
      · rename_i hs
        obtain rfl : s = "" := by simpa using hs
        rw [hrest, Concatenation.render, Fragment.render]
        cases Concatenation.render names rest <;> simp [bind, Except.bind, pure, Except.pure]
      · rw [Concatenation.render, Concatenation.render, hrest]
  | .sublist items :: rest =>
      have hfirst := Fragment.render_clean names (.sublist items)
      rw [Concatenation.clean, Concatenation.render, Concatenation.render, hfirst,
        Concatenation.render_clean names rest]
      rintro s ⟨⟩
  | .reference _ :: rest | .dot :: rest | .equals :: rest =>
      have hrest := Concatenation.render_clean names rest
      rw [Concatenation.clean, Fragment.clean, Concatenation.render, Concatenation.render,
        hrest] <;>
        rintro _ ⟨⟩

theorem Concatenation.renderEach_clean (names : NameTable) (items : List (List Fragment)) :
    Concatenation.renderEach names (Concatenation.cleanEach items) =
      Concatenation.renderEach names items := by
  match items with
  | [] => rw [Concatenation.cleanEach]
  | item :: rest =>
      rw [Concatenation.cleanEach, Concatenation.renderEach, Concatenation.renderEach,
        Concatenation.render_clean names item, Concatenation.renderEach_clean names rest]
end

/-- Cleaning leaves no fragment without text, so that cleaning again changes nothing, and the
concatenation is rendered as before. A concatenation is not rendered exactly if it mentions an
unknown name, and the fault is that of the first one; then it has no value either, for the same
fault. If it is rendered, it has a value with the text that it is rendered with. -/
theorem Concatenation.clean_render_data (names : NameTable) (c : Concatenation) :
    (Concatenation.IsClean (Concatenation.clean c) ∧
      Concatenation.clean (Concatenation.clean c) = Concatenation.clean c) ∧
    Concatenation.render names (Concatenation.clean c) = Concatenation.render names c ∧
    (∀ e, Concatenation.render names c = .error e ↔
      firstUnknown? names (Concatenation.mentioned c) = some e) ∧
    (∀ e, Concatenation.data names c = .error e ↔ Concatenation.render names c = .error e) ∧
    ∀ s, Concatenation.render names c = .ok s ↔
      ∃ d, Concatenation.data names c = .ok d ∧ d.text = s := by
  have hclean := Concatenation.clean_isClean c
  refine ⟨⟨hclean, Concatenation.clean_of_isClean hclean⟩, Concatenation.render_clean names c,
    fun e => ?_, fun e => ?_, fun s => ?_⟩
  · rw [← Concatenation.fault?_render, fault?_eq_some_iff]
  · rw [← fault?_eq_some_iff, ← fault?_eq_some_iff, Concatenation.fault?_data]
  · rw [← Field.text_data]
    cases Concatenation.data names c <;> simp [Except.map]

end MacroAssembler.Conditional
