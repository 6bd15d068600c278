import MacroAssembler.Proofs.Field.Balance

/-!
# Macro data that are written and read again

The text of an argument, read as a concatenation, has the argument as its value
(`MacroData.data_text`), if the texts in it have no characters that stand for anything but
themselves. An empty list and a list with an empty text in it are written alike; the one that is
read is the empty list.
-/

open MacroAssembler.Conditional (Fragment Concatenation)
open MacroAssembler.Field (Balanced isPlain isPlain_ne isPlain_of_test readFragments readItems
  readConcatenation pieces pieces_intercalate locate group? groupPiece placeOf consText render_cons
  render_consText)

namespace MacroAssembler

namespace MacroData

/-- A character that stands for itself in the text of an argument. -/
def isLeafChar (c : Char) : Bool := isPlain c && c ≠ '&'

/-- The value has a text that can be read again: nothing in it is omitted, its texts have no
characters that stand for anything but themselves, and it has no list of a single empty text. -/
inductive Writable : MacroData → Prop where
  | single {s : String} : (∀ c ∈ s.toList, isLeafChar c) → Writable (.single s)
  | composite {items : List MacroData} : items ≠ [.single ""] → (∀ item ∈ items, Writable item) →
      Writable (.composite items)

/-- A text of letters, digits, the other characters of names, dots and equals signs. -/
theorem Writable.of_names {s : String} (h : ∀ c ∈ s.toList, Text.isNameChar c ∨ c = '.' ∨ c = '=') :
    (MacroData.single s).Writable := by
  refine .single fun c hc => ?_
  rcases h c hc with hname | rfl | rfl
  · have hplain : isPlain c := isPlain_of_test (by decide) hname
    have hampersand : c ≠ '&' := by
      rintro rfl
      exact absurd hname (by decide)
    simp [isLeafChar, hplain, hampersand]
  · rfl
  · rfl

/-! ## The text of a value -/

theorem texts_eq (items : List MacroData) : texts items = items.map text := by
  induction items with
  | nil => rw [texts, List.map_nil]
  | cons item rest ih => rw [texts, ih, List.map_cons]

/-- The characters between the parentheses of a list. -/
def inner (items : List MacroData) : List Char :=
  [','].intercalate (items.map fun d => d.text.toList)

theorem toList_text_composite (items : List MacroData) :
    (text (.composite items)).toList = '(' :: (inner items ++ [')']) := by
  rw [text, texts_eq]
  simp [inner, String.toList_intercalate, List.map_map, Function.comp_def]

/-- The parentheses of the text come in pairs. -/
theorem Writable.balanced {d : MacroData} (h : d.Writable) : Balanced false d.text.toList := by
  induction h with
  | single hs =>
      rw [text]
      exact .of_plain (fun c hc => (Bool.and_eq_true_iff.1 (hs c hc)).1) false
  | composite _ _ ih =>
      rw [toList_text_composite]
      exact .group (.intercalate (by simpa using ih)) (.nil false)

/-- Only an empty text has no characters. -/
theorem Writable.eq_of_text {d : MacroData} (h : d.Writable) (htext : d.text.toList = []) :
    d = .single "" := by
  cases h with
  | single hs =>
      rw [text, String.toList_eq_nil_iff] at htext
      rw [htext]
  | composite =>
      rw [toList_text_composite] at htext
      cases htext

/-! ## Reading the text -/

/-- The text is read as the value, wherever it stands, and no names are learned from it. -/
def Spells (cs : List Char) (d : MacroData) : Prop :=
  ∀ (stop : Position) (names : NameTable), ∃ c, readFragments stop names cs = (c, names) ∧
    ∀ later, Concatenation.data later c = .ok d

/-- No fragment is a list. -/
def IsFlat (c : Concatenation) : Prop := ∀ items, .sublist items ∉ c

theorem IsFlat.consText {c : Concatenation} (h : IsFlat c) (cs : List Char) :
    IsFlat (Field.consText cs c) := by
  unfold Field.consText
  split <;> simpa [IsFlat] using h

/-- What is not a single list has its text as its value. -/
theorem data_of_isFlat {c : Concatenation} (h : IsFlat c) {names : NameTable} {s : String}
    (hrender : Concatenation.render names c = .ok s) :
    Concatenation.data names c = .ok (.single s) := by
  unfold Concatenation.data
  split
  · exact absurd (List.mem_singleton.2 rfl) (h _)
  · rw [hrender]
    rfl

/-- Characters that stand for themselves are read as fragments that are no lists. -/
theorem exists_flat {cs : List Char} (h : ∀ c ∈ cs, isLeafChar c) (stop : Position)
    (names : NameTable) :
    ∃ c, readFragments stop names cs = (c, names) ∧ IsFlat c ∧
      ∀ later, Concatenation.render later c = .ok (String.ofList cs) := by
  induction cs with
  | nil =>
      refine ⟨[], by rw [readFragments], by simp [IsFlat], fun later => ?_⟩
      rw [Concatenation.render]
  | cons c cs ih =>
      obtain ⟨tail, hread, hflat, hrender⟩ := ih fun d hd => h d (List.mem_cons_of_mem _ hd)
      obtain ⟨hplain, hsingle⟩ := Bool.and_eq_true_iff.1 (h c List.mem_cons_self)
      obtain ⟨hquote, hopen, -⟩ := isPlain_ne hplain
      have hampersand : c ≠ '&' := by simpa using hsingle
      rw [readFragments, if_neg hampersand]
      by_cases hdot : c = '.'
      · have hfragment (later : NameTable) :
            Fragment.dot.render later = .ok (String.ofList [c]) := by
          rw [Fragment.render, hdot]
        refine ⟨.dot :: tail, by rw [if_pos hdot, hread], by simpa [IsFlat] using hflat, ?_⟩
        exact fun later => render_cons (hfragment later) (hrender later)
      rw [if_neg hdot]
      by_cases hequals : c = '='
      · have hfragment (later : NameTable) :
            Fragment.equals.render later = .ok (String.ofList [c]) := by
          rw [Fragment.render, hequals]
        refine ⟨.equals :: tail, by rw [if_pos hequals, hread], by simpa [IsFlat] using hflat, ?_⟩
        exact fun later => render_cons (hfragment later) (hrender later)
      rw [if_neg hequals, if_neg hopen, if_neg hquote, hread]
      exact ⟨consText [c] tail, rfl, hflat.consText [c],
        fun later => render_consText [c] (hrender later)⟩

theorem spells_single {s : String} (h : ∀ c ∈ s.toList, isLeafChar c) :
    Spells s.toList (.single s) := by
  intro stop names
  obtain ⟨c, hread, hflat, hrender⟩ := exists_flat h stop names
  refine ⟨c, hread, fun later => data_of_isFlat hflat ?_⟩
  rw [hrender, String.ofList_toList]

/-- The pieces of the text in a list are read as its items. -/
theorem exists_items {items : List MacroData} (h : ∀ d ∈ items, Spells d.text.toList d)
    (start : Position) (names : NameTable) :
    ∃ cs, readItems names (locate start (items.map fun d => d.text.toList)) = (cs, names) ∧
      ∀ later, Concatenation.dataEach later cs = .ok items := by
  induction items generalizing start with
  | nil =>
      refine ⟨[], by rw [List.map_nil, locate, readItems], fun later => ?_⟩
      rw [Concatenation.dataEach]
  | cons d rest ih =>
      obtain ⟨c, hread, hdata⟩ := h d List.mem_cons_self (Piece.stop ⟨start, d.text.toList⟩) names
      obtain ⟨cs, hreads, hdatas⟩ := ih (fun d' hd' => h d' (List.mem_cons_of_mem _ hd'))
        (start.right (d.text.toList.length + 1))
      refine ⟨c :: cs, ?_, fun later => ?_⟩
      · rw [List.map_cons, locate, readItems, hread]
        dsimp only
        rw [hreads]
      · rw [Concatenation.dataEach, hdata, hdatas]
        rfl

/-- A list is read as one if the pieces in it are read as its items. -/
theorem spells_composite {items : List MacroData} (hbalanced : Balanced true (inner items))
    (h : ∀ start names, ∃ cs, readItems names (pieces ⟨start, inner items⟩) = (cs, names) ∧
      ∀ later, Concatenation.dataEach later cs = .ok items) :
    Spells (text (.composite items)).toList (.composite items) := by
  intro stop names
  have hgroup : group? (inner items ++ [')']) = some (inner items, []) := hbalanced.group?_append []
  obtain ⟨cs, hreads, hdatas⟩ : ∃ cs,
      readItems names (pieces (groupPiece (placeOf stop []) (inner items))) = (cs, names) ∧
        ∀ later, Concatenation.dataEach later cs = .ok items := h _ names
  refine ⟨[.sublist cs], ?_, fun later => ?_⟩
  · rw [toList_text_composite, readFragments, if_neg (by decide), if_neg (by decide),
      if_neg (by decide), if_pos rfl]
    split
    · rename_i inside after hsome
      obtain ⟨rfl, rfl⟩ := Prod.mk.inj (Option.some.inj (hgroup.symm.trans hsome))
      dsimp only
      rw [hreads, readFragments]
    · rename_i hnone
      rw [hgroup] at hnone
      cases hnone
  · rw [Concatenation.data, hdatas]
    rfl

/-- Only in an empty list there is no text. -/
theorem inner_ne_nil {items : List MacroData} (hne : items ≠ []) (hsingle : items ≠ [.single ""])
    (h : ∀ item ∈ items, item.Writable) : inner items ≠ [] := by
  intro hinner
  match items, hne with
  | [item], _ =>
      have htext : item.text.toList = [] := by simpa [inner, List.intercalate] using hinner
      exact hsingle (by rw [(h item List.mem_cons_self).eq_of_text htext])
  | item :: item' :: rest, _ => simp [inner, List.intercalate] at hinner

/-- The text of a value is read as the value. -/
theorem Writable.spells {d : MacroData} (h : d.Writable) : Spells d.text.toList d := by
  induction h with
  | single hs =>
      rw [text]
      exact spells_single hs
  | @composite items hsingle hitems ih =>
      have hbalanced : ∀ cs ∈ items.map fun d => d.text.toList, Balanced false cs := by
        simpa using fun item hitem => (hitems item hitem).balanced
      refine spells_composite (.intercalate hbalanced) fun start names => ?_
      by_cases hne : items = []
      · refine ⟨[], ?_, fun later => ?_⟩
        · rw [hne]
          exact readItems.eq_1 names
        · rw [hne, Concatenation.dataEach]
      · have hpieces : pieces ⟨start, inner items⟩ =
            locate start (items.map fun d => d.text.toList) :=
          pieces_intercalate (inner_ne_nil hne hsingle hitems) hbalanced start
        rw [hpieces]
        exact exists_items ih start names

/-- The text of a value, read as a concatenation, has the value again. -/
theorem data_text {d : MacroData} (h : d.Writable) (start : Position) (names : NameTable) :
    ∃ c, readConcatenation names ⟨start, d.text.toList⟩ = (c, names) ∧
      ∀ later, Concatenation.data later c = .ok d :=
  h.spells _ names

/-- Lists in a list, one of them empty, with the characters of names, dots and equals signs. -/
def nestedList : MacroData :=
  .composite [.single "A.1=", .composite [], .composite [.single "", .single "@#$_z"]]

theorem nestedList_writable : nestedList.Writable := by
  have hletters : (single "A.1=").Writable := .of_names (by simp; decide)
  have hempty : (single "").Writable := .of_names (by simp)
  have hnational : (single "@#$_z").Writable := .of_names (by simp; decide)
  have hlast : (composite [single "", single "@#$_z"]).Writable :=
    .composite (by simp) (by simpa using ⟨hempty, hnational⟩)
  exact .composite (by simp) (by simpa using ⟨hletters, .composite (by simp) (by simp), hlast⟩)

/-- The list is read again from its text. -/
theorem nestedList_data_text : nestedList.Writable ∧ nestedList.text = "(A.1=,(),(,@#$_z))" ∧
    ∃ c, readConcatenation {} ⟨{}, nestedList.text.toList⟩ = (c, {}) ∧
      ∀ later, Concatenation.data later c = .ok nestedList :=
  ⟨nestedList_writable, by simp [nestedList, text, texts], data_text nestedList_writable {} {}⟩

end MacroData

end MacroAssembler
