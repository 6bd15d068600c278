import MacroAssembler.Proofs.Field.Addresses

/-!
# Where a field is split

A field ends in front of its first blank outside of apostrophes, and is split at the commas outside
of apostrophes that stand at nesting zero, counted from its start. This says all about its pieces
and their numbers (`split_eq_some_iff`). Texts that have no such comma or blank, and close what they
open, are found again when they are joined with commas (`split_intercalate`).
-/

namespace MacroAssembler.Field

/-! ## Nesting -/

/-- How much deeper the text behind a character is nested. Parentheses in apostrophes do not
count. -/
def nestingStep (quoted : Bool) (c : Char) : Int :=
  if quoted then 0 else if c = '(' then 1 else if c = ')' then -1 else 0

/-- How much deeper the end of a text is nested than its start. It is negative if more parentheses
are closed than opened. -/
def nesting (quoted : Bool) : List Char → Int
  | [] => 0
  | c :: rest => nestingStep quoted c + nesting (quotedBehind quoted c) rest

/-- Behind the text one is outside of apostrophes and of parentheses. -/
def AtTop (done : List Char) : Prop := quotedAfter false done = false ∧ nesting false done = 0

/-- The text has no comma at which it is split, if it stands behind `done`. -/
def NoTopComma (done text : List Char) : Prop :=
  ∀ front rest, text = front ++ ',' :: rest → ¬ AtTop (done ++ front)

variable {cs done taken text word : List Char} {texts : List (List Char)}

theorem nesting_append (quoted : Bool) (cs ds : List Char) :
    nesting quoted (cs ++ ds) = nesting quoted cs + nesting (quotedAfter quoted cs) ds := by
  induction cs generalizing quoted with
  | nil => simp [nesting, quotedAfter]
  | cons c cs ih => rw [List.cons_append, nesting, nesting, quotedAfter_cons, ih, Int.add_assoc]

theorem nesting_snoc (quoted : Bool) (cs : List Char) (c : Char) :
    nesting quoted (cs ++ [c]) = nesting quoted cs + nestingStep (quotedAfter quoted cs) c := by
  rw [nesting_append, nesting, nesting, Int.add_zero]

theorem quotedAfter_snoc (quoted : Bool) (cs : List Char) (c : Char) :
    quotedAfter quoted (cs ++ [c]) = quotedBehind (quotedAfter quoted cs) c := by
  rw [quotedAfter_append, quotedAfter_cons]
  rfl

/-- Nothing in apostrophes counts. -/
theorem nesting_of_notMem {body : List Char} (h : '\'' ∉ body) : nesting true body = 0 := by
  induction body with
  | nil => rfl
  | cons c body ih =>
      obtain ⟨hc, hbody⟩ := not_or.1 (mt List.mem_cons.2 h)
      rw [nesting, quotedBehind_of_ne (Ne.symm hc), ih hbody]
      rfl

theorem Balanced.nesting_eq {inside : Bool} (h : Balanced inside cs) : nesting false cs = 0 := by
  induction h with
  | nil => rfl
  | plain hc _ ih =>
      obtain ⟨hquote, hopen, hclose, -⟩ := isPlain_ne hc
      rw [nesting, quotedBehind_of_ne hquote, ih, nestingStep]
      simp [hopen, hclose]
  | comma _ ih => exact (Int.zero_add _).trans ih
  | @quoted _ body cs hbody _ ih =>
      have hquote :
          nesting false ('\'' :: (body ++ '\'' :: cs)) = nesting true (body ++ '\'' :: cs) :=
        Int.zero_add _
      have hbehind : nesting true ('\'' :: cs) = nesting false cs := Int.zero_add _
      rw [hquote, nesting_append, nesting_of_notMem hbody, quotedAfter_of_notMem hbody, hbehind, ih]
      rfl
  | @group _ inner cs hinner _ ihinner ih =>
      have hopen : nesting false ('(' :: (inner ++ ')' :: cs)) =
          1 + nesting false (inner ++ ')' :: cs) := rfl
      have hclose : nesting false (')' :: cs) = -1 + nesting false cs := rfl
      rw [hopen, nesting_append, ihinner, hinner.quotedAfter_eq, hclose, ih]
      rfl

theorem atTop_append (h : AtTop done) : AtTop (done ++ cs) ↔ AtTop cs := by
  rw [AtTop, AtTop, quotedAfter_append, nesting_append, h.1, h.2, Int.zero_add]

theorem atTop_comma (h : AtTop done) : AtTop (done ++ [',']) :=
  (atTop_append h).2 ⟨rfl, rfl⟩

theorem noTopComma_append (h : AtTop done) : NoTopComma done cs ↔ NoTopComma [] cs := by
  simp only [NoTopComma, atTop_append h, List.nil_append]

theorem noTopComma_nil (done : List Char) : NoTopComma done [] := by simp [NoTopComma]

/-- A character joins a text without commas, if it is not a comma to split at. -/
theorem noTopComma_snoc {c : Char} (h : NoTopComma done text)
    (hc : c = ',' → ¬ AtTop (done ++ text)) :
    NoTopComma done (text ++ [c]) := by
  intro front rest heq
  rcases List.eq_nil_or_concat rest with rfl | ⟨rest, d, rfl⟩
  · obtain ⟨rfl, hlast⟩ := List.append_inj' heq rfl
    exact hc (List.singleton_inj.1 hlast)
  · rw [List.concat_eq_append, ← List.cons_append, ← List.append_assoc] at heq
    exact h front rest (List.append_inj' heq rfl).1

/-! ## Pieces -/

/-- What cutting does at a character: it splits at a comma, ends at a blank, or goes on. -/
theorem cut_char (depth : Int) (quoted : Bool) (c : Char) (rest : List Char) :
    cut depth quoted (c :: rest) =
      if quoted = false ∧ depth = 0 ∧ c = ',' then [] :: cut depth quoted rest
      else if quoted = false ∧ c = ' ' then [[]]
      else consFirst c (cut (depth + nestingStep quoted c) (quotedBehind quoted c) rest) := by
  rw [cut]
  cases quoted with
  | true => by_cases hc : c = '\'' <;> simp [nestingStep, quotedBehind, hc]
  | false =>
      by_cases hquote : c = '\''
      · simp [nestingStep, quotedBehind, hquote]
      by_cases hopen : c = '('
      · simp [nestingStep, quotedBehind, hopen]
      by_cases hclose : c = ')'
      · simp [nestingStep, quotedBehind, hclose, Int.sub_eq_add_neg]
      · simp [nestingStep, quotedBehind, hquote, hopen, hclose, and_comm]

/-- The numbered texts follow the text `done`, with a comma behind each but the last: each has the
number of characters in front of it, and no comma to split at; the commas between them are such
commas. -/
inductive Splits : List Char → List (Nat × List Char) → Prop where
  | last {done text : List Char} : NoTopComma done text → Splits done [(done.length, text)]
  | more {done text : List Char} {rest : List (Nat × List Char)} : NoTopComma done text →
      AtTop (done ++ text) → Splits (done ++ (text ++ [','])) rest →
      Splits done ((done.length, text) :: rest)

/-- The texts with commas between them. -/
def joined (ps : List (Nat × List Char)) : List Char := [','].intercalate (ps.map Prod.snd)

/-- The text up to its first blank outside of apostrophes, or all of it. -/
def UpToBlank (cs taken : List Char) : Prop :=
  Unspaced false taken ∧
    ∃ rest, cs = taken ++ rest ∧ ∀ c ∈ rest.head?, c = ' ' ∧ quotedAfter false taken = false

theorem joined_cons (p : Nat × List Char) {ps : List (Nat × List Char)} (hne : ps ≠ []) :
    joined (p :: ps) = p.2 ++ ',' :: joined ps := by
  obtain ⟨q, ps, rfl⟩ := List.exists_cons_of_ne_nil hne
  simp [joined, List.intercalate]

theorem Splits.ne_nil {ps : List (Nat × List Char)} (h : Splits done ps) : ps ≠ [] := by
  cases h <;> exact List.cons_ne_nil _ _

/-- The pieces that cutting gives, when it goes on behind `word`. -/
theorem splits_cut (h : NoTopComma done word) (rest : List Char) :
    Splits done (number done.length (appendFirst word
      (cut (nesting false (done ++ word)) (quotedAfter false (done ++ word)) rest))) := by
  induction rest generalizing done word with
  | nil =>
      rw [cut, appendFirst, List.append_nil, number, number]
      exact .last h
  | cons c rest ih =>
      rw [cut_char]
      split
      · rename_i hcomma
        obtain ⟨hquoted, hdepth, rfl⟩ := hcomma
        have htop : AtTop (done ++ word) := ⟨hquoted, hdepth⟩
        have hnext : AtTop (done ++ (word ++ [','])) := by
          rw [← List.append_assoc]
          exact atTop_comma htop
        have hrest := ih (noTopComma_nil (done ++ (word ++ [','])))
        have hlength : (done ++ (word ++ [','])).length = done.length + word.length + 1 := by
          simp [Nat.add_assoc]
        rw [List.append_nil, hnext.1, hnext.2, appendFirst_nil (cut_ne_nil _ _ _), hlength] at hrest
        rw [hquoted, hdepth, appendFirst, List.append_nil, number]
        exact .more h htop hrest
      · rename_i hcomma
        split
        · rw [appendFirst, List.append_nil, number, number]
          exact .last h
        · have hgrown : NoTopComma done (word ++ [c]) :=
            noTopComma_snoc h fun hc htop => hcomma ⟨htop.1, htop.2, hc⟩
          have hrest := ih hgrown
          rwa [← List.append_assoc, nesting_snoc, quotedAfter_snoc,
            ← appendFirst_consFirst] at hrest

/-- The pieces make up the text as far as it is cut, which is in front of a blank or at its end. -/
theorem exists_cut_append (depth : Int) (quoted : Bool) (cs : List Char) :
    Unspaced quoted ([','].intercalate (cut depth quoted cs)) ∧
      ∃ rest, cs = [','].intercalate (cut depth quoted cs) ++ rest ∧
        ∀ c ∈ rest.head?,
          c = ' ' ∧ quotedAfter quoted ([','].intercalate (cut depth quoted cs)) = false := by
  induction cs generalizing depth quoted with
  | nil => exact ⟨trivial, [], rfl, by simp⟩
  | cons c cs ih =>
      rw [cut_char]
      split
      · rename_i hcomma
        obtain ⟨rfl, -, rfl⟩ := hcomma
        obtain ⟨hunspaced, rest, heq, hrest⟩ := ih depth false
        obtain ⟨first, others, hcut⟩ := List.exists_cons_of_ne_nil (cut_ne_nil depth false cs)
        have hjoined : [','].intercalate ([] :: cut depth false cs) =
            ',' :: [','].intercalate (cut depth false cs) := by
          rw [hcut]
          simp [List.intercalate]
        rw [hjoined]
        exact ⟨⟨fun _ => by decide, hunspaced⟩, rest, by rw [List.cons_append, ← heq], hrest⟩
      · split
        · rename_i hblank
          obtain ⟨rfl, rfl⟩ := hblank
          exact ⟨trivial, ' ' :: cs, rfl, by simp [List.intercalate, quotedAfter]⟩
        · rename_i hblank
          obtain ⟨hunspaced, rest, heq, hrest⟩ :=
            ih (depth + nestingStep quoted c) (quotedBehind quoted c)
          obtain ⟨first, others, hcut⟩ := List.exists_cons_of_ne_nil
            (cut_ne_nil (depth + nestingStep quoted c) (quotedBehind quoted c) cs)
          rw [hcut] at hunspaced heq hrest ⊢
          rw [consFirst, intercalate_cons_cons]
          exact ⟨⟨fun hquoted hc => hblank ⟨hquoted, hc⟩, hunspaced⟩, rest,
            by rw [List.cons_append, ← heq], hrest⟩

/-! ## The pieces are determined -/

theorem UpToBlank.unique {taken' : List Char} (h : UpToBlank cs taken) (h' : UpToBlank cs taken') :
    taken = taken' := by
  -- if one of the texts went on where the other ends, it would go on with a blank
  have hstop {taken more rest : List Char} (h : UpToBlank cs taken)
      (hmore : Unspaced false (taken ++ more)) (heq : cs = taken ++ more ++ rest) : more = [] := by
    obtain ⟨-, rest', hcs, hrest⟩ := h
    cases more with
    | nil => rfl
    | cons c more =>
        rw [hcs, List.append_assoc, List.append_cancel_left_eq] at heq
        obtain ⟨rfl, hquoted⟩ := hrest c (by rw [heq]; rfl)
        exact absurd rfl ((unspaced_append.1 hmore).2.1 hquoted)
  have ⟨hunspaced, rest, hcs, _⟩ := h
  have ⟨hunspaced', rest', hcs', _⟩ := h'
  rcases List.append_eq_append_iff.1 (hcs.symm.trans hcs') with ⟨more, rfl, -⟩ | ⟨more, rfl, -⟩
  · rw [hstop h hunspaced' hcs', List.append_nil]
  · rw [hstop h' hunspaced hcs, List.append_nil]

/-- A text without commas to split at does not go on behind such a comma. -/
theorem NoTopComma.le {text' rest rest' : List Char} (h : NoTopComma done text)
    (htop : AtTop (done ++ text')) (heq : text ++ rest = text' ++ ',' :: rest') :
    ∃ more, text' = text ++ more ∧ rest = more ++ ',' :: rest' := by
  rcases List.append_eq_append_iff.1 heq with hle | ⟨more, rfl, hrest⟩
  · exact hle
  · cases more with
    | nil => exact ⟨[], by simp, by simpa using hrest.symm⟩
    | cons c more =>
        obtain ⟨rfl, -⟩ := List.cons.inj hrest
        exact absurd htop (h text' more rfl)

theorem Splits.unique {ps ps' : List (Nat × List Char)} (h : Splits done ps) (h' : Splits done ps')
    (heq : joined ps = joined ps') : ps = ps' := by
  induction h generalizing ps' with
  | @last done text hno =>
      cases h' with
      | @last _ text' hno' =>
          obtain rfl : text = text' := by simpa [joined, List.intercalate] using heq
          rfl
      | @more _ text' rest' hno' htop' hrest' =>
          rw [joined_cons _ hrest'.ne_nil] at heq
          have htext : text = text' ++ ',' :: joined rest' := by
            simpa [joined, List.intercalate] using heq
          exact absurd htop' (hno text' _ htext)
  | @more done text rest hno htop hrest ih =>
      rw [joined_cons _ hrest.ne_nil] at heq
      cases h' with
      | @last _ text' hno' =>
          have htext : text' = text ++ ',' :: joined rest := by
            simpa [joined, List.intercalate] using heq.symm
          exact absurd htop (hno' text _ htext)
      | @more _ text' rest' hno' htop' hrest' =>
          rw [joined_cons _ hrest'.ne_nil] at heq
          obtain ⟨more, htext, -⟩ := hno.le htop' heq
          obtain ⟨more', htext', -⟩ := hno'.le htop heq.symm
          obtain rfl : text = text' := by
            have hlength := congrArg List.length htext
            have hlength' := congrArg List.length htext'
            rw [List.length_append] at hlength hlength'
            obtain rfl : more = [] := List.length_eq_zero_iff.1 (by omega)
            rw [htext, List.append_nil]
          have hrests : joined rest = joined rest' := by simpa using heq
          rw [ih hrest' hrests]

theorem map_snd_number (n : Nat) (texts : List (List Char)) :
    (number n texts).map Prod.snd = texts := by
  induction texts generalizing n with
  | nil => rfl
  | cons text texts ih => rw [number, List.map_cons, ih]

/-- A field is split where the rules say, and in no other way. -/
theorem split_eq_some_iff {field : List Char} (hne : field ≠ []) {ps : List (Nat × List Char)} :
    split field = some ps ↔ Splits [] ps ∧ UpToBlank field (joined ps) := by
  have hsplits : Splits [] (numberedPieces field) := by
    have hcut := splits_cut (noTopComma_nil []) field
    rw [List.append_nil, appendFirst_nil (cut_ne_nil _ _ _)] at hcut
    rwa [numberedPieces, if_neg hne]
  have htaken : UpToBlank field (joined (numberedPieces field)) := by
    rw [joined, numberedPieces, if_neg hne, map_snd_number]
    exact exists_cut_append 0 false field
  rw [split_eq, Option.some.injEq]
  constructor
  · rintro rfl
    exact ⟨hsplits, htaken⟩
  · rintro ⟨h, h'⟩
    exact hsplits.unique h (htaken.unique h')

/-! ## Texts that are joined -/

/-- The text has no comma to split at and no blank outside of apostrophes, and its parentheses and
apostrophes come out even. -/
structure Whole (text : List Char) : Prop where
  comma : NoTopComma [] text
  blank : Unspaced false text
  ends : AtTop text

/-- A text is whole in particular if its parentheses and apostrophes come in pairs. -/
theorem Balanced.whole (h : Balanced false text) : Whole text := by
  have hcut : cut 0 false text = [text] := by
    have hsingle : cut 0 false ([','].intercalate [text]) = [text] :=
      cut_intercalate (by simp) (by simpa using h)
    rwa [List.intercalate_singleton] at hsingle
  have hsplits : Splits [] [(0, text)] := by
    have hcuts := splits_cut (noTopComma_nil []) text
    rwa [List.append_nil, appendFirst_nil (cut_ne_nil _ _ _), nesting, quotedAfter, List.foldl_nil,
      hcut] at hcuts
  refine ⟨?_, ?_, h.quotedAfter_eq false, h.nesting_eq⟩
  · cases hsplits with
    | last hno => exact hno
    | more _ _ hrest => exact absurd rfl hrest.ne_nil
  · obtain ⟨hunspaced, -⟩ := exists_cut_append 0 false text
    rwa [hcut, List.intercalate_singleton] at hunspaced

theorem splits_number (hdone : AtTop done) (hne : texts ≠ []) (h : ∀ text ∈ texts, Whole text) :
    Splits done (number done.length texts) := by
  induction texts generalizing done with
  | nil => exact absurd rfl hne
  | cons text texts ih =>
      have hwhole : Whole text := h text List.mem_cons_self
      have hno : NoTopComma done text := (noTopComma_append hdone).2 hwhole.comma
      rw [number]
      cases texts with
      | nil => exact .last hno
      | cons text' texts =>
          have htop : AtTop (done ++ text) := (atTop_append hdone).2 hwhole.ends
          have hnext : AtTop (done ++ (text ++ [','])) := by
            rw [← List.append_assoc]
            exact atTop_comma htop
          have hrest := ih hnext (List.cons_ne_nil _ _) fun t ht => h t (List.mem_cons_of_mem _ ht)
          have hlength : (done ++ (text ++ [','])).length = done.length + text.length + 1 := by
            simp [Nat.add_assoc]
          rw [hlength] at hrest
          exact .more hno htop hrest

theorem unspaced_intercalate (h : ∀ text ∈ texts, Whole text) :
    Unspaced false ([','].intercalate texts) := by
  induction texts with
  | nil => trivial
  | cons text texts ih =>
      have hwhole : Whole text := h text List.mem_cons_self
      cases texts with
      | nil => simpa using hwhole.blank
      | cons text' texts =>
          have hrest := ih fun t ht => h t (List.mem_cons_of_mem _ ht)
          rw [List.intercalate_cons_cons, unspaced_append, unspaced_append, quotedAfter_append,
            hwhole.ends.1]
          exact ⟨⟨hwhole.blank, fun _ => by decide, trivial⟩, hrest⟩

/-- Whole texts are found again when they are joined with commas. -/
theorem split_intercalate (hne : [','].intercalate texts ≠ []) (h : ∀ text ∈ texts, Whole text) :
    split ([','].intercalate texts) = some (number 0 texts) := by
  have htexts : texts ≠ [] := by
    rintro rfl
    exact hne rfl
  have hsplits : Splits [] (number 0 texts) := splits_number ⟨rfl, rfl⟩ htexts h
  rw [split_eq_some_iff hne, joined, map_snd_number]
  exact ⟨hsplits, unspaced_intercalate h, [], by simp, by simp⟩

end MacroAssembler.Field
