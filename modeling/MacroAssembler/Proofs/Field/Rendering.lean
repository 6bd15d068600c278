import MacroAssembler.Macro.Data
import MacroAssembler.Proofs.Field.Growth
import MacroAssembler.Proofs.Field.IndexedReading
import MacroAssembler.Proofs.Results

/-!
# Rendering what was read

A piece of a field whose variable symbols are written in capital letters and without subscripts is
rendered as it was written, and so is the value of an argument that is made of it
(`render_pieces`). Cutting a field, looking for the end of a group and reading a concatenation
follow apostrophes and parentheses each on their own; what they have in common is the parts of a
text that start outside of apostrophes.
-/

namespace MacroAssembler.Field

open Conditional (VariableSymbol Fragment Concatenation)

/-! ## Outside of apostrophes -/

/-- The parts of a text that start outside of apostrophes and go on to its end. Two ampersands
start none. -/
def outside (quoted : Bool) : List Char → List (List Char)
  | [] => []
  | '&' :: '&' :: rest => outside quoted rest
  | c :: rest =>
      if c = '\'' then outside (!quoted) rest
      else if quoted then outside quoted rest
      else (c :: rest) :: outside quoted rest

/-- A character that is no ampersand in front of another one. -/
theorem outside_cons {quoted : Bool} {c : Char} {rest : List Char}
    (h : c = '&' → rest.head? ≠ some '&') :
    outside quoted (c :: rest) =
      if c = '\'' then outside (!quoted) rest
      else if quoted then outside quoted rest
      else (c :: rest) :: outside quoted rest := by
  rw [outside]
  rintro rest' rfl rfl
  exact h rfl rfl

@[simp] theorem outside_ampersands (quoted : Bool) (rest : List Char) :
    outside quoted ('&' :: '&' :: rest) = outside quoted rest := by
  rw [outside]

@[simp] theorem outside_apostrophe (quoted : Bool) (rest : List Char) :
    outside quoted ('\'' :: rest) = outside (!quoted) rest := by
  rw [outside_cons (fun h => absurd h (by decide)), if_pos rfl]

/-- Inside of apostrophes ampersands are like all other characters. -/
theorem outside_true_cons {c : Char} (h : c ≠ '\'') (rest : List Char) :
    outside true (c :: rest) = outside true rest := by
  match rest with
  | [] => rw [outside_cons (by simp), if_neg h, if_pos rfl]
  | d :: rest =>
      by_cases hc : c = '&'
      · by_cases hd : d = '&'
        · rw [hc, hd, outside, outside_true_cons (by decide) rest]
        · rw [outside_cons (by simp [hd]), if_neg h, if_pos rfl]
      · rw [outside_cons (by simp [hc]), if_neg h, if_pos rfl]

theorem outside_false_cons {c : Char} {rest : List Char} (h : c ≠ '\'')
    (h' : c = '&' → rest.head? ≠ some '&') :
    outside false (c :: rest) = (c :: rest) :: outside false rest := by
  rw [outside_cons h', if_neg h, if_neg Bool.false_ne_true]

/-- The name of a variable symbol is passed. -/
theorem outside_name {name after : List Char} (hname : ∀ c ∈ name, Text.isNameChar c) :
    ∀ s ∈ outside false after, s ∈ outside false (name ++ after) := by
  induction name with
  | nil => exact fun s hs => hs
  | cons c name ih =>
      intro s hs
      have hc : c ≠ '\'' ∧ c ≠ '&' := by
        constructor <;> rintro rfl <;> exact absurd (hname _ List.mem_cons_self) (by decide)
      rw [List.cons_append, outside_false_cons hc.1 (absurd · hc.2)]
      exact List.mem_cons_of_mem _ (ih (fun d hd => hname d (List.mem_cons_of_mem _ hd)) s hs)

/-- Quoted text is passed. -/
theorem outside_takeQuoted (cs : List Char) :
    ∀ s ∈ outside false (takeQuoted cs).2, s ∈ outside true cs := by
  fun_induction takeQuoted cs with
  | case1 => simp [outside]
  | case2 rest quoted after hread ih =>
      simp only [hread] at ih
      simpa using ih
  | case3 rest => simp
  | case4 c rest hne hne' quoted after hread ih =>
      simp only [hread] at ih
      rwa [outside_true_cons (by simpa using hne')]

/-! ## Groups -/

/-- The state of the walk behind a character. -/
def quotedBehind (quoted : Bool) (c : Char) : Bool := if c = '\'' then !quoted else quoted

/-- A group ends at its parenthesis, or goes on with its first character. -/
theorem takeGroup_cons {depth : Nat} {quoted : Bool} {c : Char} {rest inner after : List Char}
    (h : takeGroup depth quoted (c :: rest) = some (inner, after)) :
    (quoted = false ∧ c = ')' ∧ inner = [] ∧ after = rest) ∨
      ∃ depth' inner', inner = c :: inner' ∧
        takeGroup depth' (quotedBehind quoted c) rest = some (inner', after) := by
  have hgrow {depth' : Nat} {q : Bool}
      (h : (takeGroup depth' q rest).map (fun g => (c :: g.1, g.2)) = some (inner, after)) :
      ∃ inner', inner = c :: inner' ∧ takeGroup depth' q rest = some (inner', after) := by
    obtain ⟨⟨i, a⟩, hi, he⟩ := Option.map_eq_some_iff.1 h
    obtain ⟨rfl, rfl⟩ := Prod.mk.inj he
    exact ⟨i, rfl, hi⟩
  unfold takeGroup at h
  unfold quotedBehind
  split at h
  · rename_i hc
    rw [if_pos hc]
    exact .inr ⟨_, hgrow h⟩
  rename_i hc
  rw [if_neg hc]
  split at h
  · exact .inr ⟨_, hgrow h⟩
  rename_i hquoted
  split at h
  · exact .inr ⟨_, hgrow h⟩
  split at h
  · rename_i hclose
    cases depth with
    | zero =>
        obtain ⟨rfl, rfl⟩ := Prod.mk.inj (Option.some.inj h)
        exact .inl ⟨by simpa using hquoted, hclose, rfl, rfl⟩
    | succ depth => exact .inr ⟨_, hgrow h⟩
  · exact .inr ⟨_, hgrow h⟩

/-- The text inside a group and the text behind it start outside of apostrophes where the whole
does. -/
theorem outside_takeGroup {depth : Nat} {quoted : Bool} {cs inner after : List Char}
    (h : takeGroup depth quoted cs = some (inner, after)) :
    (∀ s ∈ outside quoted inner, s ++ ')' :: after ∈ outside quoted cs) ∧
      ∀ s ∈ outside false after, s ∈ outside quoted cs := by
  fun_induction outside quoted cs generalizing depth inner with
  | case1 => simp [takeGroup] at h
  | case2 quoted rest ih =>
      obtain ⟨-, hclose, -⟩ | ⟨depth, inner, rfl, h₁⟩ := takeGroup_cons h
      · exact absurd hclose (by decide)
      obtain ⟨-, hclose, -⟩ | ⟨depth, inner, rfl, h₂⟩ := takeGroup_cons h₁
      · exact absurd hclose (by decide)
      rw [outside_ampersands]
      exact ih h₂
  | case3 quoted rest hamp ih =>
      obtain ⟨-, hclose, -⟩ | ⟨depth, inner, rfl, h₁⟩ := takeGroup_cons h
      · exact absurd hclose (by decide)
      rw [outside_apostrophe]
      exact ih h₁
  | case4 c rest hamp hne ih =>
      obtain ⟨hfalse, -⟩ | ⟨depth, inner, rfl, h₁⟩ := takeGroup_cons h
      · cases hfalse
      rw [outside_true_cons hne]
      rw [quotedBehind, if_neg hne] at h₁
      exact ih h₁
  | case5 quoted c rest hamp hne hquoted ih =>
      obtain rfl : quoted = false := by simpa using hquoted
      obtain ⟨-, rfl, rfl, rfl⟩ | ⟨depth, inner, rfl, h₁⟩ := takeGroup_cons h
      · exact ⟨by simp [outside], fun s hs => List.mem_cons_of_mem _ hs⟩
      rw [quotedBehind, if_neg hne] at h₁
      obtain ⟨hinner, hafter⟩ := ih h₁
      have hrest := takeGroup_eq h₁
      refine ⟨fun s hs => ?_, fun s hs => List.mem_cons_of_mem _ (hafter s hs)⟩
      have hsingle : c = '&' → inner.head? ≠ some '&' := by
        intro hc hhead
        obtain ⟨inner', rfl⟩ := List.head?_eq_some_iff.1 hhead
        exact hamp _ hc hrest
      rw [outside_false_cons hne hsingle] at hs
      rcases List.mem_cons.1 hs with rfl | hs
      · rw [hrest]
        exact List.mem_cons_self
      · exact List.mem_cons_of_mem _ (hinner s hs)

/-- A group is found in a longer text as well. -/
theorem takeGroup_append {depth : Nat} {quoted : Bool} {cs inner after : List Char}
    (h : takeGroup depth quoted cs = some (inner, after)) (behind : List Char) :
    takeGroup depth quoted (cs ++ behind) = some (inner, after ++ behind) := by
  induction cs generalizing depth quoted inner with
  | nil => simp [takeGroup] at h
  | cons c rest ih =>
      have hgrow {d : Nat} {q : Bool}
          (h : (takeGroup d q rest).map (fun g => (c :: g.1, g.2)) = some (inner, after)) :
          (takeGroup d q (rest ++ behind)).map (fun g => (c :: g.1, g.2)) =
            some (inner, after ++ behind) := by
        obtain ⟨⟨i, a⟩, hi, he⟩ := Option.map_eq_some_iff.1 h
        obtain ⟨rfl, rfl⟩ := Prod.mk.inj he
        rw [ih hi]
        rfl
      rw [List.cons_append]
      unfold takeGroup at h ⊢
      by_cases hapostrophe : c = '\''
      · rw [if_pos hapostrophe] at h ⊢
        exact hgrow h
      rw [if_neg hapostrophe] at h ⊢
      by_cases hquoted : quoted = true
      · rw [if_pos hquoted] at h ⊢
        exact hgrow h
      rw [if_neg hquoted] at h ⊢
      by_cases hopen : c = '('
      · rw [if_pos hopen] at h ⊢
        exact hgrow h
      rw [if_neg hopen] at h ⊢
      by_cases hclose : c = ')'
      · rw [if_pos hclose] at h ⊢
        cases depth with
        | zero =>
            obtain ⟨rfl, rfl⟩ := Prod.mk.inj (Option.some.inj h)
            rfl
        | succ depth => exact hgrow h
      rw [if_neg hclose] at h ⊢
      exact hgrow h

/-! ## Pieces -/

/-- A piece ends at a comma or at a blank, or goes on with its first character. -/
theorem cut_cons {depth : Int} {quoted : Bool} {c : Char} {rest first : List Char}
    {others : List (List Char)} (h : cut depth quoted (c :: rest) = first :: others) :
    (quoted = false ∧ c = ',' ∧ first = [] ∧ others = cut depth quoted rest) ∨
      (quoted = false ∧ c = ' ' ∧ first = [] ∧ others = []) ∨
      ∃ depth' first', first = c :: first' ∧ (quoted = false → c ≠ ' ') ∧
        cut depth' (quotedBehind quoted c) rest = first' :: others := by
  have hgrow {depth' : Int} {q : Bool} (h : consFirst c (cut depth' q rest) = first :: others) :
      ∃ first', first = c :: first' ∧ cut depth' q rest = first' :: others := by
    cases hcut : cut depth' q rest with
    | nil => exact absurd hcut (cut_ne_nil _ _ _)
    | cons first' others' =>
        rw [hcut, consFirst] at h
        obtain ⟨rfl, rfl⟩ := List.cons.inj h
        exact ⟨first', rfl, rfl⟩
  unfold cut at h
  unfold quotedBehind
  split at h
  · rename_i hc
    obtain ⟨first', rfl, hcut⟩ := hgrow h
    exact .inr (.inr ⟨_, first', rfl, fun _ => by rw [hc]; decide, by rwa [if_pos hc]⟩)
  rename_i hc
  simp only [if_neg hc]
  split at h
  · rename_i hquoted
    obtain ⟨first', rfl, hcut⟩ := hgrow h
    exact .inr (.inr ⟨_, first', rfl, fun hfalse => by simp [hfalse] at hquoted, hcut⟩)
  rename_i hquoted
  split at h
  · rename_i hopen
    obtain ⟨first', rfl, hcut⟩ := hgrow h
    exact .inr (.inr ⟨_, first', rfl, fun _ => by rw [hopen]; decide, hcut⟩)
  split at h
  · rename_i hclose
    obtain ⟨first', rfl, hcut⟩ := hgrow h
    exact .inr (.inr ⟨_, first', rfl, fun _ => by rw [hclose]; decide, hcut⟩)
  split at h
  · rename_i hcomma
    obtain ⟨rfl, rfl⟩ := List.cons.inj h
    exact .inl ⟨by simpa using hquoted, hcomma.1, rfl, rfl⟩
  split at h
  · rename_i hblank
    obtain ⟨rfl, rfl⟩ := List.cons.inj h
    exact .inr (.inl ⟨by simpa using hquoted, hblank, rfl, rfl⟩)
  · rename_i hblank
    obtain ⟨first', rfl, hcut⟩ := hgrow h
    exact .inr (.inr ⟨_, first', rfl, fun _ => hblank, hcut⟩)

/-- The first piece stands at the start of the text. -/
theorem exists_of_cut {depth : Int} {quoted : Bool} {cs first : List Char}
    {others : List (List Char)} (h : cut depth quoted cs = first :: others) :
    ∃ behind, cs = first ++ behind ∧ Closes behind := by
  induction cs generalizing depth quoted first with
  | nil =>
      obtain ⟨rfl, -⟩ := List.cons.inj h
      exact ⟨[], rfl, by simp [Closes]⟩
  | cons c rest ih =>
      obtain ⟨-, rfl, rfl, -⟩ | ⟨-, rfl, rfl, -⟩ | ⟨depth', first', rfl, -, h⟩ := cut_cons h
      · exact ⟨_, rfl, by simp [Closes]⟩
      · exact ⟨_, rfl, by simp [Closes]⟩
      · obtain ⟨behind, rfl, hcloses⟩ := ih h
        exact ⟨behind, rfl, hcloses⟩

/-- What starts outside of apostrophes in a piece does so in the whole text, and is no blank. -/
def StartsIn (whole : List (List Char)) (s : List Char) : Prop :=
  s.head? ≠ some ' ' ∧ ∃ behind, Closes behind ∧ s ++ behind ∈ whole

theorem outside_cut {depth : Int} {quoted : Bool} {cs first : List Char}
    {others : List (List Char)} (h : cut depth quoted cs = first :: others) :
    (∀ s ∈ outside quoted first, StartsIn (outside quoted cs) s) ∧
      ∀ text ∈ others, ∀ s ∈ outside false text, StartsIn (outside quoted cs) s := by
  fun_induction outside quoted cs generalizing depth first others with
  | case1 =>
      obtain ⟨rfl, rfl⟩ := List.cons.inj h
      simp [outside]
  | case2 quoted rest ih =>
      obtain ⟨-, hcomma, -⟩ | ⟨-, hblank, -⟩ | ⟨depth, first, rfl, -, h₁⟩ := cut_cons h
      · exact absurd hcomma (by decide)
      · exact absurd hblank (by decide)
      obtain ⟨-, hcomma, -⟩ | ⟨-, hblank, -⟩ | ⟨depth, first, rfl, -, h₂⟩ := cut_cons h₁
      · exact absurd hcomma (by decide)
      · exact absurd hblank (by decide)
      rw [outside_ampersands]
      exact ih h₂
  | case3 quoted rest hamp ih =>
      obtain ⟨-, hcomma, -⟩ | ⟨-, hblank, -⟩ | ⟨depth, first, rfl, -, h⟩ := cut_cons h
      · exact absurd hcomma (by decide)
      · exact absurd hblank (by decide)
      rw [outside_apostrophe]
      exact ih h
  | case4 c rest hamp hne ih =>
      obtain ⟨hfalse, -⟩ | ⟨hfalse, -⟩ | ⟨depth, first, rfl, -, h⟩ := cut_cons h
      · cases hfalse
      · cases hfalse
      rw [outside_true_cons hne]
      rw [quotedBehind, if_neg hne] at h
      exact ih h
  | case5 quoted c rest hamp hne hquoted ih =>
      obtain rfl : quoted = false := by simpa using hquoted
      have hlift {s : List Char} (h : StartsIn (outside false rest) s) :
          StartsIn ((c :: rest) :: outside false rest) s := by
        obtain ⟨hblank, behind, hcloses, hmem⟩ := h
        exact ⟨hblank, behind, hcloses, List.mem_cons_of_mem _ hmem⟩
      obtain ⟨-, rfl, rfl, rfl⟩ | ⟨-, -, rfl, rfl⟩ | ⟨depth, first, rfl, hblank, h⟩ := cut_cons h
      · refine ⟨by simp [outside], fun text htext s hs => ?_⟩
        cases hcut : cut depth false rest with
        | nil => exact absurd hcut (cut_ne_nil _ _ _)
        | cons first others =>
            obtain ⟨hfirst, hothers⟩ := ih hcut
            rw [hcut] at htext
            rcases List.mem_cons.1 htext with rfl | htext
            · exact hlift (hfirst s hs)
            · exact hlift (hothers text htext s hs)
      · simp [outside]
      · rw [quotedBehind, if_neg hne] at h
        obtain ⟨hfirst, hothers⟩ := ih h
        obtain ⟨behind, hrest, hcloses⟩ := exists_of_cut h
        have hsingle : c = '&' → first.head? ≠ some '&' := by
          intro hc hhead
          obtain ⟨first', rfl⟩ := List.head?_eq_some_iff.1 hhead
          exact hamp _ hc hrest
        refine ⟨fun s hs => ?_, fun text htext s hs => hlift (hothers text htext s hs)⟩
        rw [outside_false_cons hne hsingle] at hs
        rcases List.mem_cons.1 hs with rfl | hs
        · refine ⟨by simpa using hblank rfl, behind, hcloses, ?_⟩
          rw [hrest]
          exact List.mem_cons_self
        · exact hlift (hfirst s hs)

/-- The same of every piece of a text. -/
theorem startsIn_of_mem_cut {depth : Int} {cs text : List Char} (h : text ∈ cut depth false cs) :
    ∀ s ∈ outside false text, StartsIn (outside false cs) s := by
  cases hcut : cut depth false cs with
  | nil => exact absurd hcut (cut_ne_nil _ _ _)
  | cons first others =>
      obtain ⟨hfirst, hothers⟩ := outside_cut hcut
      rw [hcut] at h
      rcases List.mem_cons.1 h with rfl | h
      · exact hfirst
      · exact hothers text h

theorem intercalate_cons_cons (c : Char) (first : List Char) (others : List (List Char)) :
    [','].intercalate ((c :: first) :: others) = c :: [','].intercalate (first :: others) := by
  cases others <;> simp [List.intercalate]

/-- No blank of the text stands outside of apostrophes. -/
def Unspaced (quoted : Bool) : List Char → Prop
  | [] => True
  | c :: rest => (quoted = false → c ≠ ' ') ∧ Unspaced (quotedBehind quoted c) rest

theorem unspaced_of_outside {quoted : Bool} {cs : List Char}
    (h : ∀ s ∈ outside quoted cs, s.head? ≠ some ' ') : Unspaced quoted cs := by
  fun_induction outside quoted cs with
  | case1 => trivial
  | case2 quoted rest ih => exact ⟨fun _ => by decide, fun _ => by decide, ih h⟩
  | case3 quoted rest hamp ih => exact ⟨fun _ => by decide, ih h⟩
  | case4 c rest hamp hne ih =>
      refine ⟨by simp, ?_⟩
      rw [quotedBehind, if_neg hne]
      exact ih h
  | case5 quoted c rest hamp hne hquoted ih =>
      obtain rfl : quoted = false := by simpa using hquoted
      refine ⟨fun _ => by simpa using h _ List.mem_cons_self, ?_⟩
      rw [quotedBehind, if_neg hne]
      exact ih fun s hs => h s (List.mem_cons_of_mem _ hs)

/-- A text without blanks outside of apostrophes is made up of its pieces. -/
theorem Unspaced.intercalate_cut {quoted : Bool} {cs : List Char} (h : Unspaced quoted cs)
    (depth : Int) : [','].intercalate (cut depth quoted cs) = cs := by
  induction cs generalizing depth quoted with
  | nil => rfl
  | cons c rest ih =>
      obtain ⟨hblank, hrest⟩ := h
      cases hcut : cut depth quoted (c :: rest) with
      | nil => exact absurd hcut (cut_ne_nil _ _ _)
      | cons first others =>
          obtain ⟨hfalse, rfl, rfl, rfl⟩ | ⟨hfalse, hc, -⟩ | ⟨depth', first', rfl, -, hcut'⟩ :=
            cut_cons hcut
          · have hmore := ih hrest depth
            rw [quotedBehind, if_neg (by decide)] at hmore
            cases hcut' : cut depth quoted rest with
            | nil => exact absurd hcut' (cut_ne_nil _ _ _)
            | cons first' others' =>
                rw [hcut'] at hmore
                simpa [List.intercalate] using hmore
          · exact absurd hc (hblank hfalse)
          · rw [intercalate_cons_cons, ← hcut', ih hrest]

/-! ## Variable symbols -/

namespace VariableText

/-- The variable symbol is rendered as it is written: it has no subscript, which would be left out,
and its name is in capital letters. -/
def IsVerbatim (v : VariableText) : Prop :=
  v.subscript = none ∧
    (v.isCreated = false → Text.upper (String.ofList v.name) = String.ofList v.name)

instance (v : VariableText) : Decidable v.IsVerbatim :=
  inferInstanceAs (Decidable (v.subscript = none ∧
    (v.isCreated = false → Text.upper (String.ofList v.name) = String.ofList v.name)))

/-- Without a subscript the text behind the name is behind the variable symbol. -/
theorem after_withSubscript {isCreated : Bool} {name after : List Char}
    (h : (withSubscript isCreated name after).subscript = none) :
    (withSubscript isCreated name after).after = after := by
  unfold withSubscript at h ⊢
  split
  · split
    · rename_i hgroup
      simp [hgroup] at h
    · rfl
  · rfl

/-- A subscript is found in a longer text as well. -/
theorem subscript_withSubscript_append {isCreated : Bool} {name after behind : List Char}
    (h : (withSubscript isCreated name (after ++ behind)).subscript = none) :
    (withSubscript isCreated name after).subscript = none := by
  unfold withSubscript
  split
  · rename_i rest
    split
    · rename_i hgroup
      have hmore : group? (rest ++ behind) = _ := takeGroup_append hgroup behind
      rw [List.cons_append, withSubscript, hmore] at h
      cases h
    · rfl
  · rfl

/-- A name is the same in front of what cannot be part of it. -/
theorem takeWhile_append {test : Char → Bool} (cs : List Char) {behind : List Char}
    (hbehind : ∀ c ∈ behind.head?, ¬ test c) :
    (cs ++ behind).takeWhile test = cs.takeWhile test ∧
      (cs ++ behind).dropWhile test = cs.dropWhile test ++ behind := by
  induction cs with
  | nil =>
      cases behind with
      | nil => exact ⟨rfl, rfl⟩
      | cons c behind => simp [hbehind c rfl]
  | cons c cs ih =>
      by_cases hc : test c
      · simp [hc, ih.1, ih.2]
      · simp [hc]

/-- A variable symbol is the same in front of what cannot be part of its name. -/
theorem scan_append {cs behind : List Char} {v : VariableText} (h : scan cs = some v)
    (hbehind : ∀ c ∈ behind.head?, ¬ Text.isNameChar c) :
    ∃ v', scan (cs ++ behind) = some v' ∧ (v'.IsVerbatim → v.IsVerbatim) := by
  unfold scan at h
  split at h
  · cases h
  · rename_i c rest
    split at h
    · rename_i hopen
      obtain ⟨⟨inner, after⟩, hgroup, rfl⟩ := Option.map_eq_some_iff.1 h
      have hmore : group? (rest ++ behind) = _ := takeGroup_append hgroup behind
      refine ⟨withSubscript true inner (after ++ behind), ?_, fun hv => ?_⟩
      · rw [List.cons_append, scan]
        simp only [if_pos hopen, hmore]
        rfl
      · exact ⟨subscript_withSubscript_append hv.1, by simp⟩
    · rename_i hopen
      split at h
      · rename_i hname
        cases h
        obtain ⟨htake, hdrop⟩ := takeWhile_append rest hbehind
        refine ⟨withSubscript false (c :: rest.takeWhile Text.isNameChar)
          (rest.dropWhile Text.isNameChar ++ behind), ?_, fun hv => ?_⟩
        · rw [List.cons_append, scan]
          simp only [if_neg hopen, if_pos hname, htake, hdrop]
        · exact ⟨subscript_withSubscript_append hv.1, by simpa using hv.2⟩
      · cases h

end VariableText

/-- The variable symbols of a text, also those in groups. -/
def variableTexts (cs : List Char) : List VariableText :=
  (outside false cs).filterMap fun s => startingVariable? ⟨{}, s⟩

/-- A text that is rendered as it is written: it has no blanks outside of apostrophes, and all its
variable symbols are rendered as they are written. -/
structure IsVerbatim (cs : List Char) : Prop where
  blanks : ∀ s ∈ outside false cs, s.head? ≠ some ' '
  symbols : ∀ v ∈ variableTexts cs, v.IsVerbatim

namespace IsVerbatim

variable {cs after : List Char}

/-- So is a part whose own parts start outside of apostrophes in the whole. -/
theorem of_outside (h : IsVerbatim cs) (hafter : ∀ s ∈ outside false after, s ∈ outside false cs) :
    IsVerbatim after :=
  ⟨fun s hs => h.blanks s (hafter s hs), fun v hv => by
    obtain ⟨s, hs, hstart⟩ := List.mem_filterMap.1 hv
    exact h.symbols v (List.mem_filterMap.2 ⟨s, hafter s hs, hstart⟩)⟩

/-- So is a part that ends in front of what cannot be part of a name. -/
theorem of_append (h : IsVerbatim cs)
    (hafter : ∀ s ∈ outside false after, s.head? ≠ some ' ' ∧
      ∃ behind, (∀ c ∈ behind.head?, ¬ Text.isNameChar c) ∧ s ++ behind ∈ outside false cs) :
    IsVerbatim after := by
  refine ⟨fun s hs => (hafter s hs).1, fun v hv => ?_⟩
  obtain ⟨s, hs, hstart⟩ := List.mem_filterMap.1 hv
  obtain ⟨-, behind, hbehind, hmem⟩ := hafter s hs
  cases s with
  | nil => cases hstart
  | cons c rest =>
      simp only [startingVariable?] at hstart
      split at hstart
      · rename_i hc
        obtain ⟨v', hscan, hverbatim⟩ := VariableText.scan_append hstart hbehind
        refine hverbatim (h.symbols v' (List.mem_filterMap.2 ⟨_, hmem, ?_⟩))
        simp [startingVariable?, hc, hscan]
      · cases hstart

/-- So is every piece of the text. -/
theorem of_mem_cut (h : IsVerbatim cs) {depth : Int} {text : List Char}
    (htext : text ∈ cut depth false cs) : IsVerbatim text := by
  refine h.of_append fun s hs => ?_
  obtain ⟨hblank, behind, hcloses, hmem⟩ := startsIn_of_mem_cut htext s hs
  refine ⟨hblank, behind, fun c hc => ?_, hmem⟩
  rcases hcloses c hc with rfl | rfl <;> decide

theorem tail {c : Char} {rest : List Char} (h : IsVerbatim (c :: rest)) (hc : c ≠ '\'')
    (hamp : c = '&' → rest.head? ≠ some '&') : IsVerbatim rest := by
  refine h.of_outside fun s hs => ?_
  rw [outside_false_cons hc hamp]
  exact List.mem_cons_of_mem _ hs

/-- So are the text inside of a group and the text behind it. -/
theorem group {rest inner : List Char} (h : IsVerbatim ('(' :: rest))
    (hgroup : group? rest = some (inner, after)) : IsVerbatim inner ∧ IsVerbatim after := by
  have hrest : IsVerbatim rest := h.tail (by decide) (fun h => absurd h (by decide))
  obtain ⟨hinner, hafter⟩ := outside_takeGroup hgroup
  refine ⟨hrest.of_append fun s hs => ?_, hrest.of_outside hafter⟩
  refine ⟨?_, ')' :: after, by simp; decide, hinner s hs⟩
  -- a part of the inside is not empty, so it starts with the same character in the whole
  have hblank := hrest.blanks _ (hinner s hs)
  cases s with
  | nil => simp
  | cons c s => simpa using hblank

theorem quoted {rest : List Char} (h : IsVerbatim ('\'' :: rest)) :
    IsVerbatim (takeQuoted rest).2 :=
  h.of_outside fun s hs => by
    rw [outside_apostrophe]
    exact outside_takeQuoted rest s hs

/-- The variable symbol that the text starts with is rendered as it is written, and so is the text
behind it. -/
theorem symbol {rest : List Char} {v : VariableText} (h : IsVerbatim ('&' :: rest))
    (hhead : rest.head? ≠ some '&') (hscan : VariableText.scan rest = some v) :
    v.IsVerbatim ∧ (v.isCreated = true → IsVerbatim v.name) ∧ IsVerbatim v.after ∧
      rest = (if v.isCreated then '(' :: (v.name ++ [')']) else v.name) ++ v.after := by
  have hmem : '&' :: rest ∈ outside false ('&' :: rest) := by
    rw [outside_false_cons (by decide) fun _ => hhead]
    exact List.mem_cons_self
  have hv : v.IsVerbatim :=
    h.symbols v (List.mem_filterMap.2 ⟨_, hmem, by simpa [startingVariable?] using hscan⟩)
  have hrest := h.tail (by decide) fun _ => hhead
  refine ⟨hv, ?_⟩
  unfold VariableText.scan at hscan
  split at hscan
  · cases hscan
  · rename_i c rest
    split at hscan
    · rename_i hopen
      obtain ⟨⟨inner, behind⟩, hgroup, rfl⟩ := Option.map_eq_some_iff.1 hscan
      subst hopen
      obtain ⟨hinner, hbehind⟩ := hrest.group hgroup
      have hafter := VariableText.after_withSubscript hv.1
      refine ⟨fun _ => by simpa using hinner, by rwa [hafter], ?_⟩
      simp [hafter, takeGroup_eq hgroup]
    · split at hscan
      · rename_i hopen hname
        cases hscan
        have hafter := VariableText.after_withSubscript hv.1
        refine ⟨by simp, ?_, by simp [hafter]⟩
        rw [hafter]
        refine hrest.of_outside fun s hs => ?_
        have hall : ∀ d ∈ c :: rest.takeWhile Text.isNameChar, Text.isNameChar d := by
          intro d hd
          rcases List.mem_cons.1 hd with rfl | hd
          · exact hname.1
          · exact List.all_eq_true.1 List.all_takeWhile d hd
        simpa using outside_name hall s hs
      · cases hscan

end IsVerbatim

/-! ## Rendering -/

theorem render_cons {names : NameTable} {fragment : Fragment} {rest : Concatenation}
    {cs cs' : List Char} (h : fragment.render names = .ok (String.ofList cs))
    (hrest : Concatenation.render names rest = .ok (String.ofList cs')) :
    Concatenation.render names (fragment :: rest) = .ok (String.ofList (cs ++ cs')) := by
  rw [Concatenation.render, h, hrest, String.ofList_append]
  rfl

/-- Literal text is rendered in front of what it is put in front of. -/
theorem render_consText {names : NameTable} (cs : List Char) {rest : Concatenation}
    {cs' : List Char} (h : Concatenation.render names rest = .ok (String.ofList cs')) :
    Concatenation.render names (consText cs rest) = .ok (String.ofList (cs ++ cs')) := by
  unfold consText
  split
  · rename_i s rest
    rw [Concatenation.render, Fragment.render] at h ⊢
    obtain ⟨_, ⟨⟩, h⟩ := bind_eq_ok_iff.1 h
    obtain ⟨text, hrest, h⟩ := bind_eq_ok_iff.1 h
    have htext : s ++ text = String.ofList cs' := Except.ok.inj h
    rw [hrest]
    change Except.ok (String.ofList cs ++ s ++ text) = _
    rw [String.append_assoc, htext, String.ofList_append]
  · exact render_cons (by rw [Fragment.render]) h

/-- The rendered texts of the pieces with a comma between each two. -/
theorem intercalate_ofList (texts : List (List Char)) :
    ",".intercalate (texts.map String.ofList) = String.ofList ([','].intercalate texts) := by
  have htexts : String.toList ∘ String.ofList = id := funext fun _ => String.toList_ofList
  apply String.toList_inj.1
  rw [String.toList_intercalate, List.map_map, htexts, List.map_id]
  exact (String.toList_ofList ..).symm

theorem mem_cut_of_mem_pieces {field p : Piece} (h : p ∈ pieces field) :
    p.text ∈ cut 0 false field.text := by
  unfold pieces at h
  split at h
  · cases h
  · rw [← texts_locate field.start (cut 0 false field.text)]
    exact List.mem_map_of_mem h

/-- The pieces of a text without blanks outside of apostrophes. -/
theorem intercalate_pieces {field : Piece} (h : IsVerbatim field.text) :
    ",".intercalate ((pieces field).map fun p => String.ofList p.text) =
      String.ofList field.text := by
  have htexts : (pieces field).map (fun p => String.ofList p.text) =
      ((pieces field).map Piece.text).map String.ofList := by
    rw [List.map_map]
    rfl
  rw [htexts, intercalate_ofList]
  unfold pieces
  split
  · rename_i hnil
    rw [hnil]
    rfl
  · rw [texts_locate, (unspaced_of_outside h.blanks).intercalate_cut]

theorem VariableText.subscriptPieces_of_none (v : VariableText) (h : v.subscript = none)
    (close : Position) : v.subscriptPieces close = [] := by
  rw [subscriptPieces, h]

/-- A list is rendered as it is written if its pieces are. -/
theorem render_sublist {later : NameTable} {field : Piece} {items : List Concatenation}
    (h : IsVerbatim field.text)
    (hitems : Concatenation.renderEach later items =
      .ok ((pieces field).map fun p => String.ofList p.text)) :
    (Fragment.sublist items).render later = .ok (String.ofList ('(' :: (field.text ++ [')']))) := by
  rw [Fragment.render, hitems]
  change Except.ok ("(" ++ ",".intercalate _ ++ ")") = _
  rw [intercalate_pieces h]
  exact congrArg Except.ok (String.toList_inj.1 (by simp))

/-- A created variable symbol is rendered with its name in parentheses. -/
theorem render_created {later : NameTable} {name : Concatenation} {text : List Char}
    (h : Concatenation.render later name = .ok (String.ofList text)) (range : Range) :
    (VariableSymbol.created name [] range).render later =
      .ok (String.ofList ('&' :: '(' :: (text ++ [')']))) := by
  rw [VariableSymbol.render, h]
  exact congrArg Except.ok (String.toList_inj.1 (by simp [Conditional.markSubscript]))

/-- A variable symbol is rendered with its name. -/
theorem render_named {later : NameTable} {name : NameId} {text : List Char}
    (h : later.get? name = some (String.ofList text)) (range : Range) :
    (VariableSymbol.named name [] range).render later = .ok (String.ofList ('&' :: text)) := by
  rw [VariableSymbol.render, NameStore.get, h]
  exact congrArg Except.ok (String.toList_inj.1 (by simp [Conditional.markSubscript]))

/-- A text that is rendered as it is written is read to a concatenation with that text. -/
theorem render_readFragments {stop : Position} {t later : NameTable} {cs : List Char}
    (h : IsVerbatim cs) (hlater : (readFragments stop t cs).2.Grows later) :
    Concatenation.render later (readFragments stop t cs).1 = .ok (String.ofList cs) := by
  revert h hlater
  refine readFragments.induct
    (fun stop t cs => IsVerbatim cs → (readFragments stop t cs).2.Grows later →
      Concatenation.render later (readFragments stop t cs).1 = .ok (String.ofList cs))
    (fun t ps => (∀ p ∈ ps, IsVerbatim p.text) → (readItems t ps).2.Grows later →
      Concatenation.renderEach later (readItems t ps).1 =
        .ok (ps.map fun p => String.ofList p.text))
    (fun stop t start v => v.IsVerbatim → (v.isCreated = true → IsVerbatim v.name) →
      (readVariable stop t start v).2.Grows later →
      (readVariable stop t start v).1.render later = .ok (String.ofList
        ('&' :: if v.isCreated then '(' :: (v.name ++ [')']) else v.name)))
    (fun _ _ => True)
    ?empty ?ampersands ?symbol ?ampersand ?dot ?equals ?group ?parenthesis ?quoted ?character
    ?noItems ?item ?created ?named ?noPieces ?number ?literal ?reference stop t cs
  case empty =>
    intro stop t _ _
    rw [readFragments, Concatenation.render]
  case ampersands =>
    intro stop t rest hhead tail t' hread ih h hlater
    obtain ⟨rest, rfl⟩ := List.head?_eq_some_iff.1 hhead
    rw [readFragments, if_pos rfl, if_pos hhead] at hlater ⊢
    exact render_consText ['&', '&'] (ih (h.of_outside (by simp)) hlater)
  case symbol =>
    intro stop t rest hhead v hscan symbol t' tail t'' htail hvariable ihv ih h hlater
    obtain ⟨hv, hname, hafter, hrest⟩ := h.symbol hhead hscan
    rw [readFragments, if_pos rfl, if_neg hhead] at hlater ⊢
    split at hlater
    · rename_i v' hv'
      cases hscan.symm.trans hv'
      rw [hvariable] at ihv hlater ⊢
      dsimp only at ihv hlater ⊢
      have hsymbol := ihv hv hname ((readFragments_grows stop t' v.after).trans hlater)
      have hreference : (Fragment.reference symbol).render later = symbol.render later := by
        rw [Fragment.render]
      have hwhole := render_cons (hreference.trans hsymbol) (ih hafter hlater)
      rwa [List.cons_append, ← hrest] at hwhole
    · simp_all
  case ampersand =>
    intro stop t rest hhead hscan tail t' htail ih h hlater
    rw [readFragments, if_pos rfl, if_neg hhead] at hlater ⊢
    split at hlater
    · simp_all
    · exact render_consText ['&'] (ih (h.tail (by decide) fun _ => hhead) hlater)
  case dot =>
    intro stop t rest tail t' htail hne ih h hlater
    rw [readFragments, if_neg hne, if_pos rfl] at hlater ⊢
    have hdot : Fragment.dot.render later = .ok (String.ofList ['.']) := by rw [Fragment.render]
    exact render_cons hdot (ih (h.tail (by decide) (by simp)) hlater)
  case equals =>
    intro stop t rest tail t' htail hne hne' ih h hlater
    rw [readFragments, if_neg hne, if_neg hne', if_pos rfl] at hlater ⊢
    have hequals : Fragment.equals.render later = .ok (String.ofList ['=']) := by
      rw [Fragment.render]
    exact render_cons hequals (ih (h.tail (by decide) (by simp)) hlater)
  case group =>
    intro stop t rest inner after hgroup group items t' hitems tail t'' htail h1 h2 h3 ihitems ih
      h hlater
    obtain ⟨hinner, hafter⟩ := h.group hgroup
    rw [readFragments, if_neg h1, if_neg h2, if_neg h3, if_pos rfl] at hlater ⊢
    split at hlater
    · rename_i inner' after' hg
      cases hgroup.symm.trans hg
      rw [hitems] at ihitems
      dsimp only at ihitems hlater ⊢
      rw [show readItems t (pieces (groupPiece (placeOf stop after) inner)) = (items, t')
        from hitems] at hlater ⊢
      have hpieces : ∀ p ∈ pieces group, IsVerbatim p.text :=
        fun p hp => hinner.of_mem_cut (mem_cut_of_mem_pieces hp)
      have htexts := ihitems hpieces ((readFragments_grows stop t' after).trans hlater)
      have hwhole := render_cons (render_sublist hinner htexts) (ih hafter hlater)
      rw [takeGroup_eq hgroup]
      simpa [group, groupPiece] using hwhole
    · simp_all
  case parenthesis =>
    intro stop t rest hgroup tail t' htail h1 h2 h3 ih h hlater
    rw [readFragments, if_neg h1, if_neg h2, if_neg h3, if_pos rfl] at hlater ⊢
    split at hlater
    · simp_all
    · exact render_consText ['('] (ih (h.tail (by decide) (absurd · h1)) hlater)
  case quoted =>
    intro stop t rest tail t' htail h1 h2 h3 h4 ih h hlater
    rw [readFragments, if_neg h1, if_neg h2, if_neg h3, if_neg h4, if_pos rfl] at hlater ⊢
    have hwhole := render_consText ('\'' :: (takeQuoted rest).1) (ih h.quoted hlater)
    rwa [List.cons_append, takeQuoted_append] at hwhole
  case character =>
    intro stop t c rest h1 h2 h3 h4 h5 tail t' htail ih h hlater
    rw [readFragments, if_neg h1, if_neg h2, if_neg h3, if_neg h4, if_neg h5] at hlater ⊢
    exact render_consText [c] (ih (h.tail h5 (absurd · h1)) hlater)
  case noItems =>
    intro t _ _
    rw [readItems, Concatenation.renderEach]
    rfl
  case item =>
    intro t p rest item t' hitem items t'' hitems ihitem ih h hlater
    rw [hitem] at ihitem
    rw [readItems, hitem] at hlater ⊢
    dsimp only at hlater ihitem ⊢
    rw [Concatenation.renderEach, ihitem (h p List.mem_cons_self)
      ((readItems_grows t' rest).trans hlater),
      ih (fun p hp => h p (List.mem_cons_of_mem _ hp)) hlater]
    rfl
  case created =>
    intro stop t start v close hcreated nameStop name t' hname subscript t'' hsub ihname _ hv
      hverbatim hlater
    have hread : readVariable stop t start v = (.created name [] ⟨start, close⟩, t') := by
      rw [readVariable]
      simp only [hcreated, if_true]
      rw [show readFragments _ t v.name = (name, t') from hname, v.subscriptPieces_of_none hv.1,
        readSubscript]
    rw [hread] at hlater ⊢
    rw [hname] at ihname
    rw [if_pos hcreated]
    exact render_created (ihname (hverbatim hcreated) hlater) _
  case named =>
    intro stop t start v close hcreated name t' hname subscript t'' hsub _ hv _ hlater
    have hread : readVariable stop t start v = (.named name [] ⟨start, close⟩, t') := by
      rw [readVariable]
      simp only [if_neg hcreated, hname, v.subscriptPieces_of_none hv.1]
      rw [readSubscript]
    rw [hread] at hlater ⊢
    have hfind := t.find?_insert (Text.upper (String.ofList v.name))
    rw [hname, hv.2 (by simpa using hcreated)] at hfind
    rw [if_neg hcreated]
    exact render_named (hlater.get? (NameTable.get?_of_find? hfind)) _
  case noPieces => exact fun _ => trivial
  case number => exact fun _ _ _ _ _ _ _ _ _ => trivial
  case literal => exact fun _ _ _ _ _ _ _ _ _ => trivial
  case reference => exact fun _ _ _ _ _ _ _ _ _ _ _ _ _ _ => trivial

/-! ## Values of arguments -/

mutual
/-- The value of an argument has the text of its concatenation. -/
theorem text_data (names : NameTable) (c : Concatenation) :
    (Concatenation.data names c).map MacroData.text = Concatenation.render names c := by
  unfold Concatenation.data
  split
  · rename_i items
    have hitems := texts_dataEach names items
    rw [Concatenation.render, Fragment.render, ← hitems, Concatenation.render]
    cases Concatenation.dataEach names items with
    | error e => rfl
    | ok children =>
        change Except.ok (MacroData.text (.composite children)) =
          Except.ok ("(" ++ ",".intercalate (MacroData.texts children) ++ ")" ++ "")
        rw [MacroData.text, String.append_empty]
  · cases Concatenation.render names c <;> rfl

theorem texts_dataEach (names : NameTable) (items : List Concatenation) :
    (Concatenation.dataEach names items).map MacroData.texts =
      Concatenation.renderEach names items := by
  match items with
  | [] =>
      rw [Concatenation.dataEach, Concatenation.renderEach]
      rfl
  | item :: rest =>
      have hitem := text_data names item
      have hrest := texts_dataEach names rest
      rw [Concatenation.dataEach, Concatenation.renderEach, ← hitem, ← hrest]
      cases Concatenation.data names item with
      | error e => rfl
      | ok head => cases Concatenation.dataEach names rest <;> rfl
end

/-- A piece of a field whose variable symbols have names in capital letters and no subscripts: the
reader that goes by number comes to an end, what it reads is rendered as the piece is written, and
the value of an argument that is written like this has the same text. -/
theorem render_pieces (names : NameTable) {field p : Piece} (hp : p ∈ pieces field)
    (hverbatim : ∀ v ∈ variableTexts p.text, v.IsVerbatim) :
    ∃ c names', readConcatenationAt names p = some (c, names') ∧
      readConcatenation names p = (c, names') ∧
      ∀ later, names'.Grows later →
        Concatenation.render later c = .ok (String.ofList p.text) ∧
          (Concatenation.data later c).map MacroData.text = .ok (String.ofList p.text) := by
  have hverbatim : IsVerbatim p.text :=
    ⟨fun s hs => (startsIn_of_mem_cut (mem_cut_of_mem_pieces hp) s hs).1, hverbatim⟩
  refine ⟨_, _, readConcatenationAt_eq names p, rfl, fun later hlater => ?_⟩
  have hrender := render_readFragments hverbatim hlater
  exact ⟨hrender, (text_data later _).trans hrender⟩

/-- `&X..(B,'&Y, ',&(c&D)),E`. -/
def nestedField : Piece := ⟨{}, "&X..(B,'&Y, ',&(c&D)),E".toList⟩

theorem render_nestedField :
    (∃ p ∈ pieces nestedField, p.text = "&X..(B,'&Y, ',&(c&D))".toList ∧
      ∀ v ∈ variableTexts p.text, v.IsVerbatim) ∧
      Concatenation.render (readConcatenation {} ⟨{}, "&X..(B,'&Y, ',&(c&D))".toList⟩).2
        (readConcatenation {} ⟨{}, "&X..(B,'&Y, ',&(c&D))".toList⟩).1 =
          .ok "&X..(B,'&Y, ',&(c&D))" := by
  have hp : (⟨{}, "&X..(B,'&Y, ',&(c&D))".toList⟩ : Piece) ∈ pieces nestedField := by
    decide +kernel
  have hverbatim : ∀ v ∈ variableTexts "&X..(B,'&Y, ',&(c&D))".toList, v.IsVerbatim := by
    decide +kernel
  obtain ⟨c, names', -, hread, hrender⟩ := render_pieces {} hp hverbatim
  refine ⟨⟨_, hp, rfl, hverbatim⟩, ?_⟩
  rw [hread, (hrender names' (.refl names')).1, String.ofList_toList]

end MacroAssembler.Field
