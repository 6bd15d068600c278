import MacroAssembler.Proofs.Field.Twins

/-!
# Balanced texts

In a balanced text parentheses and apostrophes come in pairs, whatever stands between two
apostrophes. The walks over a field pass a balanced text at once: the one that looks for the end of
a group (`Balanced.takeGroup_append`), the one that cuts at commas (`Balanced.cut_append`), and the
one that looks for the group at the end (`Balanced.splitGroup_append`). Expressions are balanced
(`IsSum.balanced`).
-/

namespace MacroAssembler.Field

/-- A character that no walk over a field stops at. -/
def isPlain (c : Char) : Bool := c ∉ ['\'', '(', ')', ',', ' ']

/-- The parentheses and the apostrophes of the text come in pairs, and no blank stands outside of
apostrophes. Outside of parentheses and apostrophes there is a comma only if the text stands inside
of a group. -/
inductive Balanced : Bool → List Char → Prop where
  | nil (inside : Bool) : Balanced inside []
  | plain {inside : Bool} {c : Char} {cs : List Char} : isPlain c → Balanced inside cs →
      Balanced inside (c :: cs)
  | comma {cs : List Char} : Balanced true cs → Balanced true (',' :: cs)
  | quoted {inside : Bool} {body cs : List Char} : '\'' ∉ body → Balanced inside cs →
      Balanced inside ('\'' :: (body ++ '\'' :: cs))
  | group {inside : Bool} {inner cs : List Char} : Balanced true inner → Balanced inside cs →
      Balanced inside ('(' :: (inner ++ ')' :: cs))

theorem isPlain_ne {c : Char} (h : isPlain c) :
    c ≠ '\'' ∧ c ≠ '(' ∧ c ≠ ')' ∧ c ≠ ',' ∧ c ≠ ' ' := by
  simpa [isPlain] using h

/-- A character that passes a test is plain if the others do not pass it. -/
theorem isPlain_of_test {c : Char} {test : Char → Bool}
    (h : test '\'' = false ∧ test '(' = false ∧ test ')' = false ∧ test ',' = false ∧
      test ' ' = false) (hc : test c) : isPlain c := by
  obtain ⟨hquote, hopen, hclose, hcomma, hblank⟩ := h
  have hne {d : Char} (hd : test d = false) : c ≠ d := by
    rintro rfl
    rw [hd] at hc
    cases hc
  simp [isPlain, hne hquote, hne hopen, hne hclose, hne hcomma, hne hblank]

/-- Two texts in front of the first piece. -/
theorem appendFirst_appendFirst (word word' : List Char) (texts : List (List Char)) :
    appendFirst word (appendFirst word' texts) = appendFirst (word ++ word') texts := by
  cases texts <;> simp [appendFirst]

theorem consFirst_appendFirst (c : Char) (word : List Char) (texts : List (List Char)) :
    consFirst c (appendFirst word texts) = appendFirst (c :: word) texts := by
  cases texts <;> rfl

/-! ## Walks over one character -/

theorem takeGroup_apostrophe (depth : Nat) (quoted : Bool) (rest : List Char) :
    takeGroup depth quoted ('\'' :: rest) =
      (takeGroup depth (!quoted) rest).map fun (inner, after) => ('\'' :: inner, after) := by
  rw [takeGroup.eq_def]
  exact if_pos rfl

theorem takeGroup_inside {c : Char} (h : c ≠ '\'') (depth : Nat) (rest : List Char) :
    takeGroup depth true (c :: rest) =
      (takeGroup depth true rest).map fun (inner, after) => (c :: inner, after) := by
  rw [takeGroup.eq_def]
  dsimp only
  rw [if_neg h, if_pos rfl]

theorem takeGroup_open (depth : Nat) (rest : List Char) :
    takeGroup depth false ('(' :: rest) =
      (takeGroup (depth + 1) false rest).map fun (inner, after) => ('(' :: inner, after) := by
  rw [takeGroup.eq_def]
  rfl

theorem takeGroup_close_zero (rest : List Char) :
    takeGroup 0 false (')' :: rest) = some ([], rest) :=
  rfl

theorem takeGroup_close_succ (depth : Nat) (rest : List Char) :
    takeGroup (depth + 1) false (')' :: rest) =
      (takeGroup depth false rest).map fun (inner, after) => (')' :: inner, after) :=
  rfl

theorem takeGroup_other {c : Char} (hquote : c ≠ '\'') (hopen : c ≠ '(') (hclose : c ≠ ')')
    (depth : Nat) (rest : List Char) :
    takeGroup depth false (c :: rest) =
      (takeGroup depth false rest).map fun (inner, after) => (c :: inner, after) := by
  rw [takeGroup.eq_def]
  dsimp only
  rw [if_neg hquote, if_neg Bool.false_ne_true, if_neg hopen, if_neg hclose]

namespace Balanced

variable {inside : Bool} {cs ds : List Char}

theorem append (h : Balanced inside cs) (h' : Balanced inside ds) : Balanced inside (cs ++ ds) := by
  induction h with
  | nil => exact h'
  | plain hc _ ih => exact .plain hc (ih h')
  | comma _ ih => exact .comma (ih h')
  | quoted hbody _ ih =>
      rw [List.cons_append, List.append_assoc]
      exact .quoted hbody (ih h')
  | group hinner _ _ ih =>
      rw [List.cons_append, List.append_assoc]
      exact .group hinner (ih h')

/-- A balanced text may stand inside of a group. -/
theorem enclose (h : Balanced inside cs) : Balanced true cs := by
  induction h with
  | nil => exact .nil true
  | plain hc _ ih => exact .plain hc ih
  | comma _ ih => exact .comma ih
  | quoted hbody _ ih => exact .quoted hbody ih
  | group hinner _ _ ih => exact .group hinner ih

theorem of_plain (h : ∀ c ∈ cs, isPlain c) (inside : Bool) : Balanced inside cs := by
  induction cs with
  | nil => exact .nil inside
  | cons c cs ih =>
      exact .plain (h c List.mem_cons_self) (ih fun d hd => h d (List.mem_cons_of_mem _ hd))

/-- Texts with commas between them may stand inside of a group. -/
theorem intercalate {texts : List (List Char)} (h : ∀ text ∈ texts, Balanced false text) :
    Balanced true ([','].intercalate texts) := by
  induction texts with
  | nil => exact .nil true
  | cons text rest ih =>
      have htext := (h text List.mem_cons_self).enclose
      have hrest := ih fun t ht => h t (List.mem_cons_of_mem _ ht)
      cases rest with
      | nil => simpa [List.intercalate] using htext
      | cons text' rest =>
          have hwhole := htext.append (.comma hrest)
          simpa [List.intercalate] using hwhole

theorem quotedAfter_eq (h : Balanced inside cs) (quoted : Bool) :
    quotedAfter quoted cs = quoted := by
  induction h generalizing quoted with
  | nil => rfl
  | plain hc _ ih => rw [quotedAfter_cons, quotedBehind_of_ne (isPlain_ne hc).1, ih]
  | comma _ ih => rw [quotedAfter_cons, quotedBehind_of_ne (by decide), ih]
  | quoted hbody _ ih =>
      rw [quotedAfter_cons, quotedAfter_append, quotedAfter_of_notMem hbody, quotedAfter_cons, ih]
      simp [quotedBehind]
  | group _ _ ihinner ih =>
      rw [quotedAfter_cons, quotedBehind_of_ne (by decide), quotedAfter_append, ihinner,
        quotedAfter_cons, quotedBehind_of_ne (by decide), ih]

/-! ## Groups -/

/-- Text between apostrophes is part of the group that it stands in. -/
theorem takeGroup_quoted {body : List Char} (hbody : '\'' ∉ body) (depth : Nat) (rest : List Char) :
    takeGroup depth true (body ++ '\'' :: rest) =
      (takeGroup depth false rest).map fun (inner, after) => (body ++ '\'' :: inner, after) := by
  induction body with
  | nil => exact takeGroup_apostrophe depth true rest
  | cons c body ih =>
      obtain ⟨hc, hbody⟩ := not_or.1 (mt List.mem_cons.2 hbody)
      rw [List.cons_append, takeGroup_inside (Ne.symm hc), ih hbody, Option.map_map]
      rfl

/-- A balanced text is part of the group that it stands in. -/
theorem takeGroup_append (h : Balanced inside cs) (depth : Nat) (rest : List Char) :
    takeGroup depth false (cs ++ rest) =
      (takeGroup depth false rest).map fun (inner, after) => (cs ++ inner, after) := by
  induction h generalizing depth rest with
  | nil => simp
  | plain hc _ ih =>
      obtain ⟨hquote, hopen, hclose, -⟩ := isPlain_ne hc
      rw [List.cons_append, takeGroup_other hquote hopen hclose, ih, Option.map_map]
      rfl
  | comma _ ih =>
      rw [List.cons_append, takeGroup_other (by decide) (by decide) (by decide), ih, Option.map_map]
      rfl
  | quoted hbody _ ih =>
      rw [List.cons_append, List.append_assoc, takeGroup_apostrophe, List.cons_append,
        Bool.not_false, takeGroup_quoted hbody, ih, Option.map_map, Option.map_map]
      simp [Function.comp_def]
  | group _ _ ihinner ih =>
      rw [List.cons_append, List.append_assoc, takeGroup_open, ihinner, List.cons_append,
        takeGroup_close_succ, ih, Option.map_map, Option.map_map, Option.map_map]
      simp [Function.comp_def]

/-- A balanced text is the inside of the group that ends behind it. -/
theorem group?_append (h : Balanced inside cs) (after : List Char) :
    group? (cs ++ ')' :: after) = some (cs, after) := by
  rw [group?, h.takeGroup_append, takeGroup_close_zero]
  simp

/-! ## Pieces -/

theorem cut_quoted {body : List Char} (hbody : '\'' ∉ body) (depth : Int) (rest : List Char) :
    cut depth true (body ++ '\'' :: rest) =
      appendFirst (body ++ ['\'']) (cut depth false rest) := by
  induction body with
  | nil =>
      rw [List.nil_append, cut, if_pos rfl]
      rfl
  | cons c body ih =>
      obtain ⟨hc, hbody⟩ := not_or.1 (mt List.mem_cons.2 hbody)
      rw [List.cons_append, cut, if_neg (Ne.symm hc), if_pos rfl, ih hbody, consFirst_appendFirst]
      rfl

/-- A balanced text is part of the piece that it stands in. -/
theorem cut_append (h : Balanced inside cs) {depth : Nat} (hdepth : inside = true → depth ≠ 0)
    (rest : List Char) : cut depth false (cs ++ rest) = appendFirst cs (cut depth false rest) := by
  induction h generalizing depth rest with
  | nil => rw [List.nil_append, appendFirst_nil (cut_ne_nil _ _ _)]
  | plain hc _ ih =>
      obtain ⟨hquote, hopen, hclose, hcomma, hblank⟩ := isPlain_ne hc
      rw [List.cons_append, cut, if_neg hquote, if_neg Bool.false_ne_true, if_neg hopen,
        if_neg hclose, if_neg fun h => hcomma h.1, if_neg hblank, ih hdepth, consFirst_appendFirst]
  | comma _ ih =>
      have hinside : ¬ (depth : Int) = 0 := by
        have := hdepth rfl
        omega
      rw [List.cons_append, cut, if_neg (by decide), if_neg Bool.false_ne_true, if_neg (by decide),
        if_neg (by decide), if_neg fun h => hinside h.2, if_neg (by decide), ih hdepth,
        consFirst_appendFirst]
  | quoted hbody _ ih =>
      rw [List.cons_append, List.append_assoc, cut, if_pos rfl, Bool.not_false, List.cons_append,
        cut_quoted hbody, ih hdepth, appendFirst_appendFirst, consFirst_appendFirst]
      simp
  | @group _ inner cs _ _ ihinner ih =>
      have hopened : (depth : Int) + 1 = (depth + 1 : Nat) := rfl
      have hclosed : ((depth + 1 : Nat) : Int) - 1 = depth := by omega
      rw [List.cons_append, List.append_assoc, cut, if_neg (by decide), if_neg Bool.false_ne_true,
        if_pos rfl, hopened, ihinner (fun _ => Nat.succ_ne_zero _), List.cons_append, cut,
        if_neg (by decide), if_neg Bool.false_ne_true, if_neg (by decide), if_pos rfl, hclosed,
        ih hdepth, consFirst_appendFirst, consFirst_appendFirst, appendFirst_appendFirst]
      rfl

end Balanced

/-- Balanced texts with commas between them are cut where the commas are. -/
theorem cut_intercalate {texts : List (List Char)} (hne : texts ≠ [])
    (h : ∀ text ∈ texts, Balanced false text) : cut 0 false ([','].intercalate texts) = texts := by
  induction texts with
  | nil => exact absurd rfl hne
  | cons text rest ih =>
      have hbalanced : Balanced false text := h text List.mem_cons_self
      have htext (behind : List Char) :
          cut (0 : Nat) false (text ++ behind) = appendFirst text (cut (0 : Nat) false behind) :=
        hbalanced.cut_append (by simp) behind
      rw [Nat.cast_zero] at htext
      cases rest with
      | nil =>
          have hcut := htext []
          rw [List.append_nil] at hcut
          simpa [List.intercalate, appendFirst, cut] using hcut
      | cons text' rest =>
          have hrest := ih (List.cons_ne_nil _ _) fun t ht => h t (List.mem_cons_of_mem _ ht)
          have hwhole : [','].intercalate (text :: text' :: rest) =
              text ++ ',' :: [','].intercalate (text' :: rest) := by simp [List.intercalate]
          rw [hwhole, htext, cut, if_neg (by decide), if_neg Bool.false_ne_true, if_neg (by decide),
            if_neg (by decide), if_pos ⟨rfl, rfl⟩, hrest]
          simp [appendFirst]

/-- The pieces of balanced texts with commas between them are these texts. -/
theorem pieces_intercalate {texts : List (List Char)} (hne : [','].intercalate texts ≠ [])
    (h : ∀ text ∈ texts, Balanced false text) (start : Position) :
    pieces ⟨start, [','].intercalate texts⟩ = locate start texts := by
  have htexts : texts ≠ [] := by
    rintro rfl
    exact hne rfl
  rw [pieces, if_neg hne, cut_intercalate htexts h]

/-- A balanced text is one piece. -/
theorem pieces_of_balanced {cs : List Char} (hne : cs ≠ []) (h : Balanced false cs)
    (start : Position) : pieces ⟨start, cs⟩ = [⟨start, cs⟩] := by
  have hsingle : [','].intercalate [cs] = cs := by simp [List.intercalate]
  have hpieces := pieces_intercalate (hsingle.symm ▸ hne) (by simpa using h) start
  rwa [hsingle, locate, locate] at hpieces

/-! ## The group at the end -/

/-- Behind the text inside a group the walk is outside of apostrophes. -/
theorem quotedAfter_takeGroup {depth : Nat} {quoted : Bool} {cs inner after : List Char}
    (h : takeGroup depth quoted cs = some (inner, after)) : quotedAfter quoted inner = false := by
  induction cs generalizing depth quoted inner with
  | nil => simp [takeGroup] at h
  | cons c cs ih =>
      obtain ⟨hquoted, -, rfl, -⟩ | ⟨depth', inner', rfl, hrest⟩ := takeGroup_cons h
      · exact hquoted
      · rw [quotedAfter_cons]
        exact ih hrest

/-- A group that starts inside of apostrophes does not end where the text does, if that is outside
of them. -/
theorem group?_ne_of_quoted {cs inner : List Char} (h : quotedAfter false cs = true) :
    group? cs ≠ some (inner, []) := by
  intro hgroup
  have hinner := quotedAfter_takeGroup hgroup
  rw [takeGroup_eq hgroup, quotedAfter_append, hinner] at h
  cases h

/-- A parenthesis starts no group that ends where the text does. -/
theorem splitGroup_cons {c : Char} {rest : List Char}
    (h : c = '(' → ∀ inner, group? rest ≠ some (inner, [])) :
    splitGroup (c :: rest) = (splitGroup rest).map fun (before, inner) => (c :: before, inner) := by
  rw [splitGroup]
  split
  · rename_i hopen
    split
    · rename_i inner hgroup
      exact absurd hgroup (h hopen inner)
    · rfl
  · rfl

namespace Balanced

variable {inside : Bool} {cs tail : List Char}

/-- No group that starts between apostrophes ends where the text does. -/
theorem splitGroup_quoted {body : List Char} (hbody : '\'' ∉ body)
    (htail : quotedAfter true tail = true) :
    splitGroup (body ++ '\'' :: tail) =
      (splitGroup tail).map fun (before, inner) => (body ++ '\'' :: before, inner) := by
  induction body with
  | nil => exact splitGroup_cons (by simp)
  | cons c body ih =>
      obtain ⟨-, hbody⟩ := not_or.1 (mt List.mem_cons.2 hbody)
      have hodd : quotedAfter false (body ++ '\'' :: tail) = true := by
        rw [quotedAfter_append, quotedAfter_of_notMem hbody, quotedAfter_cons]
        exact htail
      rw [List.cons_append, splitGroup_cons fun _ _ => group?_ne_of_quoted hodd, ih hbody,
        Option.map_map]
      rfl

/-- No group that starts in a balanced text ends where a longer text does. -/
theorem splitGroup_append (h : Balanced inside cs) (hne : tail ≠ [])
    (htail : quotedAfter true tail = true) :
    splitGroup (cs ++ tail) =
      (splitGroup tail).map fun (before, inner) => (cs ++ before, inner) := by
  induction h generalizing tail with
  | nil => simp
  | plain hc _ ih =>
      rw [List.cons_append, splitGroup_cons fun hopen => absurd hopen (isPlain_ne hc).2.1,
        ih hne htail, Option.map_map]
      rfl
  | comma _ ih =>
      rw [List.cons_append, splitGroup_cons (by simp), ih hne htail, Option.map_map]
      rfl
  | @quoted _ body cs hbody hcs ih =>
      have hrest : quotedAfter true (cs ++ tail) = true := by
        rw [quotedAfter_append, hcs.quotedAfter_eq, htail]
      rw [List.cons_append, List.append_assoc, splitGroup_cons (by simp), List.cons_append,
        splitGroup_quoted hbody hrest, ih hne htail, Option.map_map, Option.map_map]
      simp [Function.comp_def]
  | @group _ inner cs hinner hcs ihinner ih =>
      have hrest : quotedAfter true (')' :: (cs ++ tail)) = true := by
        rw [quotedAfter_cons, quotedBehind_of_ne (by decide), quotedAfter_append,
          hcs.quotedAfter_eq, htail]
      have hgroup : ∀ inner', group? (inner ++ ')' :: (cs ++ tail)) ≠ some (inner', []) := by
        intro inner' hgroup
        rw [hinner.group?_append] at hgroup
        simp [hne] at hgroup
      rw [List.cons_append, List.append_assoc, List.cons_append, splitGroup_cons fun _ => hgroup,
        ihinner (List.cons_ne_nil _ _) hrest, splitGroup_cons (by simp), ih hne htail,
        Option.map_map, Option.map_map, Option.map_map]
      simp [Function.comp_def]

/-- A balanced text in a group behind a balanced text is the group at the end. -/
theorem splitGroup_group (h : Balanced inside cs) {inner : List Char}
    (hinner : Balanced true inner) :
    splitGroup (cs ++ '(' :: (inner ++ [')'])) = some (cs, inner) := by
  have htail : quotedAfter true ('(' :: (inner ++ [')'])) = true := by
    rw [quotedAfter_cons, quotedBehind_of_ne (by decide), quotedAfter_append, hinner.quotedAfter_eq]
    rfl
  rw [h.splitGroup_append (List.cons_ne_nil _ _) htail, splitGroup, if_pos rfl,
    hinner.group?_append]
  simp

end Balanced

/-! ## Expressions -/

theorem isPlain_of_additive {c : Char} {op : ArithmeticOp} (h : additive? c = some op) :
    isPlain c := by
  unfold additive? at h
  split at h <;> first | rfl | cases h

theorem isPlain_of_multiplicative {c : Char} {op : ArithmeticOp} (h : multiplicative? c = some op) :
    isPlain c := by
  unfold multiplicative? at h
  split at h <;> first | rfl | cases h

mutual
/-- The parentheses and apostrophes of an expression come in pairs. -/
theorem IsSum.balanced {cs : List Char} {t : OrdinaryExpr String} (h : IsSum cs t)
    (inside : Bool) : Balanced inside cs := by
  match h with
  | .product h => exact h.balanced inside
  | .extend hleft hop hright =>
      exact (hleft.balanced inside).append
        (.plain (isPlain_of_additive hop) (hright.balanced inside))

theorem IsProduct.balanced {cs : List Char} {t : OrdinaryExpr String} (h : IsProduct cs t)
    (inside : Bool) : Balanced inside cs := by
  match h with
  | .factor h => exact h.balanced inside
  | .extend hleft hop hright =>
      exact (hleft.balanced inside).append
        (.plain (isPlain_of_multiplicative hop) (hright.balanced inside))

theorem IsFactor.balanced {cs : List Char} {t : OrdinaryExpr String} (h : IsFactor cs t)
    (inside : Bool) : Balanced inside cs := by
  match h with
  | .plus h => exact .plain rfl (h.balanced inside)
  | .minus h => exact .plain rfl (h.balanced inside)
  | .primary h => exact h.balanced inside

theorem IsPrimary.balanced {cs : List Char} {t : OrdinaryExpr String} (h : IsPrimary cs t)
    (inside : Bool) : Balanced inside cs := by
  match h with
  | .group h => exact .group (h.balanced true) (.nil inside)
  | .number _ hdigits _ =>
      exact .of_plain (fun c hc => isPlain_of_test (by decide) (hdigits c hc)) inside
  | .selfDefining hbody hvalue =>
      exact .plain (isPlain_of_test (by decide) (isAlpha_of_selfDefining hvalue))
        (.quoted hbody (.nil inside))
  | .symbol _ hname _ =>
      exact .of_plain (fun c hc => isPlain_of_test (by decide) (hname c hc)) inside
end

end MacroAssembler.Field
