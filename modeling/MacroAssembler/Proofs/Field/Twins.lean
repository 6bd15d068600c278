import MacroAssembler.Proofs.Field.Grammar
import MacroAssembler.Proofs.Field.Rendering

/-!
# Letter case in expressions

Texts that are the same in capital letters outside of apostrophes are `Twins true`, and texts that
are the same in capital letters are `Twins false`. The readers of expressions agree on them at
every step (`readSum_agree`): they take the same number of characters and find the same names,
and outside of apostrophes the same expression.
-/

namespace MacroAssembler

namespace Text

/-- The text in capital letters, apart from what stands between two apostrophes. An apostrophe
behind which no other one follows quotes nothing. -/
def upperOutside (quoted : Bool) : List Char → List Char
  | [] => []
  | c :: rest =>
      (if quoted ∧ '\'' ∈ rest then c else c.toUpper) ::
        upperOutside (if c = '\'' then !quoted else quoted) rest

end Text

namespace Field

open Text (Alike)

/-! ## Texts that differ in letter case -/

/-- The state of a walk over a text behind it. -/
def quotedAfter (quoted : Bool) (cs : List Char) : Bool := cs.foldl quotedBehind quoted

@[simp] theorem quotedAfter_cons (quoted : Bool) (c : Char) (cs : List Char) :
    quotedAfter quoted (c :: cs) = quotedAfter (quotedBehind quoted c) cs := rfl

@[simp] theorem quotedAfter_append (quoted : Bool) (cs cs' : List Char) :
    quotedAfter quoted (cs ++ cs') = quotedAfter (quotedAfter quoted cs) cs' := List.foldl_append

theorem quotedBehind_of_ne {quoted : Bool} {c : Char} (h : c ≠ '\'') :
    quotedBehind quoted c = quoted :=
  if_neg h

/-- A character that passes a test which apostrophes do not pass quotes nothing. -/
theorem quotedBehind_of_test {quoted : Bool} {c : Char} {test : Char → Bool}
    (hquote : test '\'' = false) (hc : test c = true) : quotedBehind quoted c = quoted := by
  refine quotedBehind_of_ne ?_
  rintro rfl
  rw [hquote] at hc
  cases hc

theorem quotedBehind_of_additive {quoted : Bool} {c : Char} {op : ArithmeticOp}
    (h : additive? c = some op) : quotedBehind quoted c = quoted :=
  quotedBehind_of_ne (by rintro rfl; cases h)

theorem quotedBehind_of_multiplicative {quoted : Bool} {c : Char} {op : ArithmeticOp}
    (h : multiplicative? c = some op) : quotedBehind quoted c = quoted :=
  quotedBehind_of_ne (by rintro rfl; cases h)

theorem quotedAfter_of_notMem {quoted : Bool} {cs : List Char} (h : '\'' ∉ cs) :
    quotedAfter quoted cs = quoted := by
  induction cs with
  | nil => rfl
  | cons c cs ih =>
      obtain ⟨hc, hcs⟩ := not_or.1 (mt List.mem_cons.2 h)
      rw [quotedAfter_cons, quotedBehind_of_ne (Ne.symm hc), ih hcs]

/-- The texts differ at most in the case of letters, and if `exact`, only in letters that do not
stand between two apostrophes. -/
inductive Twins (exact : Bool) : Bool → List Char → List Char → Prop where
  | nil (quoted : Bool) : Twins exact quoted [] []
  | cons {quoted : Bool} {c d : Char} {cs ds : List Char} : c.toUpper = d.toUpper →
      (exact = true → quoted = true → '\'' ∈ cs → c = d) →
      Twins exact (quotedBehind quoted c) cs ds → Twins exact quoted (c :: cs) (d :: ds)

theorem quotedBehind_eq {quoted : Bool} {c d : Char} (h : c.toUpper = d.toUpper) :
    quotedBehind quoted c = quotedBehind quoted d := by
  have hquote : (c = '\'') = (d = '\'') := Text.sign_congr h rfl
  simp only [quotedBehind, hquote]

namespace Twins

variable {exact quoted : Bool} {cs ds : List Char}

theorem alike (h : Twins exact quoted cs ds) : Alike cs ds := by
  induction h with
  | nil => exact .nil
  | cons hupper _ _ ih => exact .cons hupper ih

theorem length_eq (h : Twins exact quoted cs ds) : cs.length = ds.length := h.alike.length_eq

/-- Without regard to apostrophes the walk can start in any state. -/
theorem of_alike (h : Alike cs ds) (quoted : Bool) : Twins false quoted cs ds := by
  induction h generalizing quoted with
  | nil => exact .nil quoted
  | cons hupper _ ih => exact .cons hupper (by simp) (ih _)

theorem exists_cons {c : Char} (h : Twins exact quoted (c :: cs) ds) :
    ∃ d ds', ds = d :: ds' ∧ c.toUpper = d.toUpper ∧
      (exact = true → quoted = true → '\'' ∈ cs → c = d) ∧
      Twins exact (quotedBehind quoted c) cs ds' := by
  cases h with
  | cons hupper hsame hrest => exact ⟨_, _, rfl, hupper, hsame, hrest⟩

theorem symm (h : Twins exact quoted cs ds) : Twins exact quoted ds cs := by
  induction h with
  | nil => exact .nil _
  | cons hupper hsame hrest ih =>
      refine .cons hupper.symm (fun hexact hquoted hmem => ?_) (quotedBehind_eq hupper ▸ ih)
      exact (hsame hexact hquoted ((hrest.alike.mem_iff rfl).2 hmem)).symm

/-- Texts that are the same in capital letters outside of apostrophes. -/
theorem of_upperOutside (h : Text.upperOutside quoted cs = Text.upperOutside quoted ds) :
    Twins true quoted cs ds := by
  induction cs generalizing quoted ds with
  | nil =>
      cases ds with
      | nil => exact .nil quoted
      | cons d ds => simp [Text.upperOutside] at h
  | cons c cs ih =>
      cases ds with
      | nil => simp [Text.upperOutside] at h
      | cons d ds =>
          obtain ⟨hhead, htail⟩ := List.cons.inj h
          have hupper : c.toUpper = d.toUpper := by
            have hboth := congrArg Char.toUpper hhead
            split at hboth <;> split at hboth <;> simpa using hboth
          have hquote : (c = '\'') = (d = '\'') := Text.sign_congr hupper rfl
          have hrest : Twins true (quotedBehind quoted c) cs ds := by
            refine ih ?_
            simpa only [quotedBehind, hquote] using htail
          refine .cons hupper (fun _ hquoted hmem => ?_) hrest
          rwa [if_pos ⟨hquoted, hmem⟩, if_pos ⟨hquoted, (hrest.alike.mem_iff rfl).1 hmem⟩] at hhead

/-- Twins of a text in two parts have two parts as well. -/
theorem exists_append {as as' : List Char} (h : Twins exact quoted (as ++ as') ds) :
    ∃ bs bs', ds = bs ++ bs' ∧ Twins exact quoted as bs ∧
      Twins exact (quotedAfter quoted as) as' bs' := by
  induction as generalizing quoted ds with
  | nil => exact ⟨[], ds, rfl, .nil quoted, h⟩
  | cons a as ih =>
      cases h with
      | @cons _ _ d _ ds hupper hsame hrest =>
          obtain ⟨bs, bs', rfl, hfirst, hsecond⟩ := ih hrest
          refine ⟨d :: bs, bs', rfl, .cons hupper (fun hexact hquoted hmem => ?_) hfirst, hsecond⟩
          exact hsame hexact hquoted (List.mem_append_left _ hmem)

/-- Parts of the same length are twins. -/
theorem split {as as' bs bs' : List Char} (h : Twins exact quoted (as ++ as') (bs ++ bs'))
    (hlength : as.length = bs.length) :
    Twins exact quoted as bs ∧ Twins exact (quotedAfter quoted as) as' bs' := by
  obtain ⟨cs, cs', heq, hfirst, hsecond⟩ := h.exists_append
  obtain ⟨rfl, rfl⟩ := List.append_inj heq (hlength.symm.trans hfirst.length_eq)
  exact ⟨hfirst, hsecond⟩

/-- What stands between two apostrophes is the same in both texts. -/
theorem eq_of_quoted {bs cs' ds' : List Char} (h : Twins true true (cs ++ '\'' :: cs') (bs ++ ds'))
    (hcs : '\'' ∉ cs) (hlength : cs.length = bs.length) : cs = bs := by
  induction cs generalizing bs with
  | nil => exact (List.length_eq_zero_iff.1 hlength.symm).symm
  | cons c cs ih =>
      cases bs with
      | nil => simp at hlength
      | cons b bs =>
          obtain ⟨hc, hcs⟩ := not_or.1 (mt List.mem_cons.2 hcs)
          cases h with
          | cons hupper hsame hrest =>
              obtain rfl : c = b := hsame rfl rfl (by simp)
              rw [quotedBehind_of_ne (Ne.symm hc)] at hrest
              rw [ih hrest hcs (by simpa using hlength)]

/-- A test that no letter case changes, and that apostrophes do not pass, takes the same number of
characters off both texts. -/
theorem dropWhile {test : Char → Bool} (h : Twins exact quoted cs ds)
    (htest : ∀ {c d : Char}, c.toUpper = d.toUpper → test c = test d) (hquote : test '\'' = false) :
    Twins exact quoted (cs.dropWhile test) (ds.dropWhile test) := by
  induction h with
  | nil quoted => exact .nil quoted
  | @cons quoted c d cs ds hupper hsame hrest ih =>
      have hd := htest hupper
      cases hc : test c with
      | true =>
          rw [quotedBehind_of_test hquote hc] at ih
          simpa only [List.dropWhile_cons, ← hd, hc, if_true] using ih
      | false =>
          simp only [List.dropWhile_cons, ← hd, hc, Bool.false_eq_true, if_false]
          exact .cons hupper hsame hrest

end Twins

/-! ## Expressions -/

/-- A text and its twin are self-defining terms of the same kind, or none of them is one. -/
theorem isSome_selfDefining? {kind kind' : Char} {body body' : List Char}
    (hkind : kind.toUpper = kind'.toUpper) (hbody : Alike body body') :
    (selfDefining? kind body).isSome = (selfDefining? kind' body').isSome := by
  have hnil : (body ≠ []) = (body' ≠ []) := propext (not_congr hbody.nil_iff)
  simp only [selfDefining?, hkind, hbody.pattern?, hbody.byteLength, hnil]
  split
  · rfl
  · rfl
  · split <;> rfl
  · rfl

/-- A self-defining term is read at the start of both texts, up to the same place. -/
theorem exists_readSelfDefining {exact : Bool} {cs ds after : List Char} {value : Int32}
    {hlt : after.length < cs.length} (h : Twins exact false cs ds)
    (hread : readSelfDefining cs = some ⟨(value, after), hlt⟩) :
    ∃ value' after' hlt', readSelfDefining ds = some ⟨(value', after'), hlt'⟩ ∧
      (exact = true → value = value') ∧ Twins exact false after after' := by
  obtain ⟨kind, body, rfl, hbody, hvalue⟩ := readSelfDefining_eq hread
  have hkind : quotedBehind false kind = false :=
    quotedBehind_of_test rfl (isAlpha_of_selfDefining hvalue)
  cases h with
  | @cons _ _ kind' _ ds hupper _ hrest =>
      rw [hkind] at hrest
      cases hrest with
      | @cons _ _ d _ ds hquote _ hinside =>
          obtain rfl : d = '\'' := (Text.eq_iff_eq hquote rfl).1 rfl
          obtain ⟨body', ds', rfl, hbodies, hbehind⟩ := hinside.exists_append
          rw [quotedAfter_of_notMem hbody] at hbehind
          cases hbehind with
          | @cons _ _ d' _ after' hquote' _ hafter =>
              obtain rfl : d' = '\'' := (Text.eq_iff_eq hquote' rfl).1 rfl
              have hbody' : '\'' ∉ body' := mt (hbodies.alike.mem_iff rfl).2 hbody
              have hsome := isSome_selfDefining? hupper hbodies.alike
              rw [hvalue] at hsome
              obtain ⟨value', hvalue'⟩ := Option.isSome_iff_exists.1 hsome.symm
              obtain ⟨hlt', hread'⟩ := readSelfDefining_append hbody' hvalue' after'
              refine ⟨value', after', hlt', hread', fun hexact => ?_, hafter⟩
              subst hexact
              obtain rfl := hinside.eq_of_quoted hbody hbodies.length_eq
              have hsame : selfDefining? kind body = selfDefining? kind' body := by
                simp only [selfDefining?, hupper]
              rw [← hsame, hvalue] at hvalue'
              exact Option.some.inj hvalue'

/-- The expressions have the same names, and are the same if `exact`. -/
structure Akin (exact : Bool) (e e' : OrdinaryExpr String) : Prop where
  names : e.names = e'.names
  eq : exact = true → e = e'

theorem Akin.binary {exact : Bool} {left left' right right' : OrdinaryExpr String}
    (hleft : Akin exact left left') (hright : Akin exact right right') (op : ArithmeticOp)
    (range : Range) : Akin exact (.binary op left right range) (.binary op left' right' range) :=
  ⟨by simp only [OrdinaryExpr.names, hleft.names, hright.names],
    fun hexact => by rw [hleft.eq hexact, hright.eq hexact]⟩

/-- Both readings fail with the same names, or give akin expressions and twins behind them. -/
inductive Agree (exact : Bool) {n m : Nat} :
    Except (List String) (Read n) → Except (List String) (Read m) → Prop where
  | error (names : List String) : Agree exact (.error names) (.error names)
  | ok {e e' : OrdinaryExpr String} {after after' : List Char} {hlt : after.length < n}
      {hlt' : after'.length < m} : Akin exact e e' → Twins exact false after after' →
      Agree exact (.ok ⟨(e, after), hlt⟩) (.ok ⟨(e', after'), hlt'⟩)

theorem placeOf_eq {exact : Bool} {cs ds : List Char} (h : Twins exact false cs ds)
    (stop : Position) : placeOf stop cs = placeOf stop ds := by
  rw [placeOf, placeOf, h.length_eq]

theorem span_eq {exact : Bool} {first first' last last' : List Char}
    (hfirst : Twins exact false first first') (hlast : Twins exact false last last')
    (stop : Position) : span stop first last = span stop first' last' := by
  rw [span, span, placeOf_eq hfirst, placeOf_eq hlast]

/-- Twins start with the same number, self-defining term or symbol. -/
theorem readAtom_agree (stop : Position) {exact : Bool} {cs ds : List Char}
    (h : Twins exact false cs ds) : Agree exact (readAtom stop cs) (readAtom stop ds) := by
  have hwhole := h
  cases h with
  | nil => exact .error []
  | @cons _ c d cs ds hupper _ hrest =>
      have hdigit := Text.isDigit_eq hupper
      have hname := Text.isNameChar_eq hupper
      have hbehind {test : Char → Bool} (hquote : test '\'' = false) (hc : test c = true) :
          Twins exact false cs ds := by
        rwa [quotedBehind_of_test hquote hc] at hrest
      unfold readAtom
      dsimp only
      rw [← hdigit, ← hname]
      split
      · rename_i hc
        have hafter := (hbehind rfl hc).dropWhile Text.isDigit_eq rfl
        have hdigits : Alike (c :: cs.takeWhile Char.isDigit) (d :: ds.takeWhile Char.isDigit) :=
          .cons hupper (hrest.alike.span Text.isDigit_eq).1
        rw [← hdigits.integer?]
        split
        · exact .ok ⟨rfl, fun _ => by rw [span_eq hwhole hafter]⟩ hafter
        · exact .error []
      · split
        · rename_i hread
          obtain ⟨value', after', hlt', hread', hvalue, hafter⟩ :=
            exists_readSelfDefining hwhole hread
          rw [hread']
          exact .ok ⟨rfl, fun hexact => by rw [hvalue hexact, span_eq hwhole hafter]⟩ hafter
        · rename_i hnone
          have hnone' : readSelfDefining (d :: ds) = none := by
            cases hread : readSelfDefining (d :: ds) with
            | none => rfl
            | some found =>
                obtain ⟨⟨value, after⟩, hlt⟩ := found
                obtain ⟨_, _, _, hread', -⟩ := exists_readSelfDefining hwhole.symm hread
                exact absurd (hnone.symm.trans hread') (by simp)
          rw [hnone']
          dsimp only
          split
          · rename_i hc
            have hafter := (hbehind rfl hc).dropWhile Text.isNameChar_eq rfl
            have hname : Alike (c :: cs.takeWhile Text.isNameChar)
                (d :: ds.takeWhile Text.isNameChar) :=
              .cons hupper (hrest.alike.span Text.isNameChar_eq).1
            rw [hname.upper, span_eq hwhole hafter]
            exact .ok ⟨rfl, fun _ => rfl⟩ hafter
          · exact .error []

theorem Agree.cases {exact : Bool} {n m : Nat} {x : Except (List String) (Read n)}
    {y : Except (List String) (Read m)} (h : Agree exact x y) :
    (∃ names, x = .error names ∧ y = .error names) ∨
      ∃ e e' after after' hlt hlt', x = .ok ⟨(e, after), hlt⟩ ∧ y = .ok ⟨(e', after'), hlt'⟩ ∧
        Akin exact e e' ∧ Twins exact false after after' := by
  cases h with
  | error names => exact .inl ⟨names, rfl, rfl⟩
  | ok he hafter => exact .inr ⟨_, _, _, _, _, _, rfl, rfl, he, hafter⟩

theorem additive?_eq {c d : Char} (h : c.toUpper = d.toUpper) : additive? c = additive? d := by
  rcases Text.eq_or_isAlpha h with rfl | ⟨hc, hd⟩
  · rfl
  · unfold additive?
    split <;> split <;> first | rfl | exact absurd hc (by decide) | exact absurd hd (by decide)

theorem multiplicative?_eq {c d : Char} (h : c.toUpper = d.toUpper) :
    multiplicative? c = multiplicative? d := by
  rcases Text.eq_or_isAlpha h with rfl | ⟨hc, hd⟩
  · rfl
  · unfold multiplicative?
    split <;> split <;> first | rfl | exact absurd hc (by decide) | exact absurd hd (by decide)

section

variable {exact : Bool}

mutual
/-- Twins start with akin sums. -/
theorem readSum_agree (stop : Position) {cs ds : List Char} (h : Twins exact false cs ds) :
    Agree exact (readSum stop cs) (readSum stop ds) := by
  rw [readSum, readSum, placeOf_eq h]
  rcases (readProduct_agree stop h).cases with
    ⟨names, hx, hy⟩ | ⟨e, e', after, after', hlt, hlt', hx, hy, he, hafter⟩ <;> rw [hx, hy]
  · exact .error names
  dsimp only
  have hshorter : after.length < cs.length := hlt
  rcases (extendSum_agree stop (placeOf stop ds) he hafter).cases with
    ⟨names, hx, hy⟩ | ⟨e, e', after, after', hlt, hlt', hx, hy, he, hafter⟩ <;> rw [hx, hy]
  · exact .error names
  · exact .ok he hafter
  termination_by (cs.length, 5)

theorem extendSum_agree (stop start : Position) {left left' : OrdinaryExpr String}
    {cs ds : List Char} (hleft : Akin exact left left') (h : Twins exact false cs ds) :
    Agree exact (extendSum stop start left cs) (extendSum stop start left' ds) := by
  cases hcs : cs with
  | nil =>
      subst hcs
      obtain rfl := List.forall₂_nil_left_iff.1 h.alike
      rw [extendSum, extendSum]
      exact .ok hleft h
  | cons c rest =>
      have hless : rest.length < cs.length := by simp [hcs]
      subst hcs
      obtain ⟨d, ds, rfl, hupper, -, hrest⟩ := h.exists_cons
      rw [extendSum, extendSum, ← additive?_eq hupper]
      cases hop : additive? c with
      | none => exact .ok hleft h
      | some op =>
          rw [quotedBehind_of_additive hop] at hrest
          dsimp only
          rcases (readProduct_agree stop hrest).cases with
            ⟨names, hx, hy⟩ | ⟨e, e', after, after', hlt, hlt', hx, hy, he, hafter⟩ <;> rw [hx, hy]
          · rw [hleft.names]
            exact .error _
          · dsimp only
            have hshorter : after.length < rest.length := hlt
            rw [placeOf_eq hafter]
            have hwhole := hleft.binary he op ⟨start, placeOf stop after'⟩
            rcases (extendSum_agree stop start hwhole hafter).cases with
              ⟨names, hx, hy⟩ | ⟨e, e', after, after', hlt, hlt', hx, hy, he, hafter⟩ <;>
              rw [hx, hy]
            · exact .error names
            · exact .ok he hafter
  termination_by (cs.length, 4)

theorem readProduct_agree (stop : Position) {cs ds : List Char} (h : Twins exact false cs ds) :
    Agree exact (readProduct stop cs) (readProduct stop ds) := by
  rw [readProduct, readProduct, placeOf_eq h]
  rcases (readFactor_agree stop h).cases with
    ⟨names, hx, hy⟩ | ⟨e, e', after, after', hlt, hlt', hx, hy, he, hafter⟩ <;> rw [hx, hy]
  · exact .error names
  dsimp only
  have hshorter : after.length < cs.length := hlt
  rcases (extendProduct_agree stop (placeOf stop ds) he hafter).cases with
    ⟨names, hx, hy⟩ | ⟨e, e', after, after', hlt, hlt', hx, hy, he, hafter⟩ <;> rw [hx, hy]
  · exact .error names
  · exact .ok he hafter
  termination_by (cs.length, 3)

theorem extendProduct_agree (stop start : Position) {left left' : OrdinaryExpr String}
    {cs ds : List Char} (hleft : Akin exact left left') (h : Twins exact false cs ds) :
    Agree exact (extendProduct stop start left cs) (extendProduct stop start left' ds) := by
  cases hcs : cs with
  | nil =>
      subst hcs
      obtain rfl := List.forall₂_nil_left_iff.1 h.alike
      rw [extendProduct, extendProduct]
      exact .ok hleft h
  | cons c rest =>
      have hless : rest.length < cs.length := by simp [hcs]
      subst hcs
      obtain ⟨d, ds, rfl, hupper, -, hrest⟩ := h.exists_cons
      rw [extendProduct, extendProduct, ← multiplicative?_eq hupper]
      cases hop : multiplicative? c with
      | none => exact .ok hleft h
      | some op =>
          rw [quotedBehind_of_multiplicative hop] at hrest
          dsimp only
          rcases (readFactor_agree stop hrest).cases with
            ⟨names, hx, hy⟩ | ⟨e, e', after, after', hlt, hlt', hx, hy, he, hafter⟩ <;> rw [hx, hy]
          · rw [hleft.names]
            exact .error _
          · dsimp only
            have hshorter : after.length < rest.length := hlt
            rw [placeOf_eq hafter]
            have hwhole := hleft.binary he op ⟨start, placeOf stop after'⟩
            rcases (extendProduct_agree stop start hwhole hafter).cases with
              ⟨names, hx, hy⟩ | ⟨e, e', after, after', hlt, hlt', hx, hy, he, hafter⟩ <;>
              rw [hx, hy]
            · exact .error names
            · exact .ok he hafter
  termination_by (cs.length, 2)

theorem readFactor_agree (stop : Position) {cs ds : List Char} (h : Twins exact false cs ds) :
    Agree exact (readFactor stop cs) (readFactor stop ds) := by
  cases hcs : cs with
  | nil =>
      subst hcs
      obtain rfl := List.forall₂_nil_left_iff.1 h.alike
      rw [readFactor_eq_readAtom stop (by simp)]
      exact readAtom_agree stop h
  | cons c rest =>
      have hless : rest.length < cs.length := by simp [hcs]
      subst hcs
      obtain ⟨d, ds, rfl, hupper, -, hrest⟩ := h.exists_cons
      have hsign {x : Char} (hx : x.isAlpha = false) : c = x ↔ d = x := Text.eq_iff_eq hupper hx
      by_cases hplus : c = '+'
      · obtain rfl : d = '+' := (hsign rfl).1 hplus
        subst hplus
        have hbehind : Twins exact false rest ds := hrest
        rw [readFactor, readFactor]
        rcases (readFactor_agree stop hbehind).cases with
          ⟨names, hx, hy⟩ | ⟨e, e', after, after', hlt, hlt', hx, hy, he, hafter⟩ <;> rw [hx, hy]
        · exact .error names
        · exact .ok he hafter
      by_cases hminus : c = '-'
      · obtain rfl : d = '-' := (hsign rfl).1 hminus
        subst hminus
        have hbehind : Twins exact false rest ds := hrest
        rw [readFactor, readFactor]
        rcases (readFactor_agree stop hbehind).cases with
          ⟨names, hx, hy⟩ | ⟨e, e', after, after', hlt, hlt', hx, hy, he, hafter⟩ <;> rw [hx, hy]
        · exact .error names
        · refine .ok ⟨he.names, fun hexact => ?_⟩ hafter
          rw [he.eq hexact, span_eq h hafter]
      by_cases hopen : c = '('
      · obtain rfl : d = '(' := (hsign rfl).1 hopen
        subst hopen
        have hbehind : Twins exact false rest ds := hrest
        rw [readFactor, readFactor]
        rcases (readSum_agree stop hbehind).cases with
          ⟨names, hx, hy⟩ | ⟨e, e', after, after', hlt, hlt', hx, hy, he, hafter⟩ <;> rw [hx, hy]
        · exact .error names
        dsimp only
        cases hafter with
        | nil =>
            rw [he.names]
            exact .error _
        | @cons _ c d after after' hupper hsame hafter =>
            have hclose : (c = ')') = (d = ')') := Text.sign_congr hupper rfl
            simp only [hclose]
            split
            · rename_i hd
              subst hd
              obtain rfl : c = ')' := (Text.eq_iff_eq hupper rfl).2 rfl
              exact .ok he hafter
            · rw [he.names]
              exact .error _
      · have hplus' : d ≠ '+' := mt (hsign rfl).2 hplus
        have hminus' : d ≠ '-' := mt (hsign rfl).2 hminus
        have hopen' : d ≠ '(' := mt (hsign rfl).2 hopen
        rw [readFactor_eq_readAtom stop (by simp [hplus, hminus, hopen]),
          readFactor_eq_readAtom stop (by simp [hplus', hminus', hopen'])]
        exact readAtom_agree stop h
  termination_by (cs.length, 1)
end

end

/-- The places are the same, and the texts are twins. -/
structure TwinPieces (exact : Bool) (p p' : Piece) : Prop where
  start : p.start = p'.start
  text : Twins exact false p.text p'.text

section

variable {exact : Bool} {p p' : Piece} {ps ps' : List Piece} {t : NameTable}

theorem TwinPieces.range_eq (h : TwinPieces exact p p') : p.range = p'.range := by
  rw [Piece.range, Piece.range, Piece.stop, Piece.stop, h.start, h.text.length_eq]

theorem TwinPieces.nil_congr (h : TwinPieces exact p p') : (p.text = []) = (p'.text = []) :=
  propext h.text.alike.nil_iff

/-- Twins spell akin expressions, or fail with the same names. -/
theorem readExpr_twins (h : TwinPieces exact p p') :
    (∃ names, readExpr p = .error names ∧ readExpr p' = .error names) ∨
      ∃ e e', readExpr p = .ok e ∧ readExpr p' = .ok e' ∧ Akin exact e e' := by
  have hstop : p.stop = p'.stop := congrArg Range.stop h.range_eq
  unfold readExpr
  rw [hstop]
  rcases (readSum_agree p'.stop h.text).cases with
    ⟨names, hx, hy⟩ | ⟨e, e', after, after', hlt, hlt', hx, hy, he, hafter⟩ <;> rw [hx, hy]
  · exact .inl ⟨names, rfl, rfl⟩
  · cases hafter with
    | nil => exact .inr ⟨e, e', rfl, rfl, he⟩
    | cons => exact .inl ⟨e.names, rfl, congrArg Except.error he.names.symm⟩

end

end Field

end MacroAssembler
