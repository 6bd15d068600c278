import MacroAssembler.Proofs.Symbol.Knowledge

/-!
# Updates of the symbol table

What each update of a table changes, seen through the lookups `symbol?`, `valueOf`, `length?` and
`kind?`, and when it adds to the knowledge of the table. Giving a length to a space adds knowledge
if the space has none, and giving a value to a symbol does if the old value may become the new one.
-/

namespace MacroAssembler

/-- Every value may become itself. -/
theorem SymbolValue.Becomes.refl (t : SymbolTable) (v : SymbolValue) : v.Becomes t v := by
  cases v with
  | absolute i => exact .absolute i
  | relocatable a => exact .relocatable rfl
  | undefined => exact .undefined _

/-- What may become of a value depends on the spaces of a table only. -/
theorem SymbolValue.Becomes.congr {t t' : SymbolTable} {v w : SymbolValue} (h : v.Becomes t w)
    (hnormalize : t'.normalize = t.normalize) : v.Becomes t' w := by
  cases h with
  | absolute i => exact .absolute i
  | relocatable hab => exact .relocatable (by rw [hnormalize, hab])
  | undefined => exact .undefined _

namespace SymbolTable

variable {t : SymbolTable}

/-- The table with one more symbol. -/
def addSymbol (t : SymbolTable) (sym : OrdinarySymbol) : SymbolTable :=
  { t with symbols := t.symbols ++ [sym] }

/-- Tables with the same spaces normalize alike. -/
theorem normalize_congr {t t' : SymbolTable} (h : t'.length? = t.length?) (a : Address) :
    t'.normalize a = t.normalize a := by
  simp [normalize, h]

/-- What a source waits for depends on the values of symbols and on the lengths of spaces. -/
theorem unknownsOfSource_congr {t t' : SymbolTable} (hlength : t'.length? = t.length?)
    (hvalue : t'.valueOf = t.valueOf) : t'.unknownsOfSource = t.unknownsOfSource := by
  have haddress : t'.unknownsOfAddress = t.unknownsOfAddress := by
    funext a
    simp [unknownsOfAddress, normalize_congr hlength]
  funext source
  cases source with
  | address a => exact congrFun haddress a
  | expr e =>
      show t'.unknowns e = t.unknowns e
      induction e with
      | constant => rfl
      | symbol n => simp [unknowns, unknownsOfSymbol, hvalue, haddress]
      | negate e _ ih => exact ih
      | binary op l r _ ihl ihr => simp only [unknowns, ihl, ihr]

/-- What is known of a symbol depends on its value and on the lengths of spaces. -/
theorem known_symbol_congr {t t' : SymbolTable} {n : NameId} (hlength : t'.length? = t.length?)
    (hvalue : t'.valueOf n = t.valueOf n) : t'.Known (.symbol n) ↔ t.Known (.symbol n) := by
  simp only [known_symbol_iff, hvalue, normalize_congr hlength]

/-- A known symbol that had the same value before was known before, or its address had spaces. -/
theorem known_symbol_or_spaces {t t' : SymbolTable} {n : NameId}
    (hvalue : t'.valueOf n = t.valueOf n) (hu : t'.Known (.symbol n)) :
    t.Known (.symbol n) ∨ ∃ b, t.valueOf n = .relocatable b ∧ b.spaces ≠ [] ∧
      t'.valueOf n = .relocatable b := by
  simp only [known_symbol_iff, hvalue] at hu ⊢
  cases hval : t.valueOf n with
  | absolute i => simp
  | undefined => exact absurd hval hu.1
  | relocatable b =>
      by_cases hb : b.spaces = []
      · simp [normalize_of_spaces_nil, hb]
      · exact .inr ⟨b, rfl, hb, rfl⟩

/-- A table lacks no more than another if it has all the lengths that the other has, and each
symbol has the same value or is known. -/
theorem unknownsOf_subset {t t' : SymbolTable}
    (hlength : ∀ s, t'.length? s = none → t.length? s = none)
    (hvalue : ∀ n, t'.valueOf n = t.valueOf n ∨ t'.Known (.symbol n)) (u : Unknown) :
    t'.unknownsOf u ⊆ t.unknownsOf u := by
  intro v hv
  cases u with
  | space s =>
      simp only [unknownsOf] at hv ⊢
      split at hv
      · rwa [if_pos (hlength s ‹_›)]
      · simp at hv
  | symbol n =>
      rcases hvalue n with hsame | hknown
      · simp only [unknownsOf, unknownsOfSymbol, hsame] at hv ⊢
        cases hval : t.valueOf n with
        | absolute i => simp [hval] at hv
        | undefined => simpa [hval] using hv
        | relocatable a =>
            simp only [hval, mem_unknownsOfAddress] at hv ⊢
            obtain ⟨s, hs, hnone, rfl⟩ := hv
            exact ⟨s, hs, hlength s hnone, rfl⟩
      · rw [hknown] at hv
        simp at hv

/-! ## Symbols -/

@[simp] theorem length?_setValue (n : NameId) (v : SymbolValue) :
    (t.setValue n v).length? = t.length? := rfl

@[simp] theorem kind?_setValue (n : NameId) (v : SymbolValue) :
    (t.setValue n v).kind? = t.kind? := rfl

@[simp] theorem normalize_setValue (n : NameId) (v : SymbolValue) :
    (t.setValue n v).normalize = t.normalize := rfl

@[simp] theorem spaces_setValue (n : NameId) (v : SymbolValue) :
    (t.setValue n v).spaces = t.spaces := rfl

/-- A symbol that is not defined has no value. -/
theorem valueOf_of_not_defines {n : NameId} (h : t.defines n = false) :
    t.valueOf n = .undefined := by
  unfold valueOf
  simp only [defines, Option.isSome_eq_false_iff, Option.isNone_iff_eq_none] at h
  simp [h]

/-- Setting a value changes the symbols of that name only. -/
theorem symbol?_setValue (n m : NameId) (v : SymbolValue) :
    (t.setValue n v).symbol? m =
      (t.symbol? m).map fun s => if m = n then { s with value := v } else s := by
  unfold symbol? setValue
  generalize t.symbols = symbols
  induction symbols with
  | nil => rfl
  | cons s rest ih =>
      by_cases hm : s.name = m
      · by_cases hn : s.name = n <;> simp_all
      · by_cases hn : s.name = n
        · simp_all
        · simpa [hn, hm] using ih

/-- Setting a value defines no symbol. -/
@[simp] theorem defines_setValue (n m : NameId) (v : SymbolValue) :
    (t.setValue n v).defines m = t.defines m := by
  simp [defines, symbol?_setValue]

/-- The value of a defined symbol is the value that was set. -/
theorem valueOf_setValue_self {n : NameId} (h : t.defines n = true) (v : SymbolValue) :
    (t.setValue n v).valueOf n = v := by
  obtain ⟨sym, hsym⟩ := Option.isSome_iff_exists.1 h
  simp [valueOf, symbol?_setValue, hsym]

/-- Other symbols keep their values. -/
theorem valueOf_setValue_of_ne {n m : NameId} (h : m ≠ n) (v : SymbolValue) :
    (t.setValue n v).valueOf m = t.valueOf m := by
  unfold valueOf
  rw [symbol?_setValue]
  cases t.symbol? m <;> simp [h]

/-- A value that lacks nothing makes nothing unknown. -/
theorem known_setValue {n : NameId} {v : SymbolValue} (hv : v ≠ .undefined)
    (hspaces : ∀ a, v = .relocatable a → a.spaces = []) {u : Unknown} (hu : t.Known u) :
    (t.setValue n v).Known u := by
  cases u with
  | space s => exact hu
  | symbol m =>
      by_cases hm : m = n
      · subst hm
        have hdefined : t.defines m = true := eq_true_of_ne_false fun hnone =>
          (known_symbol_iff.1 hu).1 (valueOf_of_not_defines hnone)
        rw [known_symbol_iff, valueOf_setValue_self hdefined]
        refine ⟨hv, fun a ha => ?_⟩
        rw [normalize_of_spaces_nil (hspaces a ha)]
        exact hspaces a ha
      · exact (known_symbol_congr (length?_setValue n v) (valueOf_setValue_of_ne hm v)).2 hu

/-- Setting a value that the old one may become adds knowledge. -/
theorem extends_setValue {n : NameId} {v : SymbolValue} (h : (t.valueOf n).Becomes t v) :
    Extends t (t.setValue n v) where
  length _ _ hs := hs
  kind _ _ hs := hs
  symbol m sym hsym := by
    refine ⟨if m = n then { sym with value := v } else sym, ?_, ?_⟩
    · simp [symbol?_setValue, hsym]
    · split
      · rename_i hm
        subst hm
        simp only [valueOf, hsym] at h
        exact ⟨rfl, rfl, h.congr (normalize_setValue _ v)⟩
      · exact ⟨rfl, rfl, .refl _ _⟩

@[simp] theorem length?_addSymbol (sym : OrdinarySymbol) :
    (t.addSymbol sym).length? = t.length? := rfl

@[simp] theorem kind?_addSymbol (sym : OrdinarySymbol) :
    (t.addSymbol sym).kind? = t.kind? := rfl

@[simp] theorem normalize_addSymbol (sym : OrdinarySymbol) :
    (t.addSymbol sym).normalize = t.normalize := rfl

@[simp] theorem spaces_addSymbol (sym : OrdinarySymbol) :
    (t.addSymbol sym).spaces = t.spaces := rfl

/-- A new symbol is found behind those that were there. -/
theorem symbol?_addSymbol (sym : OrdinarySymbol) (m : NameId) :
    (t.addSymbol sym).symbol? m =
      (t.symbol? m).or (if sym.name = m then some sym else none) := by
  unfold symbol? addSymbol
  rw [List.find?_append]
  by_cases hm : sym.name = m <;> simp [hm]

/-- A new symbol has its own value. -/
theorem valueOf_addSymbol_self {sym : OrdinarySymbol} (h : t.defines sym.name = false) :
    (t.addSymbol sym).valueOf sym.name = sym.value := by
  rw [defines, Option.isSome_eq_false_iff, Option.isNone_iff_eq_none] at h
  simp [valueOf, symbol?_addSymbol, h]

/-- Other symbols keep their values. -/
theorem valueOf_addSymbol_of_ne {sym : OrdinarySymbol} {m : NameId} (h : m ≠ sym.name) :
    (t.addSymbol sym).valueOf m = t.valueOf m := by
  simp [valueOf, symbol?_addSymbol, Ne.symm h]

/-- A new symbol is defined, and the others stay as they are. -/
theorem defines_addSymbol (sym : OrdinarySymbol) (m : NameId) :
    (t.addSymbol sym).defines m = (t.defines m || sym.name = m) := by
  by_cases hm : sym.name = m <;> simp [defines, symbol?_addSymbol, hm]

/-- A new symbol adds knowledge. -/
theorem extends_addSymbol (sym : OrdinarySymbol) : Extends t (t.addSymbol sym) where
  length _ _ hs := hs
  kind _ _ hs := hs
  symbol m sym' hsym := ⟨sym', by simp [symbol?_addSymbol, hsym], rfl, rfl, .refl _ _⟩

/-! ## Spaces -/

@[simp] theorem symbol?_setLength (s : SpaceId) (n : Int32) :
    (t.setLength s n).symbol? = t.symbol? := rfl

@[simp] theorem valueOf_setLength (s : SpaceId) (n : Int32) :
    (t.setLength s n).valueOf = t.valueOf := rfl

@[simp] theorem defines_setLength (s : SpaceId) (n : Int32) :
    (t.setLength s n).defines = t.defines := rfl

@[simp] theorem size_setLength (s : SpaceId) (n : Int32) :
    (t.setLength s n).spaces.size = t.spaces.size := by
  simp [setLength]

/-- Setting a length changes that space only. -/
theorem length?_setLength (s u : SpaceId) (n : Int32) :
    (t.setLength s n).length? u =
      if u = s ∧ s.index < t.spaces.size then some n else t.length? u := by
  obtain ⟨i⟩ := s
  obtain ⟨j⟩ := u
  simp only [length?, setLength, SpaceId.mk.injEq, Array.getElem?_modify]
  by_cases hj : i = j
  · subst hj
    by_cases hi : i < t.spaces.size <;> simp [hi]
  · simp [hj, Ne.symm hj]

/-- Setting a length changes no kind. -/
@[simp] theorem kind?_setLength (s : SpaceId) (n : Int32) :
    (t.setLength s n).kind? = t.kind? := by
  funext u
  simp only [kind?, setLength, Array.getElem?_modify]
  split <;> cases t.spaces[u.index]? <;> simp

/-- A length makes nothing unknown. -/
theorem known_setLength (s : SpaceId) (n : Int32) {u : Unknown} (hu : t.Known u) :
    (t.setLength s n).Known u := by
  have hlength {s' : SpaceId} (hnone : (t.setLength s n).length? s' = none) :
      t.length? s' = none := by
    rw [length?_setLength] at hnone
    split at hnone
    · simp at hnone
    · exact hnone
  cases u with
  | space s' =>
      rw [known_space_iff] at hu ⊢
      exact mt hlength hu
  | symbol m =>
      rw [known_symbol_iff] at hu ⊢
      refine ⟨hu.1, fun a ha => List.eq_nil_iff_forall_not_mem.2 fun s' hs' => ?_⟩
      obtain ⟨hmem, hnone⟩ := mem_spaces_normalize.1 hs'
      exact List.ne_nil_of_mem (mem_spaces_normalize.2 ⟨hmem, hlength hnone⟩) (hu.2 a ha)

/-- Giving a length to a space that has none adds knowledge. -/
theorem extends_setLength {s : SpaceId} (h : t.length? s = none) (n : Int32) :
    Extends t (t.setLength s n) where
  length u m hu := by
    rw [length?_setLength]
    split
    · rename_i hus
      simp [hus.1, h] at hu
    · exact hu
  kind u k hu := by simpa using hu
  symbol m sym hsym := ⟨sym, hsym, rfl, rfl, .refl _ _⟩

@[simp] theorem symbol?_addSpace (k : SpaceKind) : (t.addSpace k).2.symbol? = t.symbol? := rfl

@[simp] theorem valueOf_addSpace (k : SpaceKind) : (t.addSpace k).2.valueOf = t.valueOf := rfl

@[simp] theorem defines_addSpace (k : SpaceKind) : (t.addSpace k).2.defines = t.defines := rfl

@[simp] theorem size_addSpace (k : SpaceKind) :
    (t.addSpace k).2.spaces.size = t.spaces.size + 1 := by
  simp [addSpace]

/-- A new space has no length, and the others stay as they are. -/
@[simp] theorem length?_addSpace (k : SpaceKind) : (t.addSpace k).2.length? = t.length? := by
  funext u
  simp only [length?, addSpace, Array.getElem?_push]
  split
  · rename_i hu
    simp [hu]
  · rfl

/-- A new space has its kind, and the others keep theirs. -/
theorem kind?_addSpace (k : SpaceKind) (u : SpaceId) :
    (t.addSpace k).2.kind? u = if u = (t.addSpace k).1 then some k else t.kind? u := by
  obtain ⟨j⟩ := u
  simp only [kind?, addSpace, Array.getElem?_push, SpaceId.mk.injEq]
  split <;> rfl

/-- The number of a new space is not in use. -/
theorem kind?_fst_addSpace (k : SpaceKind) : t.kind? (t.addSpace k).1 = none := by
  simp [kind?, addSpace]

/-- A new space has no length yet. -/
theorem length?_fst_addSpace (k : SpaceKind) : t.length? (t.addSpace k).1 = none := by
  simp [length?, addSpace]

/-- A new space adds knowledge. -/
theorem extends_addSpace (k : SpaceKind) : Extends t (t.addSpace k).2 where
  length u m hu := by simpa using hu
  kind u k' hu := by
    rw [kind?_addSpace]
    split
    · rename_i heq
      simp [heq, kind?_fst_addSpace] at hu
    · exact hu
  symbol m sym hsym := ⟨sym, hsym, rfl, rfl, .refl _ _⟩

/-! ## Paddings -/

/-- A padding gets its length once the place in front of it is known, and no other space does. -/
theorem settleSpace_eq (t : SymbolTable) (s : SpaceId) :
    t.settleSpace s = t ∨ ∃ anchor alignment, t.kind? s = some (.alignment anchor alignment) ∧
      t.length? s = none ∧ (t.normalize anchor).spaces = [] ∧
      t.settleSpace s = t.setLength s (alignment.padding (t.normalize anchor).offset) := by
  unfold settleSpace
  cases hp : t.spaces[s.index]?.bind t.padding? with
  | none => exact .inl rfl
  | some n =>
      obtain ⟨⟨kind, length⟩, hspace, hpad⟩ := Option.bind_eq_some_iff.1 hp
      unfold padding? at hpad
      split at hpad
      · rename_i anchor alignment heq
        cases heq
        dsimp only at hpad
        split at hpad
        · simp at hpad
        · rename_i hspaces
          refine .inr ⟨anchor, alignment, ?_, ?_, ?_, ?_⟩
          · simp [kind?, hspace]
          · simp [length?, hspace]
          · simpa [Address.hasSpaces] using hspaces
          · rw [Option.some.inj hpad]
      · simp at hpad

/-- A padding without a length gets one if the place in front of it is known. -/
theorem settleSpace_of_known {s : SpaceId} {anchor : Address} {alignment : Alignment}
    (hkind : t.kind? s = some (.alignment anchor alignment)) (hnone : t.length? s = none)
    (hnil : (t.normalize anchor).spaces = []) :
    t.settleSpace s = t.setLength s (alignment.padding (t.normalize anchor).offset) := by
  obtain ⟨⟨kind, length⟩, hspace, rfl⟩ := Option.map_eq_some_iff.1 hkind
  simp only [length?, hspace, Option.bind_some] at hnone
  subst hnone
  simp [settleSpace, hspace, padding?, Address.hasSpaces, hnil]

/-- Settling a space adds knowledge. -/
theorem extends_settleSpace (t : SymbolTable) (s : SpaceId) : Extends t (t.settleSpace s) := by
  rcases settleSpace_eq t s with h | ⟨anchor, alignment, -, hnone, -, h⟩
  · rw [h]
    exact .refl t
  · rw [h]
    exact extends_setLength hnone _

end SymbolTable

end MacroAssembler
