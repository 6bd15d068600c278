import MacroAssembler.Symbol.Table

/-!
# Growing knowledge

A table that knows more than another: it has the same symbols and spaces and possibly more, the
values of absolute symbols and the lengths of spaces are unchanged, and the addresses of the others
denote the same places. Read `Extends.evaluate_eq` first: an expression that waits for nothing
keeps its value, or its error, in every table that knows more.
-/

namespace MacroAssembler

/-- The symbols or spaces that the value of a source is computed from. -/
def Source.mentions : Source → List Unknown
  | .expr e => e.names.map .symbol
  | .address a => a.spaces.map .space

namespace SymbolTable

variable {t t' t'' : SymbolTable}

/-! ## Addresses and lengths -/

/-- What kind of length a space stands for, if there is such a space. -/
def kind? (t : SymbolTable) (s : SpaceId) : Option SpaceKind := t.spaces[s.index]?.map (·.kind)

/-- A space has a kind if its number is in range. -/
theorem kind?_isSome_iff {s : SpaceId} : (t.kind? s).isSome ↔ s.index < t.spaces.size := by
  simp [kind?]

/-- A space with a length has a kind. -/
theorem lt_size_of_length? {s : SpaceId} {n : Int32} (h : t.length? s = some n) :
    s.index < t.spaces.size := by
  obtain ⟨space, hspace, -⟩ := Option.bind_eq_some_iff.1 h
  exact (Array.getElem?_eq_some_iff.1 hspace).1

/-- The spaces of a normalized address are those without a length. -/
theorem mem_spaces_normalize {a : Address} {s : SpaceId} :
    s ∈ (t.normalize a).spaces ↔ s ∈ a.spaces ∧ t.length? s = none := by
  simp [normalize]

/-- An address without spaces is normal. -/
theorem normalize_of_spaces_nil {a : Address} (h : a.spaces = []) : t.normalize a = a := by
  obtain ⟨offset, spaces⟩ := a
  obtain rfl : spaces = [] := h
  simp [normalize]

/-- The lengths that a table knows are those that another knew, and those it did not know. -/
theorem sum_filterMap_length? (h : ∀ s n, t.length? s = some n → t'.length? s = some n)
    (spaces : List SpaceId) :
    (spaces.filterMap t.length?).sum +
        ((spaces.filter fun s => (t.length? s).isNone).filterMap t'.length?).sum =
      (spaces.filterMap t'.length?).sum := by
  induction spaces with
  | nil => rfl
  | cons s rest ih =>
      cases hs : t.length? s with
      | none =>
          cases hs' : t'.length? s with
          | none => simp [hs, hs', ← ih]
          | some n =>
              simp [hs, hs', ← ih]
              ac_rfl
      | some n =>
          simp [hs, h s n hs, ← ih]
          ac_rfl

/-- The spaces whose length is unknown were unknown before. -/
theorem filter_isNone_length? (h : ∀ s n, t.length? s = some n → t'.length? s = some n)
    (spaces : List SpaceId) :
    (spaces.filter fun s => (t.length? s).isNone).filter (fun s => (t'.length? s).isNone) =
      spaces.filter fun s => (t'.length? s).isNone := by
  rw [List.filter_filter]
  refine List.filter_congr fun s _ => ?_
  cases hs : t.length? s with
  | none => simp
  | some n => simp [h s n hs]

/-- Normalizing with more lengths makes an earlier normalization superfluous. -/
theorem normalize_normalize (h : ∀ s n, t.length? s = some n → t'.length? s = some n)
    (a : Address) : t'.normalize (t.normalize a) = t'.normalize a := by
  simp only [normalize, filter_isNone_length? h, ← sum_filterMap_length? h a.spaces]
  ac_rfl

/-- Normalizing twice is normalizing once. -/
theorem normalize_idem (a : Address) : t.normalize (t.normalize a) = t.normalize a :=
  normalize_normalize (fun _ _ h => h) a

/-! ## What is still unknown -/

/-- What of a symbol or space is not known yet: the symbol itself if it has no value, the spaces
its address lacks, or the space itself. -/
def unknownsOf (t : SymbolTable) : Unknown → List Unknown
  | .symbol name => t.unknownsOfSymbol name
  | .space s => if t.length? s = none then [.space s] else []

/-- A symbol or space about which nothing is left to find out. -/
def Known (t : SymbolTable) (u : Unknown) : Prop := t.unknownsOf u = []

/-- A space is known if it has a length. -/
theorem known_space_iff {s : SpaceId} : t.Known (.space s) ↔ t.length? s ≠ none := by
  simp [Known, unknownsOf]

/-- The unknowns of an address are its spaces without a length. -/
theorem mem_unknownsOfAddress {a : Address} {u : Unknown} :
    u ∈ t.unknownsOfAddress a ↔ ∃ s ∈ a.spaces, t.length? s = none ∧ u = .space s := by
  simp only [unknownsOfAddress, List.mem_map, mem_spaces_normalize]
  constructor
  · rintro ⟨s, ⟨hs, hn⟩, rfl⟩
    exact ⟨s, hs, hn, rfl⟩
  · rintro ⟨s, hs, hn, rfl⟩
    exact ⟨s, ⟨hs, hn⟩, rfl⟩

/-- An address lacks nothing if its normal form has no spaces. -/
theorem unknownsOfAddress_eq_nil_iff {a : Address} :
    t.unknownsOfAddress a = [] ↔ (t.normalize a).spaces = [] := by
  simp [unknownsOfAddress]

/-- A symbol is known if it has a value, and its address lacks no space. -/
theorem known_symbol_iff {n : NameId} :
    t.Known (.symbol n) ↔ t.valueOf n ≠ .undefined ∧
      ∀ a, t.valueOf n = .relocatable a → (t.normalize a).spaces = [] := by
  simp only [Known, unknownsOf, unknownsOfSymbol]
  cases t.valueOf n <;> simp [unknownsOfAddress]

/-- A source waits for what is unknown of the symbols and spaces it mentions. -/
theorem mem_unknownsOfSource {source : Source} {v : Unknown} :
    v ∈ t.unknownsOfSource source ↔ ∃ u ∈ source.mentions, v ∈ t.unknownsOf u := by
  cases source with
  | address a =>
      simp only [unknownsOfSource, Source.mentions, mem_unknownsOfAddress, List.mem_map]
      constructor
      · rintro ⟨s, hs, hn, rfl⟩
        exact ⟨_, ⟨s, hs, rfl⟩, by simp [unknownsOf, hn]⟩
      · rintro ⟨_, ⟨s, hs, rfl⟩, hv⟩
        rw [unknownsOf] at hv
        split at hv
        · exact ⟨s, hs, ‹_›, List.mem_singleton.1 hv⟩
        · simp at hv
  | expr e =>
      simp only [unknownsOfSource, Source.mentions, List.mem_map]
      induction e with
      | constant => simp [unknowns, OrdinaryExpr.names]
      | symbol n => simp [unknowns, OrdinaryExpr.names, unknownsOf]
      | negate e _ ih => simpa only [unknowns, OrdinaryExpr.names] using ih
      | binary op l r _ ihl ihr =>
          simp only [unknowns, OrdinaryExpr.names, List.mem_append, ihl, ihr]
          constructor
          · rintro (⟨u, ⟨n, hn, rfl⟩, hv⟩ | ⟨u, ⟨n, hn, rfl⟩, hv⟩)
            · exact ⟨_, ⟨n, .inl hn, rfl⟩, hv⟩
            · exact ⟨_, ⟨n, .inr hn, rfl⟩, hv⟩
          · rintro ⟨u, ⟨n, hn | hn, rfl⟩, hv⟩
            · exact .inl ⟨_, ⟨n, hn, rfl⟩, hv⟩
            · exact .inr ⟨_, ⟨n, hn, rfl⟩, hv⟩

/-- A source waits for nothing if everything it mentions is known. -/
theorem unknownsOfSource_eq_nil_iff {source : Source} :
    t.unknownsOfSource source = [] ↔ ∀ u ∈ source.mentions, t.Known u := by
  simp only [List.eq_nil_iff_forall_not_mem, mem_unknownsOfSource, Known]
  grind

end SymbolTable

/-! ## Values and tables that grow -/

/-- The second value is what becomes of the first: a number stays, an address keeps its place, and
a value that is not there yet may become any. -/
inductive SymbolValue.Becomes (t : SymbolTable) : SymbolValue → SymbolValue → Prop where
  | absolute (i : Int32) : Becomes t (.absolute i) (.absolute i)
  | relocatable {a b : Address} :
      t.normalize b = t.normalize a → Becomes t (.relocatable a) (.relocatable b)
  | undefined (v : SymbolValue) : Becomes t .undefined v

namespace SymbolTable

variable {t t' t'' : SymbolTable}

/-- `Extends t t'` says that `t'` knows all that `t` knows. -/
structure Extends (t t' : SymbolTable) : Prop where
  length : ∀ s n, t.length? s = some n → t'.length? s = some n
  kind : ∀ s k, t.kind? s = some k → t'.kind? s = some k
  symbol : ∀ n sym, t.symbol? n = some sym → ∃ sym', t'.symbol? n = some sym' ∧
    sym'.attributes = sym.attributes ∧ sym'.location = sym.location ∧
    sym.value.Becomes t' sym'.value

end SymbolTable

/-- What becomes of a value goes on to change in a table that knows more. -/
theorem SymbolValue.Becomes.trans {t t' : SymbolTable} {v v' v'' : SymbolValue}
    (h : v.Becomes t v') (h' : v'.Becomes t' v'') (hext : t.Extends t') : v.Becomes t' v'' := by
  cases h with
  | absolute i => exact h'
  | undefined => exact .undefined _
  | relocatable hab =>
      cases h' with
      | relocatable hbc =>
          refine .relocatable (hbc.trans ?_)
          rw [← SymbolTable.normalize_normalize hext.length, hab,
            SymbolTable.normalize_normalize hext.length]

namespace SymbolTable

namespace Extends

/-- A table knows what it knows. -/
theorem refl (t : SymbolTable) : Extends t t where
  length _ _ h := h
  kind _ _ h := h
  symbol n sym h := by
    refine ⟨sym, h, rfl, rfl, ?_⟩
    cases sym.value with
    | absolute i => exact .absolute i
    | relocatable a => exact .relocatable rfl
    | undefined => exact .undefined _

/-- Knowledge grows step by step. -/
theorem trans (h : Extends t t') (h' : Extends t' t'') : Extends t t'' where
  length s n hs := h'.length s n (h.length s n hs)
  kind s k hs := h'.kind s k (h.kind s k hs)
  symbol n sym hsym := by
    obtain ⟨sym', hsym', ha, hl, hv⟩ := h.symbol n sym hsym
    obtain ⟨sym'', hsym'', ha', hl', hv'⟩ := h'.symbol n sym' hsym'
    exact ⟨sym'', hsym'', ha'.trans ha, hl'.trans hl, hv.trans hv' h'⟩

/-- A symbol stays defined. -/
theorem defines (h : Extends t t') {n : NameId} (hn : t.defines n = true) :
    t'.defines n = true := by
  obtain ⟨sym, hsym⟩ := Option.isSome_iff_exists.1 hn
  obtain ⟨sym', hsym', -⟩ := h.symbol n sym hsym
  simp [SymbolTable.defines, hsym']

/-- What becomes of the value that stands for a name. -/
theorem valueOf (h : Extends t t') (n : NameId) : (t.valueOf n).Becomes t' (t'.valueOf n) := by
  unfold SymbolTable.valueOf
  cases hs : t.symbol? n with
  | none => exact .undefined _
  | some sym =>
      obtain ⟨sym', hsym', -, -, hv⟩ := h.symbol n sym hs
      simpa only [hsym'] using hv

/-- Normalizing after more is known makes an earlier normalization superfluous. -/
theorem normalize_normalize (h : Extends t t') (a : Address) :
    t'.normalize (t.normalize a) = t'.normalize a :=
  SymbolTable.normalize_normalize h.length a

/-- A number of a space stays in range. -/
theorem lt_size (h : Extends t t') {s : SpaceId} (hs : s.index < t.spaces.size) :
    s.index < t'.spaces.size := by
  obtain ⟨k, hk⟩ := Option.isSome_iff_exists.1 (kind?_isSome_iff.2 hs)
  exact kind?_isSome_iff.1 (by simp [h.kind s k hk])

/-- What is unknown later was unknown before, or belongs to a symbol that had no value before. -/
theorem mem_unknownsOf (h : Extends t t') {u v : Unknown} (hv : v ∈ t'.unknownsOf u) :
    v ∈ t.unknownsOf u ∨ u ∈ t.unknownsOf u ∧ ∃ n, u = .symbol n := by
  cases u with
  | space s =>
      refine .inl ?_
      simp only [unknownsOf] at hv ⊢
      cases hs : t.length? s with
      | none => split at hv <;> simp_all
      | some n => simp [h.length s n hs] at hv
  | symbol n =>
      have hbecomes := h.valueOf n
      simp only [unknownsOf, unknownsOfSymbol] at hv ⊢
      generalize t.valueOf n = w at hbecomes
      generalize t'.valueOf n = w' at hbecomes hv
      cases hbecomes with
      | absolute i => simp at hv
      | undefined => exact .inr ⟨by simp, n, rfl⟩
      | relocatable hab =>
          refine .inl ?_
          obtain ⟨s, hs, hnone, rfl⟩ := mem_unknownsOfAddress.1 hv
          have hs' := mem_spaces_normalize.2 ⟨hs, hnone⟩
          rw [hab, ← h.normalize_normalize] at hs'
          exact List.mem_map_of_mem (mem_spaces_normalize.1 hs').1

/-- What is known stays known. -/
theorem known (h : Extends t t') {u : Unknown} (hu : t.Known u) : t'.Known u := by
  refine List.eq_nil_iff_forall_not_mem.2 fun v hv => ?_
  rw [SymbolTable.Known] at hu
  rcases h.mem_unknownsOf hv with h | ⟨h, -⟩ <;> simp [hu] at h

/-- A source that waits for nothing will wait for nothing. -/
theorem unknownsOfSource_eq_nil (h : Extends t t') {source : Source}
    (hs : t.unknownsOfSource source = []) : t'.unknownsOfSource source = [] :=
  unknownsOfSource_eq_nil_iff.2 fun u hu => h.known (unknownsOfSource_eq_nil_iff.1 hs u hu)

/-! ## Evaluation -/

/-- An expression that waits for nothing keeps its value or its error. -/
theorem evaluate_eq (h : Extends t t') {e : OrdinaryExpr NameId} (he : t.unknowns e = []) :
    t'.evaluate e = t.evaluate e := by
  induction e with
  | constant => rfl
  | negate e _ ih => simp only [evaluate, ih he]
  | binary op l r _ ihl ihr =>
      obtain ⟨hl, hr⟩ := List.append_eq_nil_iff.1 he
      simp only [evaluate, ihl hl, ihr hr]
  | symbol n =>
      have hbecomes := h.valueOf n
      simp only [unknowns, unknownsOfSymbol] at he
      simp only [evaluate]
      generalize t.valueOf n = w at hbecomes he
      generalize t'.valueOf n = w' at hbecomes
      cases hbecomes with
      | absolute => rfl
      | undefined => simp at he
      | relocatable hab =>
          -- both normal forms have no spaces left, so the later one adds nothing
          have hnil := unknownsOfAddress_eq_nil_iff.1 he
          show Except.ok (SymbolValue.relocatable _) = Except.ok (SymbolValue.relocatable _)
          rw [hab, ← h.normalize_normalize, normalize_of_spaces_nil hnil]

/-- A source that waits for nothing keeps its value or its error. -/
theorem evaluateSource_eq (h : Extends t t') {source : Source}
    (hs : t.unknownsOfSource source = []) :
    t'.evaluateSource source = t.evaluateSource source := by
  cases source with
  | expr e => exact h.evaluate_eq hs
  | address a =>
      have hnil := unknownsOfAddress_eq_nil_iff.1 hs
      show Except.ok (SymbolValue.relocatable _) = Except.ok (SymbolValue.relocatable _)
      rw [← h.normalize_normalize, normalize_of_spaces_nil hnil]

end Extends

end SymbolTable

end MacroAssembler
