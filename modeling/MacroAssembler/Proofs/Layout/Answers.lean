import MacroAssembler.Proofs.Layout.Circularity

/-!
# The end of a run

At the end of a run no entry is left that could be completed (`ended_makeAll`). If the run ends
without errors, nothing is left open at all: every registration has its answer, every space has
its length, and every label has its place (`Ended.complete`). What a request answered with an
address behind spaces can then be read in the final table, where all these lengths are known.
-/

namespace MacroAssembler

/-! ## Paddings that are left -/

namespace SymbolTable

variable {t : SymbolTable}

/-- If every storage has its length, and every padding that could have one, then no length is
missing: a padding stands behind spaces with smaller numbers. -/
theorem length?_ne_none_of_lengths
    (hpaddings : ∀ s anchor alignment, t.kind? s = some (.alignment anchor alignment) →
      t.length? s = none → (t.normalize anchor).spaces ≠ [])
    (hanchors : ∀ s anchor alignment, t.kind? s = some (.alignment anchor alignment) →
      ∀ s' ∈ anchor.spaces, s'.index < s.index)
    (hlengths : ∀ s, t.kind? s = some .length → t.length? s ≠ none) {s : SpaceId}
    (hs : s.index < t.spaces.size) : t.length? s ≠ none := by
  obtain ⟨i⟩ := s
  induction i using Nat.strong_induction_on with
  | _ i ih =>
      obtain ⟨kind, hkind⟩ := Option.isSome_iff_exists.1 (kind?_isSome_iff.2 hs)
      cases kind with
      | length => exact hlengths _ hkind
      | alignment anchor alignment =>
          intro hnone
          refine hpaddings _ anchor alignment hkind hnone ?_
          refine List.eq_nil_iff_forall_not_mem.2 fun s' hs' => ?_
          obtain ⟨hmem, hmissing⟩ := mem_spaces_normalize.1 hs'
          have hbefore := hanchors _ anchor alignment hkind s' hmem
          exact ih s'.index hbefore (Nat.lt_trans hbefore hs) hmissing

end SymbolTable

namespace Layout

variable {Work : Type}

/-! ## The counter -/

/-- Settling does not move the counter. -/
theorem counter_settle (l : Layout Work) : l.settle.counter = l.counter :=
  settle_induction (P := fun l' => l'.counter = l.counter)
    (fun _ _ hstep hold => hstep.counter.trans hold) rfl

/-- Letting an entry wait does not move the counter. -/
theorem counter_await (l : Layout Work) (e : Entry Work) : (l.await e).counter = l.counter := by
  by_cases hrejects : l.Rejects e
  · obtain ⟨event, hawait⟩ := await_of_rejects hrejects
    rw [hawait]
    rfl
  · rw [await_of_accepts hrejects, counter_settle]
    rfl

/-- Defining a symbol does not move the counter. -/
theorem counter_make_define (l : Layout Work) (symbol : OrdinarySymbol) :
    (l.make (.define symbol)).counter = l.counter := by
  show (l.perform (.define symbol)).counter = l.counter
  cases hdefined : l.table.defines symbol.name with
  | true => rw [perform_define_of_defines hdefined]
  | false =>
      rw [perform_define hdefined, counter_settle]
      rfl

/-- Declaring a symbol does not move the counter. -/
theorem counter_make_declare (l : Layout Work) (symbol : OrdinarySymbol) (source : Source)
    (range : Range) : (l.make (.declare symbol source range)).counter = l.counter := by
  rw [make_of_registration rfl, counter_await]
  exact counter_make_define l symbol

/-- Ending a run does not move the counter. -/
theorem counter_end (h : History Work) {ns ns' : List (Move Work)} (hns : ∀ m ∈ ns, m.Fetches)
    (hns' : ∀ m ∈ ns', m.Fetches) :
    (h.makeAll (ns ++ .finish :: ns')).layout.counter = h.layout.counter := by
  rw [History.makeAll_append, History.makeAll_cons, (History.settled_makeAll _ hns').counter]
  show (h.makeAll ns).layout.settle.counter = _
  rw [counter_settle, (History.settled_makeAll h hns).counter]

/-! ## What is left at the end -/

namespace History

/-- A history at whose end nothing is left that could be settled. -/
structure Ended (h : History Work) : Prop where
  tracked : h.Tracked
  entries : h.layout.entries = []
  waiting : ∀ e ∈ h.aside, e.isSettled h.layout.table = false
  paddings : ∀ s anchor alignment, h.layout.table.kind? s = some (.alignment anchor alignment) →
    h.layout.table.length? s = none → (h.layout.table.normalize anchor).spaces ≠ []
  /-- What was given up was reported. -/
  reported : h.aside ≠ [] → h.errors ≠ []

/-- A history at whose end everything is known. -/
structure Complete (h : History Work) : Prop where
  tracked : h.Tracked
  answered : ∀ r ∈ h.registered, ∀ u, r.target = some u → r.Answered h.layout.table
  lengths : ∀ s : SpaceId, s.index < h.layout.table.spaces.size → h.layout.table.length? s ≠ none
  places : ∀ n b, h.layout.table.valueOf n = .relocatable b → b.spaces = []

end History

/-- Something is reported of every entry that is given up. -/
theorem complaints_ne_nil (l : Layout Work) (e : Entry Work) : l.complaints e ≠ [] := by
  unfold complaints
  split
  · split <;> simp
  · rename_i hne
    simpa using hne

/-- At the end of a legal run nothing is left that could be settled. -/
theorem ended_makeAll {ms ns : List (Move Work)} (hlegal : Legal ({} : Layout Work) ms)
    (hopen : Move.finish ∉ ms) (hns : ∀ m ∈ ns, m.Fetches) :
    (History.makeAll ({} : History Work) (ms ++ .finish :: ns)).Ended := by
  let before : History Work := .makeAll {} ms
  have hbefore : before.Tracked := tracked_makeAll hlegal
  have hquiescent := settle_quiescent before.layout
  let ended : History Work := before.make .finish
  have ht : ended.Tracked := hbefore.make trivial
  have haside : ended.aside = before.layout.settle.entries := by
    show before.aside ++ before.layout.settle.entries = _
    rw [show before.aside = [] from History.aside_makeAll hopen, List.nil_append]
  have hended : ended.Ended := by
    refine ⟨ht, rfl, haside ▸ hquiescent.entries, hquiescent.paddings, fun hne => ?_⟩
    obtain ⟨e, he⟩ := List.exists_mem_of_ne_nil _ (haside ▸ hne)
    obtain ⟨error, herror⟩ :=
      List.exists_mem_of_ne_nil _ (complaints_ne_nil before.layout.settle e)
    refine List.ne_nil_of_mem (a := (e.range, error)) (List.mem_append_right _ ?_)
    exact List.mem_append_right _ (List.mem_flatMap.2 ⟨e, he, List.mem_map.2 ⟨error, herror, rfl⟩⟩)
  have hsettled := ended.settled_makeAll hns
  rw [History.makeAll_append, History.makeAll_cons]
  refine ⟨ht.makeAll (legal_of_fetches hns), hsettled.entries.trans hended.entries, ?_, ?_, ?_⟩
  · rw [hsettled.aside, hsettled.table]
    exact hended.waiting
  · rw [hsettled.table]
    exact hended.paddings
  · rw [hsettled.aside, hsettled.errors]
    exact hended.reported

/-- A run that ends without errors leaves nothing open. -/
theorem History.Ended.complete {h : History Work} (hended : h.Ended) (herrors : h.errors = []) :
    h.Complete := by
  have ht := hended.tracked
  have haside : h.aside = [] := by
    by_contra hne
    exact hended.reported hne herrors
  have hwaiting : h.layout.entries ++ h.aside = [] := by rw [hended.entries, haside]; rfl
  have hanswered : ∀ r ∈ h.registered, ∀ u, r.target = some u → r.Answered h.layout.table := by
    intro r hr u hu
    rcases ht.standing r hr u hu with hmem | hanswered | ⟨-, hne⟩
    · simp [hwaiting] at hmem
    · exact hanswered
    · exact absurd herrors hne
  refine ⟨ht, hanswered, fun s hs => ?_, fun n b hb => ?_⟩
  · refine SymbolTable.length?_ne_none_of_lengths hended.paddings ht.sound.anchors
      (fun s hkind => ?_) hs
    obtain ⟨r, hr, hu⟩ := ht.lengths _ hkind
    cases hanswered r hr _ hu with
    | symbol => simp at hu
    | space _ _ _ hlength =>
        cases hu
        simp [hlength]
  · rcases ht.relocatable n b hb with hnil | ⟨r, -, a, -, -, -, hmem | hne⟩
    · exact hnil
    · simp [hwaiting] at hmem
    · exact absurd herrors hne

end Layout

/-! ## Reading addresses in a later table -/

namespace SymbolTable

variable {t : SymbolTable}

/-- A place can be moved before or after it is normalized. -/
theorem normalize_shift (a : Address) (n : Int32) :
    t.normalize (a.shift n) = (t.normalize a).shift n := by
  simp only [normalize, Address.shift]
  congr 1
  ac_rfl

/-- A symbol is in the table with these attributes, and `v` has become its value. -/
def Holds (t : SymbolTable) (n : NameId) (v : SymbolValue) (attributes : SymbolAttributes) : Prop :=
  ∃ symbol, t.symbol? n = some symbol ∧ symbol.attributes = attributes ∧ v.Becomes t symbol.value

/-- A symbol stays in the table. -/
theorem Holds.extends {t' : SymbolTable} {n : NameId} {v : SymbolValue}
    {attributes : SymbolAttributes} (h : t.Holds n v attributes) (hext : t.Extends t') :
    t'.Holds n v attributes := by
  obtain ⟨symbol, hsymbol, hattributes, hbecomes⟩ := h
  obtain ⟨symbol', hsymbol', hattributes', -, hbecomes'⟩ := hext.symbol n symbol hsymbol
  exact ⟨symbol', hsymbol', hattributes'.trans hattributes, hbecomes.trans hbecomes' hext⟩

/-- A new symbol is in the table. -/
theorem holds_addSymbol {symbol : OrdinarySymbol} (hfresh : t.defines symbol.name = false) :
    (t.addSymbol symbol).Holds symbol.name symbol.value symbol.attributes := by
  have hnone : t.symbol? symbol.name = none := by simpa [defines] using hfresh
  exact ⟨symbol, by simp [symbol?_addSymbol, hnone], rfl, .refl _ _⟩

/-- Behind a space of known length a place is moved by that length. -/
theorem normalize_behind {s : SpaceId} {n : Int32} (a : Address) (h : t.length? s = some n) :
    t.normalize (a.behind s) = (t.normalize a).shift n := by
  simp only [normalize, Address.shift, Address.behind, List.filterMap_append, List.sum_append,
    List.filterMap_cons, List.filterMap_nil, h, List.filter_append, List.filter_cons,
    List.filter_nil]
  simp
  ac_rfl

end SymbolTable

/-- The next aligned place. -/
def Address.aligned (a : Address) (alignment : Alignment) : Address :=
  if alignment.boundary ≤ 1 then a else a.shift (alignment.padding a.offset)

namespace Layout

variable {Work : Type} {l : Layout Work}

/-- In a table with more lengths, where each padding has its length, an aligned place is the next
aligned place behind the counter. -/
theorem normalize_align {t : SymbolTable} (alignment : Alignment)
    (hlength : ∀ s n, l.table.length? s = some n → t.length? s = some n)
    (hpaddings : ∀ s anchor al, (l.align alignment).2.table.kind? s = some (.alignment anchor al) →
      t.length? s = some (al.padding (t.normalize anchor).offset)) :
    t.normalize (l.align alignment).1 = (t.normalize l.counter).aligned alignment := by
  have haligns := align_aligns l alignment
  have hplace : t.normalize l.place = t.normalize l.counter :=
    SymbolTable.normalize_normalize hlength l.counter
  generalize (l.align alignment).1 = place at haligns
  generalize (l.align alignment).2 = aligned at haligns hpaddings
  cases haligns with
  | stay hle => rw [Address.aligned, if_pos hle]
  | known hlt hspaces =>
      have hknown := hplace
      rw [SymbolTable.normalize_of_spaces_nil hspaces] at hknown
      rw [Address.aligned, if_neg (by simpa using hlt), SymbolTable.normalize_shift, hplace,
        ← hknown]
  | padded hlt =>
      have hpadding := hpaddings _ _ _ (by rw [SymbolTable.kind?_addSpace]; exact if_pos rfl)
      rw [Address.aligned, if_neg (by simpa using hlt),
        SymbolTable.normalize_behind _ hpadding, hplace]

namespace History.Complete

variable {f : History Work}

/-- In the end an aligned place is as far from the counter as the alignment asks. -/
theorem align (hf : f.Complete) {alignment : Alignment} (hboundary : 1 < alignment.boundary)
    (hext : (l.align alignment).2.table.Extends f.layout.table) :
    f.layout.table.normalize (l.align alignment).1 =
      (f.layout.table.normalize l.counter).shift
        (alignment.padding (f.layout.table.normalize l.counter).offset) := by
  have hgrows := extends_align l alignment
  rw [normalize_align alignment (hgrows.trans hext).length fun s anchor al hkind => ?_,
    Address.aligned, if_neg (by simpa using hboundary)]
  have hfinal := hext.kind _ _ hkind
  obtain ⟨n, hn⟩ := Option.ne_none_iff_exists'.1
    (hf.lengths s (SymbolTable.kind?_isSome_iff.1 (by simp [hfinal])))
  obtain ⟨-, hlength⟩ := hf.tracked.paddings _ _ _ n hfinal hn
  rw [hn, hlength]

/-- In the end a label has the place that it was given, without spaces. -/
theorem place_of_becomes (hf : f.Complete) {n : NameId} {a : Address}
    (h : (SymbolValue.relocatable a).Becomes f.layout.table (f.layout.table.valueOf n)) :
    f.layout.table.valueOf n = .relocatable (f.layout.table.normalize a) := by
  generalize hv : f.layout.table.valueOf n = v at h
  cases h with
  | relocatable hab =>
      rw [← hab, SymbolTable.normalize_of_spaces_nil (hf.places n _ hv)]

/-- In the end a symbol has the value that an expression gave to it. -/
theorem value_of_becomes (hf : f.Complete) {n : NameId} {e : OrdinaryExpr NameId} {v : SymbolValue}
    (hnil : f.layout.table.unknowns e = []) (hv : f.layout.table.evaluate e = .ok v)
    (h : v.Becomes f.layout.table (f.layout.table.valueOf n)) : f.layout.table.valueOf n = v := by
  cases v with
  | undefined => exact absurd hv (SymbolTable.evaluate_ne_undefined e)
  | absolute i =>
      generalize f.layout.table.valueOf n = w at h
      cases h
      rfl
  | relocatable a =>
      rw [hf.place_of_becomes h,
        SymbolTable.normalize_of_spaces_nil (SymbolTable.spaces_of_evaluate hnil hv)]

/-- In the end a symbol that waited for an expression has its value. -/
theorem evaluate_of_registered (hf : f.Complete) {n : NameId} {e : OrdinaryExpr NameId}
    {work : Option Work} {range : Range}
    (h : ⟨some (.symbol n), [.expr e], work, range⟩ ∈ f.registered) :
    f.layout.table.evaluate e = .ok (f.layout.table.valueOf n) := by
  cases hf.answered _ h _ rfl with
  | symbol hnil hv hbecomes =>
      have hvalue := hf.value_of_becomes (v := _) hnil hv hbecomes
      rw [hvalue]
      exact hv

/-- In the end a storage area has as many bytes as its expression says. -/
theorem length_of_registered (hf : f.Complete) {s : SpaceId} {e : OrdinaryExpr NameId}
    {range : Range} (h : lengthEntry s e range ∈ f.registered) :
    ∃ n, f.layout.table.evaluate e = .ok (.absolute n) ∧ 0 ≤ n ∧
      f.layout.table.length? s = some n := by
  cases hf.answered _ h _ rfl with
  | space hnil hv hle hlength => exact ⟨_, hv, hle, hlength⟩

end History.Complete

/-! ## Requests and their answers -/

namespace History

variable {h h' f : History Work}

/-- A run goes on from the first history to the second. -/
structure Leads (h f : History Work) : Prop where
  registered : h.registered ⊆ f.registered
  table : h.layout.table.Extends f.layout.table

theorem Leads.trans (hl : h.Leads h') (hl' : h'.Leads f) : h.Leads f :=
  ⟨List.Subset.trans hl.registered hl'.registered, hl.table.trans hl'.table⟩

/-- A symbol was given the value that an expression has in the table `t`, or it waits for it. -/
def Equates (h : History Work) (t : SymbolTable) (name : NameId) (e : OrdinaryExpr NameId) : Prop :=
  ∃ v length, h.layout.table.Holds name v (.equate length) ∧
    (t.unknowns e = [] ∧ t.evaluate e = .ok v ∨
      ∃ range, (⟨some (.symbol name), [.expr e], none, range⟩ : Entry Work) ∈ h.registered)

/-- The counter was moved from `place` by the value that an expression has in the table `t`, or
behind a space that waits for it. -/
def Reserves (h : History Work) (t : SymbolTable) (place : Address) (e : OrdinaryExpr NameId) :
    Prop :=
  (∃ n, t.unknowns e = [] ∧ t.evaluate e = .ok (.absolute n) ∧ 0 ≤ n ∧
      h.layout.counter = place.shift n) ∨
    ∃ s range, h.layout.counter = place.behind s ∧ lengthEntry s e range ∈ h.registered

/-- What moved the counter is kept as long as the counter is. -/
theorem Reserves.leads {t : SymbolTable} {place : Address} {e : OrdinaryExpr NameId}
    (hr : h.Reserves t place e) (hl : h.Leads h')
    (hcounter : h'.layout.counter = h.layout.counter) :
    h'.Reserves t place e := by
  rcases hr with ⟨n, hnil, hv, hle, heq⟩ | ⟨s, range, heq, hregistered⟩
  · exact .inl ⟨n, hnil, hv, hle, hcounter.trans heq⟩
  · exact .inr ⟨s, range, hcounter.trans heq, hl.registered hregistered⟩

/-- In the end a symbol has the value of its expression. -/
theorem Complete.equates (hf : f.Complete) (hl : h.Leads f) {t : SymbolTable} {name : NameId}
    {e : OrdinaryExpr NameId} (hequates : h.Equates t name e) (hext : t.Extends f.layout.table) :
    ∃ symbol, f.layout.table.symbol? name = some symbol ∧
      f.layout.table.evaluate e = .ok symbol.value := by
  obtain ⟨v, length, hholds, hvalue⟩ := hequates
  obtain ⟨symbol, hsymbol, -, hbecomes⟩ := hholds.extends hl.table
  have hvalueOf : f.layout.table.valueOf name = symbol.value := by
    simp [SymbolTable.valueOf, hsymbol]
  refine ⟨symbol, hsymbol, ?_⟩
  rw [← hvalueOf]
  rcases hvalue with ⟨hnil, hv⟩ | ⟨range, hregistered⟩
  · have hnil' : f.layout.table.unknownsOfSource (.expr e) = [] :=
      hext.unknownsOfSource_eq_nil hnil
    have hv' : f.layout.table.evaluate e = .ok v := (hext.evaluate_eq hnil).trans hv
    rw [hf.value_of_becomes hnil' hv' (hvalueOf ▸ hbecomes)]
    exact hv'
  · exact hf.evaluate_of_registered (hl.registered hregistered)

/-- In the end the counter has been moved by the value of the expression. -/
theorem Complete.reserves (hf : f.Complete) (hl : h.Leads f) {t : SymbolTable} {place : Address}
    {e : OrdinaryExpr NameId} (hreserves : h.Reserves t place e) (hext : t.Extends f.layout.table) :
    ∃ n, f.layout.table.evaluate e = .ok (.absolute n) ∧ 0 ≤ n ∧
      f.layout.table.normalize h.layout.counter = (f.layout.table.normalize place).shift n := by
  rcases hreserves with ⟨n, hnil, hv, hle, hcounter⟩ | ⟨s, range, hcounter, hregistered⟩
  · refine ⟨n, (hext.evaluate_eq hnil).trans hv, hle, ?_⟩
    rw [hcounter, SymbolTable.normalize_shift]
  · obtain ⟨n, hv, hle, hlength⟩ := hf.length_of_registered (hl.registered hregistered)
    exact ⟨n, hv, hle, by rw [hcounter, SymbolTable.normalize_behind place hlength]⟩

/-- In the end a label is at the place that it was given. -/
theorem Complete.holds (hf : f.Complete) (hl : h.Leads f) {name : NameId} {place : Address}
    {attributes : SymbolAttributes}
    (hholds : h.layout.table.Holds name (.relocatable place) attributes) :
    ∃ symbol, f.layout.table.symbol? name = some symbol ∧ symbol.attributes = attributes ∧
      symbol.value = .relocatable (f.layout.table.normalize place) := by
  obtain ⟨symbol, hsymbol, hattributes, hbecomes⟩ := hholds.extends hl.table
  have hvalueOf : f.layout.table.valueOf name = symbol.value := by
    simp [SymbolTable.valueOf, hsymbol]
  exact ⟨symbol, hsymbol, hattributes,
    hvalueOf.symm.trans (hf.place_of_becomes (hvalueOf ▸ hbecomes))⟩

end History

end Layout

end MacroAssembler
