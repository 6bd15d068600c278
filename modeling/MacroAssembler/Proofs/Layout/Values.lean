import MacroAssembler.Proofs.Layout.Waiting

/-!
# What values are like

A symbol gets its value in two ways: with its definition, or from an entry that waited for it. A
property that values have in both ways is a property of all values in a layout (`Keeps.make`).
-/

namespace MacroAssembler

variable {Work : Type} {V : NameId → SymbolValue → Prop}

/-- An entry gives its symbol a value with a property, as long as all values have it. -/
def Entry.Respects (V : NameId → SymbolValue → Prop) (e : Entry Work) : Prop :=
  ∀ (t : SymbolTable) (n : NameId) (source : Source) (rest : List Source) (v : SymbolValue),
    (∀ n, V n (t.valueOf n)) → e.target = some (.symbol n) → e.sources = source :: rest →
      t.unknownsOfSource source = [] → t.evaluateSource source = .ok v → V n v

/-- An entry that waits for no symbol's value gives none. -/
theorem Entry.respects_of_no_symbol {e : Entry Work} (h : ∀ n, e.target ≠ some (.symbol n)) :
    e.Respects V :=
  fun _ n _ _ _ _ ht => absurd ht (h n)

namespace Layout

/-- A move defines symbols with values of that property, now and later. -/
def Move.Respects (V : NameId → SymbolValue → Prop) : Move Work → Prop
  | define symbol => V symbol.name symbol.value
  | declare symbol source range => V symbol.name symbol.value ∧
      Entry.Respects V (⟨some (.symbol symbol.name), [source], none, range⟩ : Entry Work)
  | _ => True

/-- All values in a layout have a property, and all values that will come from its entries. -/
structure Keeps (l : Layout Work) (V : NameId → SymbolValue → Prop) : Prop where
  values : ∀ n, V n (l.table.valueOf n)
  entries : ∀ e ∈ l.entries, e.Respects V

namespace Keeps

variable {l : Layout Work} (hV : ∀ n, V n .undefined)
include hV

/-- A step gives a symbol the value of an entry, or leaves all values as they are. -/
theorem step {l' : Layout Work} (hstep : Step l l') (h : l.Keeps V) : l'.Keeps V := by
  refine ⟨fun n => ?_, fun e he => h.entries e (hstep.mem_entries he)⟩
  cases hstep with
  | pad s =>
      rcases SymbolTable.settleSpace_eq l.table s with heq | ⟨_, _, -, -, -, heq⟩ <;>
        simpa [heq] using h.values n
  | complete before e after hentries hsettled =>
      obtain ⟨errors, -, hcompletes⟩ := l.complete_completes e
      have hrespects := h.entries e (by simp [hentries])
      have hset {n' : NameId} {v : SymbolValue} (hv : V n' v) :
          V n ((l.table.setValue n' v).valueOf n) := by
        by_cases hn : n = n'
        · subst hn
          cases hdefined : l.table.defines n with
          | true => rwa [SymbolTable.valueOf_setValue_self hdefined]
          | false =>
              rw [SymbolTable.valueOf_of_not_defines (by simpa using hdefined)]
              exact hV n
        · rw [SymbolTable.valueOf_setValue_of_ne hn]
          exact h.values n
      show V n ((l.complete e).table.valueOf n)
      generalize (l.complete e).table = t' at hcompletes
      cases hcompletes with
      | release | fault => exact h.values n
      | clear => exact hset (hV _)
      | value ht hs hv =>
          refine hset (hrespects l.table _ _ _ _ h.values ht hs ?_ hv)
          simp only [Entry.isSettled, Entry.unknowns, hs, List.flatMap_cons, List.isEmpty_iff,
            List.append_eq_nil_iff] at hsettled
          exact hsettled.1
      | length | noLength => simpa using h.values n

theorem settle (h : l.Keeps V) : l.settle.Keeps V :=
  settle_induction (fun _ _ => step hV) h

/-- Letting an entry wait that respects the property. -/
theorem await {e : Entry Work} (h : l.Keeps V) (he : e.Respects V) : (l.await e).Keeps V := by
  by_cases hrejects : l.Rejects e
  · obtain ⟨event, hawait⟩ := await_of_rejects hrejects
    rw [hawait]
    exact ⟨h.values, h.entries⟩
  · rw [await_of_accepts hrejects]
    refine settle hV ⟨h.values, fun e' he' => ?_⟩
    rcases List.mem_append.1 he' with he' | he'
    · exact h.entries e' he'
    · rwa [List.mem_singleton.1 he']

/-- Defining a symbol whose value has the property. -/
theorem define {symbol : OrdinarySymbol} (h : l.Keeps V) (hvalue : V symbol.name symbol.value) :
    (l.perform (.define symbol)).Keeps V := by
  cases hdefined : l.table.defines symbol.name with
  | true => rwa [perform_define_of_defines hdefined]
  | false =>
      rw [perform_define hdefined]
      refine settle hV ⟨fun n => ?_, h.entries⟩
      by_cases hn : n = symbol.name
      · subst hn
        exact (SymbolTable.valueOf_addSymbol_self hdefined).symm ▸ hvalue
      · exact (SymbolTable.valueOf_addSymbol_of_ne hn).symm ▸ h.values n

omit hV in
/-- Aligning the counter leaves all values as they are. -/
theorem align (h : l.Keeps V) (alignment : Alignment) : (l.align alignment).2.Keeps V := by
  refine ⟨fun n => ?_, (l.align_frame alignment).1 ▸ h.entries⟩
  have haligns := align_aligns l alignment
  generalize (l.align alignment).1 = place at haligns
  generalize (l.align alignment).2 = aligned at haligns
  cases haligns <;> exact h.values n

/-- A move keeps a property of all values that it respects. -/
theorem make (h : l.Keeps V) {m : Move Work} (hm : m.Respects V) : (l.make m).Keeps V := by
  cases m with
  | define symbol => exact h.define hV hm
  | declare symbol source range =>
      have hdefine := h.define hV hm.1
      exact await hV (l := l.run [.define symbol, .takeEvents])
        ⟨hdefine.values, hdefine.entries⟩ hm.2
  | postpone sources work range =>
      rw [make_of_registration rfl]
      exact h.await hV (Entry.respects_of_no_symbol (by simp))
  | align alignment => exact h.align alignment
  | reserve size alignment =>
      have halign := h.align alignment
      exact ⟨halign.values, halign.entries⟩
  | reserveLater length alignment range =>
      have halign := h.align alignment
      rw [make_of_registration rfl]
      refine await hV ⟨halign.values, halign.entries⟩ (Entry.respects_of_no_symbol ?_)
      simp [lengthEntry]
  | takeReady | takeDiagnostics | takeEvents => exact ⟨h.values, h.entries⟩
  | finish => exact ⟨(h.settle hV).values, by simp [Layout.make, Move.requests, perform, finish]⟩

/-- A run keeps a property of all values that its moves respect. -/
theorem makeAll (h : l.Keeps V) {ms : List (Move Work)} (hms : ∀ m ∈ ms, m.Respects V) :
    (l.makeAll ms).Keeps V := by
  induction ms generalizing l with
  | nil => exact h
  | cons m ms ih => exact ih (h.make hV (hms m (by simp))) fun m' hm' => hms m' (by simp [hm'])

end Keeps

/-! ## What is defined and registered -/

/-- The symbol that a move defines. -/
def Move.symbol? : Move Work → Option OrdinarySymbol
  | define symbol | declare symbol _ _ => some symbol
  | _ => none

variable {l : Layout Work} {n : NameId}

/-- A definition defines its own symbol only. -/
theorem defines_perform_define {symbol : OrdinarySymbol}
    (h : (l.perform (.define symbol)).table.defines n = true) :
    l.table.defines n = true ∨ symbol.name = n := by
  cases hdefined : l.table.defines symbol.name with
  | true =>
      rw [perform_define_of_defines hdefined] at h
      exact .inl h
  | false =>
      rw [perform_define hdefined, defines_settle] at h
      simpa [addSymbol, SymbolTable.defines_addSymbol] using h

/-- A move defines its own symbol only. -/
theorem defines_make {m : Move Work} (h : (l.make m).table.defines n = true) :
    l.table.defines n = true ∨ ∃ symbol, m.symbol? = some symbol ∧ symbol.name = n := by
  cases m with
  | define symbol => exact (defines_perform_define h).imp_right fun hn => ⟨symbol, rfl, hn⟩
  | declare symbol source range =>
      rw [make_of_registration rfl, defines_await] at h
      exact (defines_perform_define h).imp_right fun hn => ⟨symbol, rfl, hn⟩
  | postpone sources work range =>
      rw [make_of_registration rfl, defines_await] at h
      exact .inl h
  | align alignment => exact .inl ((congrFun (l.defines_align alignment) n).symm.trans h)
  | reserve size alignment => exact .inl ((congrFun (l.defines_align alignment) n).symm.trans h)
  | reserveLater length alignment range =>
      rw [make_of_registration rfl, defines_await] at h
      exact .inl ((congrFun (l.defines_align alignment) n).symm.trans h)
  | takeReady | takeDiagnostics | takeEvents => exact .inl h
  | finish => exact .inl ((l.defines_settle n).symm.trans h)

/-- A run defines the symbols of its moves only. -/
theorem defines_makeAll {ms : List (Move Work)} (h : (l.makeAll ms).table.defines n = true) :
    l.table.defines n = true ∨ ∃ m ∈ ms, ∃ symbol, m.symbol? = some symbol ∧ symbol.name = n := by
  induction ms generalizing l with
  | nil => exact .inl h
  | cons m ms ih =>
      rcases ih h with hdefined | ⟨m', hm', hsymbol⟩
      · exact (defines_make hdefined).imp_right fun hsymbol => ⟨m, by simp, hsymbol⟩
      · exact .inr ⟨m', by simp [hm'], hsymbol⟩

/-- What is registered in a run was registered before, or by one of its moves. -/
theorem History.mem_registered_makeAll {h : History Work} {ms : List (Move Work)} {r : Entry Work}
    (hr : r ∈ (h.makeAll ms).registered) :
    r ∈ h.registered ∨ ∃ m ∈ ms, ∃ l opened, m.registration? l = some (opened, r) := by
  induction ms generalizing h with
  | nil => exact .inl hr
  | cons m ms ih =>
      rcases ih hr with hr | ⟨m', hm', hregistration⟩
      · refine (List.mem_append.1 hr).imp_right fun hr => ⟨m, by simp, h.layout, ?_⟩
        obtain ⟨found, hfound, rfl⟩ := Option.map_eq_some_iff.1 (Option.mem_toList.1 hr)
        exact ⟨found.1, hfound⟩
      · exact .inr ⟨m', by simp [hm'], hregistration⟩

end Layout

end MacroAssembler
