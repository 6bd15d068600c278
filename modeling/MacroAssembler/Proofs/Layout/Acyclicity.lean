import MacroAssembler.Proofs.Layout.Circularity
import MacroAssembler.Proofs.Layout.Fixpoint

/-!
# Circles are kept out

An entry is turned away exactly if what its sources wait for leads back to its target, and then
nothing but an error is added. No other request can close a circle. Settling, defining a symbol and
giving up entries only take edges out of the wait-for relation, and a space that is opened is one
that nothing waits for yet. So nothing ever waits for itself, directly or not
(`circles_turned_away`), as long as every registration has a source and no symbol is defined at a
place that lacks a length: without a source a symbol would lose the value it had, and at such a
place it would pass on what waits for it to the spaces in front of it.
-/

namespace MacroAssembler

open Relation (TransGen ReflTransGen)

variable {Work : Type}

namespace Layout

variable {l l' : Layout Work} {e : Entry Work} {u v : Unknown}

/-- What the sources of an entry wait for leads back to its target. -/
def Circles (l : Layout Work) (e : Entry Work) : Prop :=
  ∃ u, e.target = some u ∧ ∃ v ∈ e.unknowns l.table, ReflTransGen l.WaitsOn v u

/-- An entry is turned away if it circles, and only then. -/
theorem Targeted.rejects_iff (h : l.Targeted) (htarget : ∀ u, e.target = some u → l.Present u) :
    l.Rejects e ↔ l.Circles e := by
  constructor
  · rintro ⟨u, hu, hmem⟩
    exact ⟨u, hu, (h.mem_reachable_iff (htarget u hu)).1 hmem⟩
  · rintro ⟨u, hu, hpath⟩
    exact ⟨u, hu, (h.mem_reachable_iff (htarget u hu)).2 hpath⟩

/-- An entry for a symbol that is turned away adds an error that names the symbol. -/
theorem await_symbol_of_rejects {n : NameId} (htarget : e.target = some (.symbol n))
    (h : l.Rejects e) :
    l.await e = { l with
      errors := l.errors ++ [(e.range, .circularDependency (some n))]
      events := l.events ++ [.rejected (.symbol n) e.range] } := by
  obtain ⟨u, hu, hmem⟩ := h
  obtain rfl : .symbol n = u := Option.some.inj (htarget.symm.trans hu)
  unfold await
  simp only [htarget, if_pos hmem]
  rfl

/-- An entry that is not turned away is not blamed. -/
theorem errors_await_of_accepts {n : Option NameId} {range : Range} (h : ¬ l.Rejects e) :
    (l.await e).errors ≠ l.errors ++ [(range, .circularDependency n)] := by
  intro herrors
  have hcircular := l.circular_await e
  rw [herrors, if_neg h, circular_append] at hcircular
  simp [circular, LayoutError.isCircular] at hcircular

/-! ## The requests -/

/-- A request registers nothing without a source, and defines no symbol at a place that lacks a
length. -/
def Request.Definite (l : Layout Work) : Request Work → Prop
  | define symbol => l.table.defines symbol.name = false →
      ∀ a, symbol.value = .relocatable a → (l.table.normalize a).spaces = []
  | await _ sources _ _ => sources ≠ []
  | _ => True

/-- Every request of a run does so at its time. -/
def Definite (l : Layout Work) : List (Request Work) → Prop
  | [] => True
  | r :: rs => r.Definite l ∧ Definite (l.perform r) rs

/-- A layout without circles, in which every entry has a source and every symbol with a value is
known, so that it can only learn. -/
structure Orderly (l : Layout Work) : Prop where
  placed : l.Placed
  targeted : l.Targeted
  sourced : ∀ e ∈ l.entries, e.sources ≠ []
  known : ∀ n, l.table.valueOf n ≠ .undefined → l.table.Known (.symbol n)
  acyclic : ∀ u, ¬ TransGen l.WaitsOn u u

/-- With fewer entries and less that is unknown, less waits. -/
theorem WaitsOn.of_subset (h : l'.WaitsOn u v) (hentries : l'.entries ⊆ l.entries)
    (hkind : l'.table.kind? = l.table.kind?)
    (hunknowns : ∀ u, l'.table.unknownsOf u ⊆ l.table.unknownsOf u) : l.WaitsOn u v := by
  cases h with
  | entry he htarget hv =>
      refine .entry (hentries he) htarget ?_
      obtain ⟨source, hsource, hv⟩ := List.mem_flatMap.1 hv
      obtain ⟨w, hw, hv⟩ := SymbolTable.mem_unknownsOfSource.1 hv
      exact List.mem_flatMap.2
        ⟨source, hsource, SymbolTable.mem_unknownsOfSource.2 ⟨w, hw, hunknowns w hv⟩⟩
  | @anchor s anchor alignment s' hs hs' =>
      obtain ⟨hmem, hnone⟩ := SymbolTable.mem_spaces_normalize.1 hs'
      have hself : .space s' ∈ l'.table.unknownsOf (.space s') := by
        simp [SymbolTable.unknownsOf, hnone]
      exact .anchor (hkind ▸ hs) (SymbolTable.mem_spaces_normalize.2
        ⟨hmem, SymbolTable.unset_of_mem_unknownsOf (hunknowns _ hself)⟩)

namespace Orderly

/-- A layout stays orderly when entries are taken away, spaces get lengths, and symbols get values
that lack nothing. -/
theorem learn (h : l.Orderly) (hplaced : l'.Placed) (hentries : l'.entries ⊆ l.entries)
    (hkind : l'.table.kind? = l.table.kind?)
    (hlength : ∀ s, l'.table.length? s = none → l.table.length? s = none)
    (hvalue : ∀ n, l'.table.valueOf n = l.table.valueOf n ∨ l'.table.Known (.symbol n)) :
    l'.Orderly := by
  have hunknowns := SymbolTable.unknownsOf_subset hlength hvalue
  refine ⟨hplaced, ?_, fun e he => h.sourced e (hentries he), fun n hn => ?_, fun u hcycle => ?_⟩
  · intro e he u htarget
    exact (present_congr hkind).2 (h.targeted e (hentries he) u htarget)
  · rcases hvalue n with hsame | hknown
    · exact List.subset_nil.1 (h.known n (hsame ▸ hn) ▸ hunknowns (.symbol n))
    · exact hknown
  · exact h.acyclic u
      (TransGen.mono (fun _ _ hw => hw.of_subset hentries hkind hunknowns) _ _ hcycle)

/-- A layout stays orderly when neither its table nor its entries change. -/
theorem congr (h : l.Orderly) (htable : l'.table = l.table) (hentries : l'.entries = l.entries)
    (hcounter : l.table.Bounded l'.counter) : l'.Orderly := by
  obtain ⟨_, _, _, _, _, _⟩ := l'
  cases htable
  cases hentries
  exact h.learn ⟨hcounter, h.placed.symbols, h.placed.anchors, h.placed.sources⟩
    (List.Subset.refl _) rfl (fun _ hs => hs) fun _ => .inl rfl

/-- Completing an entry gives values that lack nothing. -/
theorem valueOf_complete (h : l.Orderly) (he : e ∈ l.entries)
    (hsettled : e.isSettled l.table = true) (n : NameId) :
    (l.complete e).table.valueOf n = l.table.valueOf n ∨
      (l.complete e).table.Known (.symbol n) := by
  obtain ⟨errors, -, hcompletes⟩ := l.complete_completes e
  generalize (l.complete e).table = t' at hcompletes
  cases hcompletes with
  | release | fault | length | noLength => exact .inl rfl
  | clear _ hsources => exact absurd hsources (h.sourced e he)
  | @value m source rest v _ hsources hv =>
      by_cases hn : n = m
      · subst hn
        cases hdefined : l.table.defines n with
        | false =>
            refine .inl ?_
            rw [SymbolTable.valueOf_of_not_defines hdefined,
              SymbolTable.valueOf_of_not_defines (by simpa using hdefined)]
        | true =>
            have hnil : l.table.unknownsOfSource source = [] := by
              simp only [Entry.isSettled, Entry.unknowns, hsources, List.flatMap_cons,
                List.isEmpty_iff, List.append_eq_nil_iff] at hsettled
              exact hsettled.1
            refine .inr (SymbolTable.known_symbol_iff.2 ?_)
            rw [SymbolTable.valueOf_setValue_self hdefined]
            refine ⟨?_, fun a ha => ?_⟩
            · rintro rfl
              exact SymbolTable.evaluateSource_ne_undefined _ hv
            · subst ha
              have hspaces := SymbolTable.spaces_of_evaluateSource hnil hv
              rwa [SymbolTable.normalize_of_spaces_nil hspaces]
      · exact .inl (SymbolTable.valueOf_setValue_of_ne hn v)

/-- A step of settling closes no circle. -/
theorem step (hstep : Step l l') (h : l.Orderly) : l'.Orderly := by
  have hplaced := h.placed.step hstep
  have hentries := hstep.entries_sublist.subset
  have hkind := hstep.kind?
  have hset {s s' : SpaceId} {n : Int32} (hnone : (l.table.setLength s n).length? s' = none) :
      l.table.length? s' = none := by
    rw [SymbolTable.length?_setLength] at hnone
    split at hnone
    · simp at hnone
    · exact hnone
  cases hstep with
  | pad s =>
      rcases SymbolTable.settleSpace_eq l.table s with heq | ⟨_, _, -, -, -, heq⟩
      · exact h.learn hplaced hentries hkind (fun s' hs' => heq ▸ hs')
          fun n => .inl (by rw [heq])
      · exact h.learn hplaced hentries hkind (fun s' hs' => hset (heq ▸ hs'))
          fun n => .inl (by rw [heq]; rfl)
  | complete before e after hbefore hsettled =>
      have he : e ∈ l.entries := by simp [hbefore]
      refine h.learn hplaced hentries hkind (fun s hs => ?_) (h.valueOf_complete he hsettled)
      rcases l.table_complete e with ⟨-, hlength⟩ | ⟨s', n, -, htable⟩
      · exact hlength ▸ hs
      · exact hset (htable ▸ hs)

theorem settle (h : l.Orderly) : l.settle.Orderly := settle_induction (fun _ _ => step) h

/-- A symbol is defined without a value, or with one that lacks nothing. -/
theorem addSymbol (h : l.Orderly) {symbol : OrdinarySymbol}
    (hnew : l.table.defines symbol.name = false)
    (hspaces : ∀ a, symbol.value = .relocatable a → (l.table.normalize a).spaces = []) :
    (l.addSymbol symbol).Orderly := by
  have hself := SymbolTable.valueOf_addSymbol_self hnew
  have hplaced : (l.addSymbol symbol).Placed := by
    refine ⟨h.placed.counter, fun n a hval => ?_, h.placed.anchors, h.placed.sources⟩
    by_cases hn : n = symbol.name
    · -- a space of an address that lacks nothing has a length, and so it exists
      subst hn
      intro s hs
      have hnil := hspaces a (hself.symm.trans hval)
      cases hlength : l.table.length? s with
      | some n => exact SymbolTable.lt_size_of_length? hlength
      | none =>
          have hmem := SymbolTable.mem_spaces_normalize.2 ⟨hs, hlength⟩
          simp [hnil] at hmem
    · exact h.placed.symbols n a ((SymbolTable.valueOf_addSymbol_of_ne hn).symm.trans hval)
  refine h.learn hplaced (List.Subset.refl _) rfl (fun _ hs => hs) fun n => ?_
  by_cases hn : n = symbol.name
  · subst hn
    by_cases hundefined : symbol.value = .undefined
    · exact .inl (by rw [SymbolTable.valueOf_of_not_defines hnew, ← hundefined]; exact hself)
    · refine .inr (SymbolTable.known_symbol_iff.2 ?_)
      exact ⟨fun hvalue => hundefined (hself.symm.trans hvalue),
        fun a ha => hspaces a (hself.symm.trans ha)⟩
  · exact .inl (SymbolTable.valueOf_addSymbol_of_ne hn)

/-- Nothing waits for a space that is opened. -/
theorem addSpace (h : l.Orderly) {k : SpaceKind} {counter : Address}
    (hcounter : (l.table.addSpace k).2.Bounded counter)
    (hanchor : ∀ anchor alignment, k = .alignment anchor alignment → l.table.Bounded anchor) :
    Orderly { l with table := (l.table.addSpace k).2, counter } := by
  refine ⟨h.placed.addSpace hcounter hanchor, ?_, h.sourced, fun n hn => ?_, fun u hcycle => ?_⟩
  · intro e he u htarget
    exact (h.targeted e he u htarget).extends (SymbolTable.extends_addSpace k)
  · exact (SymbolTable.known_symbol_congr (SymbolTable.length?_addSpace k) rfl).2 (h.known n hn)
  · refine h.acyclic u (transGen_of_added (d := .space (l.table.addSpace k).1)
      (fun v => ∃ s, v = .space s ∧ s.index < l.table.spaces.size)
      (fun a b hab => ?_) ?_ hcycle)
    · rcases waitsOn_addSpace.1 hab with hold | ⟨anchor, alignment, s, hk, ha, hs, hb⟩
      · exact .inl hold
      · have hmem := (SymbolTable.mem_spaces_normalize.1 hs).1
        exact .inr ⟨ha, s, hb, hanchor anchor alignment hk s hmem⟩
    · rintro _ ⟨s, rfl, hs⟩ hpath
      -- the new space has the next number, and all that is waited for has smaller ones
      have hlt : (l.table.addSpace k).1.index < l.table.spaces.size := by
        rcases hpath.cases_tail with heq | ⟨w, -, hlast⟩
        · cases heq
          exact hs
        · exact h.placed.lt_size_of_waitsOn hlast
      exact Nat.lt_irrefl _ hlt

theorem align (h : l.Orderly) (alignment : Alignment) : (l.align alignment).2.Orderly := by
  have haligns := align_aligns l alignment
  have hcounter := (h.placed.align alignment).counter
  have hplace : l.table.Bounded l.place := h.placed.counter.normalize
  generalize (l.align alignment).1 = place at haligns
  generalize (l.align alignment).2 = aligned at haligns hcounter
  cases haligns with
  | stay => exact h
  | known => exact h.congr rfl rfl hcounter
  | padded =>
      refine h.addSpace hcounter fun anchor _ hk => ?_
      cases hk
      exact hplace

/-- An entry that does not circle closes no circle. -/
theorem enqueue (h : l.Orderly) (hsources : e.sources ≠ [])
    (hbounded : ∀ a, .address a ∈ e.sources → l.table.Bounded a)
    (htarget : ∀ u, e.target = some u → l.Present u) (haccepts : ¬ l.Circles e) :
    (l.enqueue e).Orderly := by
  have hmem {e' : Entry Work} (he' : e' ∈ (l.enqueue e).entries) : e' ∈ l.entries ∨ e' = e :=
    (List.mem_append.1 he').imp_right List.mem_singleton.1
  refine ⟨⟨h.placed.counter, h.placed.symbols, h.placed.anchors, fun e' he' => ?_⟩,
    fun e' he' => ?_, fun e' he' => ?_, h.known, fun u hcycle => ?_⟩
  · rcases hmem he' with he' | rfl
    · exact h.placed.sources e' he'
    · exact hbounded
  · rcases hmem he' with he' | rfl
    · exact h.targeted e' he'
    · exact htarget
  · rcases hmem he' with he' | rfl
    · exact h.sourced e' he'
    · exact hsources
  · cases hd : e.target with
    | none =>
        -- an entry without a target adds no edge
        refine h.acyclic u (TransGen.mono (fun a b hab => ?_) _ _ hcycle)
        cases hab with
        | anchor hkind hs => exact .anchor hkind hs
        | entry he' ht hv =>
            rcases hmem he' with he' | rfl
            · exact .entry he' ht hv
            · simp [hd] at ht
    | some d =>
        refine h.acyclic u (transGen_of_added (d := d) (· ∈ e.unknowns l.table)
          (fun a b hab => ?_) (fun b hb hpath => haccepts ⟨d, hd, b, hb, hpath⟩) hcycle)
        cases hab with
        | anchor hkind hs => exact .inl (.anchor hkind hs)
        | entry he' ht hv =>
            rcases hmem he' with he' | rfl
            · exact .inl (.entry he' ht hv)
            · exact .inr ⟨Option.some.inj (ht.symm.trans hd), hv⟩

theorem await (h : l.Orderly) (hsources : e.sources ≠ [])
    (hbounded : ∀ a, .address a ∈ e.sources → l.table.Bounded a)
    (htarget : ∀ u, e.target = some u → l.Present u) : (l.await e).Orderly := by
  by_cases hrejects : l.Rejects e
  · obtain ⟨event, hawait⟩ := await_of_rejects hrejects
    rw [hawait]
    exact h.congr rfl rfl h.placed.counter
  · rw [await_of_accepts hrejects]
    rw [h.targeted.rejects_iff htarget] at hrejects
    exact (h.enqueue hsources hbounded htarget hrejects).settle

/-- A request with definite sources and places closes no circle. -/
theorem perform (h : l.Orderly) {r : Request Work} (hknows : r.Knows l) (hdefinite : r.Definite l) :
    (l.perform r).Orderly := by
  cases r with
  | define symbol =>
      cases hdefined : l.table.defines symbol.name with
      | true => rwa [perform_define_of_defines hdefined]
      | false =>
          rw [perform_define hdefined]
          exact (h.addSymbol hdefined (hdefinite hdefined)).settle
  | align alignment => exact h.align alignment
  | reserve size alignment =>
      exact (h.align alignment).congr rfl rfl (h.align alignment).placed.counter
  | reserveLater length alignment range =>
      have haligned := h.align alignment
      have hopened : (l.openSpace alignment).2.Orderly :=
        haligned.addSpace (haligned.placed.counter.behind _) (by simp)
      rw [perform_reserveLater]
      refine hopened.await (by simp [lengthEntry]) (by simp [lengthEntry]) fun u hu => ?_
      rw [← present_congr (kind?_await _ _), ← perform_reserveLater]
      exact present_of_registers (r := .reserveLater length alignment range)
        (List.mem_singleton.2 rfl) hu
  | await target sources work range =>
      refine h.await hdefinite hknows fun u hu => ?_
      obtain ⟨n, -, rfl⟩ := Option.map_eq_some_iff.1 hu
      trivial
  | takeReady | takeDiagnostics | takeEvents => exact h.congr rfl rfl h.placed.counter
  | finish =>
      have hsettled := h.settle
      exact hsettled.learn (h.placed.perform (r := .finish) trivial) (List.nil_subset _) rfl
        (fun _ hs => hs) fun _ => .inl rfl

/-- A run with definite sources and places closes no circle. -/
theorem run (h : l.Orderly) {rs : List (Request Work)} (hknows : l.Knows rs)
    (hdefinite : l.Definite rs) : (l.run rs).Orderly := by
  induction rs generalizing l with
  | nil => exact h
  | cons r rs ih => exact ih (h.perform hknows.1 hdefinite.1) hknows.2 hdefinite.2

end Orderly

/-- An empty layout is orderly. -/
theorem orderly_empty : ({} : Layout Work).Orderly where
  placed := settled_empty.2.1
  targeted := by simp [Targeted]
  sourced := by simp
  known := by simp [SymbolTable.valueOf, SymbolTable.symbol?]
  acyclic := by
    intro u hcycle
    obtain ⟨v, hfirst, -⟩ := TransGen.head'_iff.1 hcycle
    cases hfirst with
    | entry he => simp at he
    | anchor hkind => simp [SymbolTable.kind?] at hkind

/-- After any run a registration for a symbol is turned away exactly if what its sources wait for
leads back to the symbol. Then an error that names the symbol is all that is added to the layout,
apart from the note that it was turned away. Otherwise the entry is queued and the layout settled.
Nothing ever waits for itself, directly or not, if every registration has a source and no symbol is
defined at a place that lacks a length. As always the addresses in the requests are places of the
layout, since a space has no number before it exists. -/
theorem circles_turned_away :
    (∀ (rs : List (Request Work)) (d : NameId) (sources : List Source) (work : Option Work)
      (range : Range),
      let l := run {} rs
      let e : Entry Work := ⟨some (.symbol d), sources, work, range⟩
      let next := l.perform (.await (some d) sources work range)
      let blamed := l.errors ++ [(range, .circularDependency (some d))]
      (next.errors = blamed ↔ l.Circles e) ∧
      (l.Circles e → next = { l with
        errors := blamed, events := l.events ++ [.rejected (.symbol d) range] }) ∧
      (¬ l.Circles e → next = (l.enqueue e).settle)) ∧
    ∀ rs : List (Request Work), Knows {} rs → Definite {} rs →
      ∀ u, ¬ TransGen (run {} rs).WaitsOn u u := by
  refine ⟨fun rs d sources work range => ?_, fun rs hknows hdefinite =>
    (orderly_empty.run hknows hdefinite).acyclic⟩
  intro l e next blamed
  have htargeted : l.Targeted := Targeted.run (fun e he => by simp at he) rs
  have hiff : l.Rejects e ↔ l.Circles e := htargeted.rejects_iff fun u hu => by
    cases hu
    trivial
  have hcircles (h : l.Circles e) : next = { l with
      errors := blamed, events := l.events ++ [.rejected (.symbol d) range] } :=
    await_symbol_of_rejects rfl (hiff.2 h)
  refine ⟨⟨fun herrors => ?_, fun h => by rw [hcircles h]⟩, hcircles,
    fun h => await_of_accepts (mt hiff.1 h)⟩
  by_contra h
  exact errors_await_of_accepts (mt hiff.1 h) herrors

/-- A symbol that waits for one that is not defined, storage whose length is that symbol, padding
behind it, and a label behind the padding. -/
def chainedRun : List (Request String) :=
  [.define ⟨⟨0⟩, .undefined, .equate none, {}⟩,
    .await (some ⟨0⟩) [.expr (.symbol ⟨1⟩ {})] none {},
    .reserveLater (.symbol ⟨0⟩ {}) .none {}, .align .fullword,
    .define ⟨⟨2⟩, .undefined, .storage none, {}⟩,
    .await (some ⟨2⟩) [.address ⟨0, [⟨0⟩, ⟨1⟩]⟩] none {}]

/-- The undefined symbol cannot wait for the label, but nothing in the chain waits for itself. -/
theorem chainedRun_circles : Knows {} chainedRun ∧ Definite {} chainedRun ∧
    (run {} chainedRun).Circles ⟨some (.symbol ⟨1⟩), [.expr (.symbol ⟨2⟩ {})], none, {}⟩ ∧
    ∀ u, ¬ TransGen (run {} chainedRun).WaitsOn u u := by
  have hsize : (run {} (chainedRun.take 5)).table.spaces.size = 2 := by cbv
  have hknows : Knows {} chainedRun := by
    refine ⟨by simp [Request.Knows], by simp [Request.Knows], trivial, trivial,
      by simp [Request.Knows], fun a ha s hs => ?_, trivial⟩
    obtain rfl : a = ⟨0, [⟨0⟩, ⟨1⟩]⟩ := by simpa using ha
    have hlt : s.index < 2 := by
      rcases List.mem_pair.1 hs with rfl | rfl <;> decide
    show s.index < (run {} (chainedRun.take 5)).table.spaces.size
    rwa [hsize]
  have hdefinite : Definite {} chainedRun := by
    simp [chainedRun, Definite, Request.Definite]
  obtain ⟨⟨hcircles, -⟩, -⟩ :=
    circles_turned_away.1 chainedRun ⟨1⟩ [.expr (.symbol ⟨2⟩ {})] none {}
  exact ⟨hknows, hdefinite, hcircles (by cbv), circles_turned_away.2 chainedRun hknows hdefinite⟩

end Layout

end MacroAssembler
