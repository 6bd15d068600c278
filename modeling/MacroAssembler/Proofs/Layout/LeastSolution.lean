import MacroAssembler.Proofs.EquationSystem
import MacroAssembler.Proofs.Field.Places
import MacroAssembler.Proofs.Layout.Answers
import MacroAssembler.Proofs.Layout.Values

/-!
# The least solution

A layout whose symbols all come from equations finds the least solution of these equations, in
whichever order it gets them. On the way no symbol has a value that the least solution does not
give to it (`History.Solves.makeAll`), and in the end no symbol lacks a value that the least
solution gives to it (`History.Ended.solution`).
-/

namespace MacroAssembler

open Relation (TransGen)

variable {Work : Type} {equations : EquationSystem} {names names' : NameTable}

/-- Every name of an expression has the number that the other expression has for it. -/
theorem OrdinaryExpr.Numbered.exists_name {e : OrdinaryExpr String} {e' : OrdinaryExpr NameId}
    (h : e.Numbered names e') {n : NameId} (hn : n ∈ e'.names) :
    ∃ name ∈ e.names, names.find? name = some n := by
  induction h with
  | constant => simp [OrdinaryExpr.names] at hn
  | symbol r r' hfind =>
      obtain rfl := List.mem_singleton.1 hn
      exact ⟨_, List.mem_singleton_self _, hfind⟩
  | negate r r' _ ih => exact ih hn
  | binary op r r' _ _ ihl ihr =>
      rcases List.mem_append.1 hn with hn | hn
      · obtain ⟨name, hname, hfind⟩ := ihl hn
        exact ⟨name, List.mem_append_left _ hname, hfind⟩
      · obtain ⟨name, hname, hfind⟩ := ihr hn
        exact ⟨name, List.mem_append_right _ hname, hfind⟩

namespace EquationSystem

/-- The value of a symbol is missing, or it is the one in the least solution. -/
inductive Allows (equations : EquationSystem) (names : NameTable) :
    NameId → SymbolValue → Prop where
  | undefined (n : NameId) : Allows equations names n .undefined
  | absolute {name : String} {e : OrdinaryExpr String} {n : NameId} {i : Int32} :
      (name, e) ∈ equations → names.find? name = some n → equations.Denotes e i →
      Allows equations names n (.absolute i)

/-- The entry waits for the value of an equation. -/
inductive Registers (equations : EquationSystem) (names : NameTable) : Entry Work → Prop where
  | intro {name : String} {e : OrdinaryExpr String} {n : NameId} {e' : OrdinaryExpr NameId}
      {range : Range} : (name, e) ∈ equations → names.find? name = some n → e.Numbered names e' →
      Registers equations names ⟨some (.symbol n), [.expr e'], none, range⟩

/-- Names keep their numbers. -/
theorem Allows.grows {n : NameId} {v : SymbolValue} (h : equations.Allows names n v)
    (hgrows : names.Grows names') : equations.Allows names' n v := by
  cases h with
  | undefined => exact .undefined n
  | absolute hmem hfind hi => exact .absolute hmem (hgrows.find? hfind) hi

/-- Names keep their numbers. -/
theorem Registers.grows {e : Entry Work} (h : equations.Registers names e)
    (hgrows : names.Grows names') : equations.Registers names' e := by
  cases h with
  | intro hmem hfind hnumbered =>
      exact .intro hmem (hgrows.find? hfind) (hnumbered.grows hgrows)

/-- Where all values are those of the least solution, so is that of an expression. -/
theorem Allows.evaluate {t : SymbolTable} (hvalues : ∀ n, equations.Allows names n (t.valueOf n))
    {e : OrdinaryExpr String} {e' : OrdinaryExpr NameId} (hnumbered : e.Numbered names e')
    (hnil : t.unknowns e' = []) :
    ∃ i, t.evaluate e' = .ok (.absolute i) ∧ equations.Denotes e i := by
  induction hnumbered with
  | constant i r => exact ⟨i, rfl, .constant i r⟩
  | @symbol name id r r' hfind =>
      have hallows := hvalues id
      simp only [SymbolTable.unknowns, SymbolTable.unknownsOfSymbol] at hnil
      simp only [SymbolTable.evaluate]
      generalize t.valueOf id = v at hallows hnil
      cases hallows with
      | undefined => simp at hnil
      | @absolute name' _ _ i hmem hfind' hi =>
          obtain rfl : name' = name := NameTable.eq_of_find? hfind' hfind
          exact ⟨i, rfl, .symbol r hmem hi⟩
  | negate r r' _ ih =>
      obtain ⟨i, hi, hdenotes⟩ := ih hnil
      exact ⟨-i, by simp [SymbolTable.evaluate, hi]; rfl, .negate r hdenotes⟩
  | binary op r r' _ _ ihl ihr =>
      obtain ⟨hl, hr⟩ := List.append_eq_nil_iff.1 hnil
      obtain ⟨i, hi, hdenotes⟩ := ihl hl
      obtain ⟨j, hj, hdenotes'⟩ := ihr hr
      refine ⟨op.apply i j, ?_, .binary op r hdenotes hdenotes'⟩
      simp [SymbolTable.evaluate, hi, hj]
      rfl

/-- The value of an equation is the one in the least solution. -/
theorem Registers.respects {e : Entry Work} (h : equations.Registers names e) :
    e.Respects (equations.Allows names) := by
  cases h with
  | intro hmem hfind hnumbered =>
      intro t n source rest v hvalues htarget hsources hnil hv
      cases htarget
      cases hsources
      obtain ⟨i, hi, hdenotes⟩ := Allows.evaluate hvalues hnumbered hnil
      obtain rfl : SymbolValue.absolute i = v := Except.ok.inj (hi.symm.trans hv)
      exact .absolute hmem hfind hdenotes

end EquationSystem

namespace Layout

/-! ## On the way -/

/-- A move gives a symbol the value of its equation, or registers the equation. -/
def Move.States (equations : EquationSystem) (names : NameTable) : Move Work → Prop
  | define symbol => equations.Allows names symbol.name symbol.value
  | declare symbol source range => symbol.value = .undefined ∧ equations.Registers names
      (⟨some (.symbol symbol.name), [source], none, range⟩ : Entry Work)
  | postpone _ _ _ | reserveLater _ _ _ => False
  | _ => True

/-- What a move states respects the least solution. -/
theorem Move.States.respects {m : Move Work} (h : m.States equations names) :
    m.Respects (equations.Allows names) := by
  cases m with
  | define => exact h
  | declare symbol source range =>
      refine ⟨?_, h.2.respects⟩
      rw [h.1]
      exact .undefined _
  | _ => trivial

/-- What a move registers is an equation. -/
theorem Move.States.registers {m : Move Work} (h : m.States equations names)
    {l opened : Layout Work} {r : Entry Work}
    (hregistration : m.registration? l = some (opened, r)) :
    equations.Registers names r := by
  cases m <;> simp only [registration?, Option.some.injEq, Prod.mk.injEq, reduceCtorEq]
    at hregistration
  case declare =>
    obtain ⟨-, rfl⟩ := hregistration
    exact h.2
  all_goals exact h.elim

/-- A history has got the equations `stated`. All symbols come from them, and none has a value that
the least solution of `equations` does not give to it. -/
structure History.Solves (equations : EquationSystem) (names : NameTable) (stated : EquationSystem)
    (h : History Work) : Prop where
  values : ∀ n, equations.Allows names n (h.layout.table.valueOf n)
  registered : ∀ r ∈ h.registered, equations.Registers names r
  defined : ∀ n, h.layout.table.defines n = true →
    ∃ name e, (name, e) ∈ stated ∧ names.find? name = some n
  equated : ∀ name e, (name, e) ∈ stated → ∃ n e', names.find? name = some n ∧
    e.Numbered names e' ∧ h.Equates h.layout.table n e'

/-- An equation stays stated. -/
theorem History.Equates.leads {h f : History Work} {n : NameId} {e : OrdinaryExpr NameId}
    {t : SymbolTable} (hequates : h.Equates t n e) (hl : h.Leads f)
    (hext : t.Extends f.layout.table) : f.Equates f.layout.table n e := by
  obtain ⟨v, length, hholds, hvalue⟩ := hequates
  refine ⟨v, length, hholds.extends hl.table, ?_⟩
  rcases hvalue with ⟨hnil, hv⟩ | ⟨range, hregistered⟩
  · have hnil' : f.layout.table.unknownsOfSource (.expr e) = [] :=
      hext.unknownsOfSource_eq_nil hnil
    exact .inl ⟨hnil', (hext.evaluate_eq hnil).trans hv⟩
  · exact .inr ⟨range, hl.registered hregistered⟩

namespace History.Solves

variable {stated : EquationSystem} {h f : History Work}

/-- Names keep their numbers. -/
theorem grows (hs : h.Solves equations names stated) (hgrows : names.Grows names') :
    h.Solves equations names' stated where
  values n := (hs.values n).grows hgrows
  registered r hr := (hs.registered r hr).grows hgrows
  defined n hn := by
    obtain ⟨name, e, hmem, hfind⟩ := hs.defined n hn
    exact ⟨name, e, hmem, hgrows.find? hfind⟩
  equated name e hmem := by
    obtain ⟨n, e', hfind, hnumbered, hequates⟩ := hs.equated name e hmem
    exact ⟨n, e', hgrows.find? hfind, hnumbered.grows hgrows, hequates⟩

/-- The layout of such a history respects the least solution. -/
theorem keeps (hs : h.Solves equations names stated) (ht : h.Tracked) :
    h.layout.Keeps (equations.Allows names) :=
  ⟨hs.values, fun e he => (hs.registered e (ht.queued e (List.mem_append_left _ he))).respects⟩

/-- Moves that only state equations give no symbol another value than the least solution. -/
theorem makeAll (hs : h.Solves equations names stated) (ht : h.Tracked) {ms : List (Move Work)}
    (hlegal : h.layout.Legal ms) (hms : ∀ m ∈ ms, m.States equations names)
    {more : EquationSystem} (hdefined : ∀ m ∈ ms, ∀ symbol, m.symbol? = some symbol →
      ∃ name e, (name, e) ∈ more ∧ names.find? name = some symbol.name)
    (hequated : ∀ name e, (name, e) ∈ more → ∃ n e', names.find? name = some n ∧
      e.Numbered names e' ∧ (h.makeAll ms).Equates h.layout.table n e') :
    (h.makeAll ms).Solves equations names (stated ++ more) := by
  have hext : h.layout.table.Extends (h.makeAll ms).layout.table := by
    rw [layout_makeAll]
    exact ht.extends_makeAll hlegal
  refine ⟨fun n => ?_, fun r hr => ?_, fun n hn => ?_, fun name e hmem => ?_⟩
  · rw [layout_makeAll]
    exact ((hs.keeps ht).makeAll .undefined fun m hm => (hms m hm).respects).values n
  · rcases mem_registered_makeAll hr with hr | ⟨m, hm, l, opened, hregistration⟩
    · exact hs.registered r hr
    · exact (hms m hm).registers hregistration
  · rw [layout_makeAll] at hn
    rcases defines_makeAll hn with hn | ⟨m, hm, symbol, hsymbol, rfl⟩
    · obtain ⟨name, e, hmem, hfind⟩ := hs.defined n hn
      exact ⟨name, e, List.mem_append_left _ hmem, hfind⟩
    · obtain ⟨name, e, hmem, hfind⟩ := hdefined m hm symbol hsymbol
      exact ⟨name, e, List.mem_append_right _ hmem, hfind⟩
  · rcases List.mem_append.1 hmem with hmem | hmem
    · obtain ⟨n, e', hfind, hnumbered, hequates⟩ := hs.equated name e hmem
      exact ⟨n, e', hfind, hnumbered, hequates.leads ⟨h.registered_subset ms, hext⟩ hext⟩
    · obtain ⟨n, e', hfind, hnumbered, hequates⟩ := hequated name e hmem
      exact ⟨n, e', hfind, hnumbered, hequates.leads ⟨List.Subset.refl _, .refl _⟩ hext⟩

/-! ## In the end -/

/-- A symbol only waits for symbols that its equation needs. -/
theorem needs_of_waits (hs : f.Solves equations names stated) {n : NameId} {u : Unknown}
    (hwaits : Waits f.registered f.layout.table (.symbol n) u) :
    ∃ n', u = .symbol n' ∧ equations.Needs (names.nameOf n) (names.nameOf n') := by
  cases hwaits with
  | @source r _ _ hr htarget hmention =>
      cases hs.registered r hr with
      | @intro name e m e' range hmem hfind hnumbered =>
          obtain rfl : m = n := by simpa using htarget
          obtain ⟨n', hn', rfl⟩ : ∃ n' ∈ e'.names, .symbol n' = u := by
            simpa [Entry.mentions, Source.mentions] using hmention
          obtain ⟨name', hname', hfind'⟩ := hnumbered.exists_name hn'
          refine ⟨n', rfl, ?_⟩
          rw [NameTable.nameOf_of_find? hfind, NameTable.nameOf_of_find? hfind']
          exact ⟨e, hmem, hname'⟩

/-- A symbol that waits for itself needs itself. -/
theorem needs_of_circle (hs : f.Solves equations names stated) {n : NameId}
    (hcircle : TransGen (Waits f.registered f.layout.table) (.symbol n) (.symbol n)) :
    TransGen equations.Needs (names.nameOf n) (names.nameOf n) := by
  have hpath (u : Unknown) (h : TransGen (Waits f.registered f.layout.table) (.symbol n) u) :
      ∃ n', u = .symbol n' ∧ TransGen equations.Needs (names.nameOf n) (names.nameOf n') := by
    induction h with
    | single hwaits =>
        obtain ⟨n', rfl, hneeds⟩ := hs.needs_of_waits hwaits
        exact ⟨n', rfl, .single hneeds⟩
    | tail _ hwaits ih =>
        obtain ⟨n', rfl, hneeds⟩ := ih
        obtain ⟨n'', rfl, hneeds'⟩ := hs.needs_of_waits hwaits
        exact ⟨n'', rfl, hneeds.tail hneeds'⟩
  obtain ⟨n', hn', hneeds⟩ := hpath _ hcircle
  cases hn'
  exact hneeds

/-- In the end a symbol has a value if its expression has one and it does not wait for itself. -/
theorem exists_value (hs : f.Solves equations names stated) (hended : f.Ended) {n : NameId}
    {e : OrdinaryExpr String} {e' : OrdinaryExpr NameId} (hnumbered : e.Numbered names e')
    (hequates : f.Equates f.layout.table n e') (hnil : f.layout.table.unknowns e' = [])
    (hcircle : ¬ TransGen (Waits f.registered f.layout.table) (.symbol n) (.symbol n)) :
    ∃ i, f.layout.table.valueOf n = .absolute i := by
  obtain ⟨i, hi, -⟩ := EquationSystem.Allows.evaluate hs.values hnumbered hnil
  have hbecomes (v : SymbolValue) (hv : f.layout.table.evaluate e' = .ok v)
      (hbecomes : v.Becomes f.layout.table (f.layout.table.valueOf n)) :
      ∃ i, f.layout.table.valueOf n = .absolute i := by
    obtain rfl : SymbolValue.absolute i = v := Except.ok.inj (hi.symm.trans hv)
    generalize f.layout.table.valueOf n = w at hbecomes
    cases hbecomes
    exact ⟨i, rfl⟩
  obtain ⟨v, length, ⟨symbol, hsymbol, -, hheld⟩, ⟨-, hv⟩ | ⟨range, hregistered⟩⟩ := hequates
  · have hvalueOf : f.layout.table.valueOf n = symbol.value := by
      simp [SymbolTable.valueOf, hsymbol]
    exact hbecomes v hv (hvalueOf ▸ hheld)
  · rcases hended.tracked.standing _ hregistered _ rfl with
      hqueued | hanswered | ⟨hfailed | hcycle, -⟩
    · -- what waits for nothing is not given up
      rw [hended.entries, List.nil_append] at hqueued
      have hwaiting := hended.waiting _ hqueued
      simp [Entry.isSettled, Entry.unknowns, SymbolTable.unknownsOfSource, hnil] at hwaiting
    · cases hanswered with
      | symbol _ hv hvalue => exact hbecomes _ hv hvalue
    · cases hfailed with
      | symbol _ herror => cases hi.symm.trans herror
    · exact absurd hcycle hcircle

section Distinct

variable (hdistinct : (equations.map Prod.fst).Nodup)
include hdistinct

/-- A symbol whose expression has a value in the least solution does not wait for itself. -/
theorem not_circle_of_denotes (hs : f.Solves equations names stated) {name : String}
    {e : OrdinaryExpr String} {n : NameId} {i : Int32} (hmem : (name, e) ∈ equations)
    (hfind : names.find? name = some n) (hi : equations.Denotes e i) :
    ¬ TransGen (Waits f.registered f.layout.table) (.symbol n) (.symbol n) := by
  intro hcircle
  have hcycle := hs.needs_of_circle hcircle
  rw [NameTable.nameOf_of_find? hfind] at hcycle
  exact (EquationSystem.exists_denotes_iff hdistinct hmem).1 ⟨i, hi⟩ ⟨name, .refl, .inr hcycle⟩

variable (hs : f.Solves equations names equations) (hended : f.Ended)
include hs hended

/-- In the end everything is known that an expression with a value waits for. -/
theorem unknowns_of_denotes {e : OrdinaryExpr String} {i : Int32} (hi : equations.Denotes e i)
    {e' : OrdinaryExpr NameId} (hnumbered : e.Numbered names e') :
    f.layout.table.unknowns e' = [] := by
  induction hi generalizing e' with
  | constant =>
      cases hnumbered
      rfl
  | @symbol name e i r hmem hi ih =>
      cases hnumbered with
      | symbol _ _ hfind =>
          obtain ⟨n, e', hfind', hnumbered, hequates⟩ := hs.equated name e hmem
          obtain rfl := Option.some.inj (hfind.symm.trans hfind')
          obtain ⟨j, hj⟩ := hs.exists_value hended hnumbered hequates (ih hnumbered)
            (not_circle_of_denotes hdistinct hs hmem hfind hi)
          simp [SymbolTable.unknowns, SymbolTable.unknownsOfSymbol, hj]
  | negate r _ ih =>
      cases hnumbered with
      | negate _ _ hnumbered =>
          have hnil := ih hnumbered
          exact hnil
  | binary op r _ _ ihl ihr =>
      cases hnumbered with
      | binary _ _ _ hl hr => exact List.append_eq_nil_iff.2 ⟨ihl hl, ihr hr⟩

/-- In the end the symbols have the values of the least solution. -/
theorem solution {name : String} {e : OrdinaryExpr String} (hmem : (name, e) ∈ equations) :
    ∃ n symbol, names.find? name = some n ∧ f.layout.table.symbol? n = some symbol ∧
      (∀ i, symbol.value = .absolute i ↔ equations.Denotes e i) ∧
      (symbol.value = .undefined ↔ equations.Blocked name) ∧
      ∀ a, symbol.value ≠ .relocatable a := by
  obtain ⟨n, e', hfind, hnumbered, hequates⟩ := hs.equated name e hmem
  obtain ⟨v, length, ⟨symbol, hsymbol, -, -⟩, -⟩ := id hequates
  have hvalueOf : f.layout.table.valueOf n = symbol.value := by simp [SymbolTable.valueOf, hsymbol]
  have hallows := hs.values n
  rw [hvalueOf] at hallows
  have hsound (i : Int32) (hi : symbol.value = .absolute i) : equations.Denotes e i := by
    rw [hi] at hallows
    cases hallows with
    | @absolute name' e₁ _ _ hmem' hfind' hdenotes =>
        obtain rfl : name' = name := NameTable.eq_of_find? hfind' hfind
        rwa [EquationSystem.eq_of_mem hdistinct hmem hmem']
  have hcomplete (i : Int32) (hi : equations.Denotes e i) : symbol.value = .absolute i := by
    have hnil := unknowns_of_denotes hdistinct hs hended hi hnumbered
    obtain ⟨j, hj⟩ := hs.exists_value hended hnumbered hequates hnil
      (not_circle_of_denotes hdistinct hs hmem hfind hi)
    rw [hvalueOf] at hj
    rw [hj, (hsound j hj).unique hdistinct hi]
  have hblocked := EquationSystem.exists_denotes_iff hdistinct hmem
  refine ⟨n, symbol, hfind, hsymbol, fun i => ⟨hsound i, hcomplete i⟩, ⟨fun hundefined => ?_,
    fun h => ?_⟩, fun a ha => ?_⟩
  · by_contra hnot
    obtain ⟨i, hi⟩ := hblocked.2 hnot
    simp [hundefined] at hcomplete
    exact hcomplete i hi
  · cases hvalue : symbol.value with
    | undefined => rfl
    | absolute i => exact absurd h (hblocked.1 ⟨i, hsound i hvalue⟩)
    | relocatable a =>
        rw [hvalue] at hallows
        cases hallows
  · rw [ha] at hallows
    cases hallows

end Distinct

end History.Solves

end Layout

end MacroAssembler
