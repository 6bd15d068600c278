import MacroAssembler.Proofs.Assembly.Calls

/-!
# Knowledge is final

The moves of the layout that the calls of a session make keep its contract (`Follows.call`). So
what a session knows about symbols and spaces it knows from then on, whatever it is told next. In
particular an expression that waits for nothing has got its value, or its error, for good
(`knowledge_final`).
-/

namespace MacroAssembler

open Layout (Move History)

namespace SymbolTable

variable {t : SymbolTable}

/-- No operation fails for want of a symbol. -/
theorem combine_ne_undefinedSymbol (op : ArithmeticOp) (l r : SymbolValue) (name : NameId) :
    combine op l r ≠ .error (.undefinedSymbol name) := by
  unfold combine
  repeat' split
  all_goals simp

/-- If an expression waits for nothing, it does not fail for want of a symbol. -/
theorem evaluate_ne_undefinedSymbol {e : OrdinaryExpr NameId} (hnil : t.unknowns e = [])
    (name : NameId) : t.evaluate e ≠ .error (.undefinedSymbol name) := by
  induction e with
  | constant => simp [evaluate]
  | symbol n =>
      simp only [unknowns, unknownsOfSymbol] at hnil
      simp only [evaluate]
      cases hvalue : t.valueOf n with
      | undefined => simp [hvalue] at hnil
      | absolute | relocatable => simp
  | negate e _ ih =>
      intro h
      obtain h | ⟨v, -, h⟩ := bind_eq_error_iff.1 h
      · exact ih hnil h
      · cases v <;> cases h
  | binary op l r _ ihl ihr =>
      obtain ⟨hl, hr⟩ := List.append_eq_nil_iff.1 hnil
      intro h
      obtain h | ⟨v, -, h⟩ := bind_eq_error_iff.1 h
      · exact ihl hl h
      · obtain h | ⟨w, -, h⟩ := bind_eq_error_iff.1 h
        · exact ihr hr h
        · exact combine_ne_undefinedSymbol op v w name h

end SymbolTable

namespace Session

variable {s s' : Session} {h : History Postponed}

/-! ## The layout during calls -/

/-- The moves when a provider of statements has run out. -/
def providerMoves (s : Session) (p : Provider) : List (Move Postponed) :=
  if Collector.endsWith p then
    (List.replicate s.collectors.length (settleMoves s.assembly.names)).flatten
  else []

/-- The moves of a call. -/
def callMoves (s : Session) : Call → List (Move Postponed)
  | .learn _ => []
  | .process st => s.moves st
  | .providerFinished p => s.providerMoves p
  | .finish => s.finishMoves

/-- A session goes on when a provider of statements has run out. -/
theorem Follows.providerFinished (hs : s.Follows h) (p : Provider) :
    ∃ s', s.providerFinished p = .ok s' ∧ Proceeds h s (s.providerMoves p) s' := by
  unfold Session.providerFinished providerMoves
  split
  · obtain ⟨s', hok, hp, -⟩ := hs.endCollectors s.collectors.length
    exact ⟨s', hok, hp⟩
  · exact ⟨s, rfl, .refl hs⟩

/-- The moves at the end of the source keep the contract of the layout. -/
theorem Follows.legal_finishMoves (hs : s.Follows h) : h.layout.Legal s.finishMoves := by
  obtain ⟨_, -, hclosed, -⟩ := hs.close
  refine Layout.legal_append.2 ⟨hclosed.legal, trivial, ?_⟩
  exact Layout.legal_of_fetches (by simp [settleMoves, Move.Fetches])

/-- A session returns from every call, and its moves keep the contract of the layout. -/
theorem Follows.call (hs : s.Follows h) (c : Call) :
    ∃ s', s.call c = .ok s' ∧ s'.Follows (h.makeAll (s.callMoves c)) ∧
      h.layout.Legal (s.callMoves c) := by
  cases c with
  | learn name =>
      let s' : Session := { s with assembly := (s.assembly.learn name).2 }
      have hlearns : s.assembly.Learns s'.assembly := .learn _ _
      have hp : Proceeds h s [] s' := hs.keep hlearns.layout hlearns.names rfl hs.collectors
        plain_nil (List.append_nil _).symm
      exact ⟨s', rfl, hp.follows, hp.legal⟩
  | process st =>
      obtain ⟨s', hok, hp⟩ := hs.process st
      exact ⟨s', hok, hp.follows, hp.legal⟩
  | providerFinished p =>
      obtain ⟨s', hok, hp⟩ := hs.providerFinished p
      exact ⟨s', hok, hp.follows, hp.legal⟩
  | finish =>
      obtain ⟨s', hok, hfinished, -⟩ := hs.finish
      exact ⟨s', hok, hfinished, hs.legal_finishMoves⟩

/-- A session returns from a run of calls, and its moves keep the contract of the layout. -/
theorem Follows.calls (hs : s.Follows h) (cs : List Call) :
    ∃ s' ms, cs.foldlM Session.call s = .ok s' ∧ s'.Follows (h.makeAll ms) ∧ h.layout.Legal ms := by
  induction cs generalizing s h with
  | nil => exact ⟨s, [], rfl, hs, trivial⟩
  | cons c cs ih =>
      obtain ⟨s₁, hok, hs₁, hlegal⟩ := hs.call c
      obtain ⟨s', ms, hok', hs', hlegal'⟩ := ih hs₁
      refine ⟨s', s.callMoves c ++ ms, ?_, History.makeAll_append h _ ms ▸ hs', ?_⟩
      · rw [List.foldlM_cons, hok]
        exact hok'
      · exact Layout.legal_append.2 ⟨hlegal, History.layout_makeAll h _ ▸ hlegal'⟩

/-- Moves that keep the contract of the layout only add to what a session knows. -/
theorem Follows.extends (hs : s.Follows h) {ms : List (Move Postponed)}
    (hs' : s'.Follows (h.makeAll ms)) (hlegal : h.layout.Legal ms) :
    s.assembly.layout.table.Extends s'.assembly.layout.table := by
  rw [← hs.assembly.layout, ← hs'.assembly.layout, History.layout_makeAll]
  exact hs.assembly.tracked.extends_makeAll hlegal

/-! ## What is known for good -/

/-- In every run of calls, what is known of symbols and spaces stays so: a symbol keeps its
attributes and its place in the source, a number its value, and an address the place that it
stands for; a space keeps its length, and none that has a length is waiting for one. So an
expression that waits for nothing goes on to wait for nothing, and keeps its value or its error,
which is not the want of a symbol; if its value is an address, that has no spaces. -/
theorem knowledge_final (file : String) (tracing : Tracing) (before after : List Call) :
    ∃ s t, before.foldlM Session.call (start file tracing) = .ok s ∧
      after.foldlM Session.call s = .ok t ∧
      let known := s.assembly.layout.table
      let later := t.assembly.layout.table
      (∀ n symbol, known.symbol? n = some symbol → ∃ symbol', later.symbol? n = some symbol' ∧
        symbol'.attributes = symbol.attributes ∧ symbol'.location = symbol.location ∧
        (∀ i, symbol.value = .absolute i → symbol'.value = .absolute i) ∧
        ∀ a, symbol.value = .relocatable a →
          ∃ b, symbol'.value = .relocatable b ∧ later.normalize a = later.normalize b) ∧
      (∀ space n, known.length? space = some n → later.length? space = some n) ∧
      (∀ e ∈ s.assembly.layout.entries, ∀ space, e.target = some (.space space) →
        known.length? space = none) ∧
      ∀ e, known.unknowns e = [] → later.unknowns e = [] ∧ later.evaluate e = known.evaluate e ∧
        (∀ name, known.evaluate e ≠ .error (.undefinedSymbol name)) ∧
        ∀ a, known.evaluate e = .ok (.relocatable a) → a.spaces = [] := by
  obtain ⟨s, _, hok, hfollows, -⟩ := (follows_start file tracing).calls before
  obtain ⟨t, _, hok', hfollows', hlegal⟩ := hfollows.calls after
  have hext := hfollows.extends hfollows' hlegal
  refine ⟨s, t, hok, hok', fun n symbol hsymbol => ?_, hext.length, fun e he space htarget => ?_,
    fun e hnil => ⟨?_, hext.evaluate_eq hnil, SymbolTable.evaluate_ne_undefinedSymbol hnil,
      fun a ha => SymbolTable.spaces_of_evaluate hnil ha⟩⟩
  · obtain ⟨symbol', hsymbol', hattributes, hlocation, hbecomes⟩ := hext.symbol n symbol hsymbol
    refine ⟨symbol', hsymbol', hattributes, hlocation, fun i hi => ?_, fun a ha => ?_⟩
    · rw [hi] at hbecomes
      generalize symbol'.value = v at hbecomes
      cases hbecomes
      rfl
    · rw [ha] at hbecomes
      generalize symbol'.value = v at hbecomes
      cases hbecomes with
      | relocatable hab => exact ⟨_, rfl, hab.symm⟩
  · have hfits := hfollows.assembly.tracked.sound.fits e (by
      rw [hfollows.assembly.layout]
      exact List.mem_append_left _ he)
    rw [hfollows.assembly.layout] at hfits
    cases hfits with
    | length _ hnone =>
        cases htarget
        exact hnone
    | work | value | place => simp at htarget
  · show t.assembly.layout.table.unknownsOfSource (.expr e) = []
    exact hext.unknownsOfSource_eq_nil hnil

end Session

end MacroAssembler
