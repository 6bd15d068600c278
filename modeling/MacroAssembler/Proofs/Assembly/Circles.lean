import MacroAssembler.Proofs.Assembly.Flat

/-!
# Diagnostics of circles

A diagnostic of a session that tells of a circle belongs to a registration of the run. Whether
that registration really leads to a circle depends on the expressions that have failed
(`circular_diagnostics`).
-/

namespace MacroAssembler.Session

open Layout (Move History)
open SourceStatement (lookup_equ lookup_lr)

/-- The diagnostic that blames a registration. -/
def blameDiagnostic (names : NameTable) (e : Entry Postponed) : Diagnostic :=
  (LayoutError.circularDependency e.targetName?).diagnostic names e.range

/-- A session that has fetched all errors tells of a circle once for each registration that its
layout blames. -/
theorem Blames.filter_isCircular {s : Session} {h : History Postponed} (hb : s.Blames h)
    (hs : s.Follows h) (herrors : s.assembly.layout.errors = []) :
    s.diagnostics.filter isCircular = h.blamed.map (blameDiagnostic s.assembly.names) := by
  obtain ⟨ms, hlegal, hh⟩ := hs.assembly.run
  have hcircular : Layout.circular h.errors = h.blamed.map Layout.blame :=
    hh ▸ History.circular_errors_makeAll {} ms rfl
  have hfetched : h.errors = h.fetched := by
    rw [History.errors, hs.assembly.layout, herrors, List.append_nil]
  rw [hb.circular, ← hfetched, hcircular, List.map_map]
  rfl

/-- Every file is processed. The diagnostics that tell of circles belong to registrations, and such
a registration reaches a symbol or space that waits for itself exactly if not everything that it
mentions is known or stuck behind expressions that have failed. -/
theorem circular_diagnostics (file : String) (tracing : Tracing)
    (statements : List SourceStatement) :
    let h := history file tracing statements
    ∃ s, Console.processAll file tracing statements = .ok s ∧ s.assembly.layout = h.layout ∧
      s.diagnostics.filter isCircular = h.blamed.map (blameDiagnostic s.assembly.names) ∧
      ∀ e ∈ h.blamed, e ∈ h.registered ∧
        ((∃ u ∈ e.mentions, ReachesCircle h.registered h.layout.table u) ↔
          ¬ ∀ u ∈ e.mentions,
            h.layout.table.Known u ∨ Stuck h.registered h.layout.table u) := by
  intro h
  obtain ⟨s, hok, hs, hb, herrors⟩ := processAll_follows file tracing statements
  refine ⟨s, hok, hs.assembly.layout.symm, hb.filter_isCircular hs herrors, fun e he => ?_⟩
  obtain ⟨ms, hlegal, hh⟩ := hs.assembly.run
  have hregistered : e ∈ h.registered := by
    have hsubset := History.blamed_makeAll Layout.tracked_empty hlegal (by simp)
    rw [← hh] at hsubset
    exact hsubset he
  refine ⟨hregistered, ?_⟩
  obtain ⟨ms, ns, hmoves, hlegal, hopen, hns⟩ := history_eq file tracing statements
  rw [show h = _ from hmoves] at he ⊢
  exact Layout.reachesCircle_iff_of_fetches hlegal hopen hns he

/-! ## A registration that is blamed without a circle -/

/-- A source in which C waits for A, and the expression of A fails. -/
def failedSource : List SourceStatement :=
  [{ label := "A", operation := "EQU", operands := "-B" },
    { label := "B", operation := "LR", operands := "1,1" },
    { label := "C", operation := "EQU", operands := "A+1" }]

/-- The expression of A, which negates an address. -/
def failedExpr : OrdinaryExpr NameId := .negate (.symbol ⟨2⟩ (.onLine 0 7 8)) (.onLine 0 6 8)

/-- The expression of C, which mentions A. -/
def waitingExpr : OrdinaryExpr NameId :=
  .binary .add (.symbol ⟨0⟩ (.onLine 2 6 7)) (.constant 1 (.onLine 2 8 9)) (.onLine 2 6 9)

/-- The moves of the layout on that source. -/
def failedMoves : List (Move Postponed) :=
  [.declare ⟨⟨0⟩, .undefined, .equate none, ⟨"OPENCODE", ⟨0, 0⟩⟩⟩ (.expr failedExpr)
    (.onLine 0 0 8), .takeEvents] ++ settleMoves (.ofList ["A", "EQU", "B"]) ++
  [.align .halfword, .takeEvents,
    .define ⟨⟨2⟩, .relocatable {}, .machine 2, ⟨"OPENCODE", ⟨1, 0⟩⟩⟩, .takeEvents,
    .reserve 2 .none, .takeEvents] ++ settleMoves (.ofList ["A", "EQU", "B", "LR"]) ++
  [.declare ⟨⟨4⟩, .undefined, .equate none, ⟨"OPENCODE", ⟨2, 0⟩⟩⟩ (.expr waitingExpr)
    (.onLine 2 0 9), .takeEvents] ++ settleMoves (.ofList ["A", "EQU", "B", "LR", "C"]) ++
  settleMoves (.ofList ["A", "EQU", "B", "LR", "C"]) ++ [.finish, .takeEvents] ++
  settleMoves (.ofList ["A", "EQU", "B", "LR", "C"])

theorem fileMoves_failedSource :
    (start "OPENCODE" .off).fileMoves failedSource.zipIdx = failedMoves := by
  -- each statement is rewritten with what the tables say, and only then evaluated; the evaluation
  -- leaves the whole statement in the proof that the parts of the name table are inverse
  have hfirst := ((flat_start "OPENCODE" .off).passes_action
    (p := (⟨"A", "EQU", "-B", none⟩, 0)) (by cbv) lookup_equ.1 lookup_equ.2 ⟨1⟩ (by cbv)).1 rfl
  have hsecond (s : Session) (hs : s.Flat) := hs.passes_encoded
    (p := (⟨"B", "LR", "1,1", none⟩, 1)) (by cbv) (.inl lookup_lr.1) lookup_lr.2 ⟨3⟩
  have hthird (s : Session) (hs : s.Flat) := hs.passes_action
    (p := (⟨"C", "EQU", "A+1", none⟩, 2)) (by cbv) lookup_equ.1 lookup_equ.2 ⟨1⟩
  dsimp only at hfirst hsecond hthird
  unfold failedSource
  dsimp only [List.zipIdx_cons, List.zipIdx_nil]
  rw [fileMoves, hfirst.moves, hfirst.step]
  conv in (settle _) => cbv
  dsimp only
  generalize_proofs hinverse
  rw [fileMoves, (hsecond _ ⟨rfl, rfl, rfl, rfl⟩ (by cbv)).moves,
    (hsecond _ ⟨rfl, rfl, rfl, rfl⟩ (by cbv)).step]
  conv in (settle _) => cbv
  dsimp only
  generalize_proofs hinverse'
  rw [fileMoves, ((hthird _ ⟨rfl, rfl, rfl, rfl⟩ (by cbv)).1 rfl).moves,
    ((hthird _ ⟨rfl, rfl, rfl, rfl⟩ (by cbv)).1 rfl).step]
  conv in (settle _) => cbv
  cbv

/-- C is blamed for a circle, but it only waits for an expression that has failed. -/
theorem failedSource_has_no_circle :
    let h := history "OPENCODE" .off failedSource
    ∃ s, Console.processAll "OPENCODE" .off failedSource = .ok s ∧
      s.diagnostics.filter isCircular = h.blamed.map (blameDiagnostic s.assembly.names) ∧
      h.blamed ≠ [] ∧
      ∀ e ∈ h.blamed, ¬ ∃ u ∈ e.mentions, ReachesCircle h.registered h.layout.table u := by
  intro h
  obtain ⟨s, hok, hs, hb, herrors⟩ := processAll_follows "OPENCODE" .off failedSource
  have hh : h = .makeAll {} failedMoves := by rw [← fileMoves_failedSource]; rfl
  let failed : Entry Postponed :=
    ⟨some (.symbol ⟨0⟩), [.expr failedExpr], none, .onLine 0 0 8⟩
  let waiting : Entry Postponed :=
    ⟨some (.symbol ⟨4⟩), [.expr waitingExpr], none, .onLine 2 0 9⟩
  have hblamed : h.blamed = [waiting] := by rw [hh]; cbv
  have hregistered : h.registered = [failed, waiting] := by rw [hh]; cbv
  have haddress : h.layout.table.valueOf ⟨2⟩ = .relocatable {} := by rw [hh]; cbv
  refine ⟨s, hok, hb.filter_isCircular hs herrors, by simp [hblamed], fun e he => ?_⟩
  rintro ⟨u, hu, hcircle⟩
  obtain rfl : e = waiting := by simpa [hblamed] using he
  obtain rfl : u = .symbol ⟨0⟩ := by
    simpa [Entry.mentions, waiting, Source.mentions, waitingExpr, OrdinaryExpr.names] using hu
  have hfails : failed.Failed h.layout.table := by
    refine .symbol ?_ (?_ : _ = Except.error (ValueError.relocatableOperand .sub))
    · simp [failedExpr, SymbolTable.unknownsOfSource, SymbolTable.unknowns,
        SymbolTable.unknownsOfSymbol, haddress, SymbolTable.unknownsOfAddress,
        SymbolTable.normalize]
    · simp [failedExpr, SymbolTable.evaluateSource, SymbolTable.evaluate, haddress]
      rfl
  have hmem : failed ∈ h.registered := by simp [hregistered]
  exact hs.assembly.tracked.not_stuck_of_reachesCircle hcircle (.inr (.failed hmem rfl hfails))

end MacroAssembler.Session
