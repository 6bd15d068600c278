import MacroAssembler.Proofs.Assembly.Equations
import MacroAssembler.Proofs.Layout.LeastSolution

/-!
# The order of EQU statements

A source of EQU statements is a system of equations, and a session finds its least solution
(`processAll_equates`). The order of the statements decides which values are found at once, which
are found later and which statements are turned away, but not what the symbols are in the end
(`equates_of_perm`).
-/

namespace MacroAssembler

open Layout (Move History)

namespace SourceStatement

/-- The equation that an EQU statement states. -/
def equation? (s : SourceStatement) : Option (String × OrdinaryExpr String) :=
  match s.action, s.symbol?, s.operand? with
  | .equate, some name, some e => some (name, e)
  | _, _, _ => none

/-- The equations that a source states. -/
def equations (statements : List SourceStatement) : EquationSystem :=
  statements.filterMap equation?

/-- The fields of a statement that states an equation. -/
theorem fields_of_equation {s : SourceStatement} {name : String} {e : OrdinaryExpr String}
    (h : s.equation? = some (name, e)) :
    s.action = .equate ∧ s.symbol? = some name ∧ s.operand? = some e := by
  unfold equation? at h
  split at h
  · rename_i haction hsymbol hoperand
    cases h
    exact ⟨haction, hsymbol, hoperand⟩
  · simp at h

/-- A statement with these fields states an equation. -/
theorem equation_of_fields {s : SourceStatement} (name : String) {e : OrdinaryExpr String}
    (haction : s.action = .equate) (hsymbol : s.symbol? = some name)
    (hoperand : s.operand? = some e) :
    s.equation? = some (name, e) := by
  simp [equation?, haction, hsymbol, hoperand]

end SourceStatement

namespace Layout.History.Solves

variable {Work : Type} {equations equations' stated stated' : EquationSystem} {names : NameTable}
variable {h : History Work}

/-- The order in which the equations came does not matter. -/
theorem perm (hs : h.Solves equations names stated) (hperm : stated.Perm stated') :
    h.Solves equations names stated' where
  values := hs.values
  registered := hs.registered
  defined n hn := by
    obtain ⟨name, e, hmem, hfind⟩ := hs.defined n hn
    exact ⟨name, e, hperm.subset hmem, hfind⟩
  equated name e hmem := hs.equated name e (hperm.symm.subset hmem)

/-- An empty history has got no equations. -/
theorem empty (equations : EquationSystem) (names : NameTable) :
    ({} : History Work).Solves equations names [] where
  values n := .undefined n
  registered := by simp
  defined := by simp [SymbolTable.defines, SymbolTable.symbol?]
  equated := by simp

/-- Moves that state no equation give no symbol another value than the least solution. -/
theorem makeAll_of_silent (hs : h.Solves equations names stated) (ht : h.Tracked)
    {ms : List (Move Work)} (hlegal : h.layout.Legal ms)
    (hms : ∀ m ∈ ms, m.Fetches ∨ m = .finish) : (h.makeAll ms).Solves equations names stated := by
  have hsilent : ∀ m ∈ ms, m.States equations names ∧ m.symbol? = none := by
    intro m hm
    rcases hms m hm with hfetches | rfl
    · cases m <;> first | exact ⟨trivial, rfl⟩ | exact hfetches.elim
    · exact ⟨trivial, rfl⟩
  have hall : (h.makeAll ms).Solves equations names (stated ++ []) :=
    hs.makeAll ht hlegal (fun m hm => (hsilent m hm).1)
      (fun m hm symbol hsymbol => by simp [(hsilent m hm).2] at hsymbol) (by simp)
  rwa [List.append_nil] at hall

end Layout.History.Solves

namespace Assembly

variable {a : Assembly} {h : History Postponed} {equations stated : EquationSystem}

/-- An assembly that equates a fresh symbol has got one more equation. -/
theorem Follows.solves_equate (hf : a.Follows h) (hs : h.Solves equations a.names stated)
    {st : Statement (List Operand)} {name : String} {id : NameId} {e : OrdinaryExpr String}
    {e' : OrdinaryExpr NameId} (hmem : (name, e) ∈ equations) (hfind : a.names.find? name = some id)
    (hnumbered : e.Numbered a.names e') (hfresh : a.defines id = false) :
    (h.makeAll (a.equateMoves st id e')).Solves equations a.names (stated ++ [(name, e)]) := by
  have hevaluate (hnil : a.layout.table.unknowns e' = []) :
      ∃ i, a.layout.table.evaluate e' = .ok (.absolute i) ∧ equations.Denotes e i :=
    EquationSystem.Allows.evaluate (hf.layout ▸ hs.values) hnumbered hnil
  have hvalue (hnil : a.layout.table.unknowns e' = []) :
      ∃ v, a.layout.table.evaluate e' = .ok v := by
    obtain ⟨i, hi, -⟩ := hevaluate hnil
    exact ⟨_, hi⟩
  obtain ⟨-, hp⟩ := hf.equate (s := st) e'.range (e := e') hfresh
  obtain ⟨hequates, -⟩ : (h.makeAll (a.equateMoves st id e')).Equates a.layout.table id e' ∧
      (a.equate st id e'.range e').2.layout.counter = a.layout.counter :=
    hf.equate_effect id hvalue hfresh
  obtain ⟨symbol, rfl, -, hmoves⟩ := equateMoves_eq (s := st) id hvalue
  -- the only symbol the moves bring in is this one, with its value or declared to wait for it
  have hcases : ∀ m ∈ a.equateMoves st symbol.name e',
      m.States equations a.names ∧ ∀ symbol', m.symbol? = some symbol' → symbol' = symbol := by
    rcases hmoves with ⟨hnil, hv, hmoves⟩ | ⟨hundefined, hmoves⟩ <;> rw [hmoves] <;> intro m hm
    · rcases List.mem_pair.1 hm with rfl | rfl
      · obtain ⟨i, hi, hdenotes⟩ := hevaluate hnil
        have hsymbol : symbol.value = .absolute i := Except.ok.inj (hv.symm.trans hi)
        refine ⟨?_, fun symbol' h => (Option.some.inj h).symm⟩
        show equations.Allows a.names symbol.name symbol.value
        rw [hsymbol]
        exact .absolute hmem hfind hdenotes
      · exact ⟨trivial, by simp [Move.symbol?]⟩
    · rcases List.mem_pair.1 hm with rfl | rfl
      · exact ⟨⟨hundefined, .intro hmem hfind hnumbered⟩,
          fun symbol' h => (Option.some.inj h).symm⟩
      · exact ⟨trivial, by simp [Move.symbol?]⟩
  refine hs.makeAll hf.tracked hp.legal (fun m hm => (hcases m hm).1)
    (fun m hm symbol' hsymbol => ?_) fun name' e₁ hmem' => ?_
  · obtain rfl := (hcases m hm).2 symbol' hsymbol
    exact ⟨name, e, List.mem_singleton_self _, hfind⟩
  · obtain ⟨rfl, rfl⟩ := Prod.mk.inj (List.mem_singleton.1 hmem')
    exact ⟨symbol.name, e', hfind, hnumbered, hf.layout ▸ hequates⟩

/-- An EQU statement with a fresh label states its equation. -/
theorem Follows.states_directive (hf : a.Follows h) (hs : h.Solves equations a.names stated)
    {st : Statement OperandField} (hdirects : a.Directs st .equate) {name : String} {id : NameId}
    {range : Range} {e : OrdinaryExpr String} {e' : OrdinaryExpr NameId}
    (hmem : (name, e) ∈ equations) (hlabel : st.label = .ordinary id range)
    (hfind : a.names.find? name = some id) (hfirst : (a.firstOperand st).1 = some e')
    (hnumbered : e.Numbered (a.firstOperand st).2 e') (hfresh : a.defines id = false) :
    (h.makeAll (a.directiveMoves st)).Solves equations (a.processDirective st).2.names
      (stated ++ [(name, e)]) := by
  obtain ⟨_, _, _, hopcode, hfind', hfound⟩ := hdirects
  obtain ⟨hmoves, hprocess, -⟩ := process_of_code hopcode hfind' hfound
  obtain ⟨-, hread⟩ := hf.read st .assembler
  have hlabel' : (a.read st .assembler).1.label = .ordinary id range :=
    (st.label_read .assembler a.names).trans hlabel
  unfold firstOperand at hfirst hnumbered
  rw [hmoves, hprocess rfl]
  have hfresh' : (a.read st .assembler).2.2.defines id = false := hfresh
  generalize a.read st .assembler = read at hread hlabel' hfirst hnumbered hfresh'
  obtain ⟨s, faults, b⟩ := read
  dsimp only at hread hlabel' hfirst hnumbered hfresh' ⊢
  have hlabelled : (b.freshLabel s).1 = some (id, range) := by simp [freshLabel, hlabel', hfresh']
  have hequate : b.actionMoves s .equate = b.equateMoves s id e' := by
    simp [actionMoves, hlabelled, hfirst]
  obtain ⟨⟨-, hp⟩, -⟩ := hread.follows.action s
  rw [hequate]
  exact (hread.follows.solves_equate (hs.grows hread.names) hmem (hread.names.find? hfind) hnumbered
    hfresh').grows hp.names

end Assembly

namespace Session

variable {s s' : Session} {h : History Postponed} {p : SourceStatement × Nat}
variable {equations stated : EquationSystem}

/-- An EQU statement states its equation. -/
theorem Flat.states_next (hflat : s.Flat) (hs : s.Follows h)
    (hsolves : h.Solves equations s.assembly.names stated) {name : String}
    {e : OrdinaryExpr String} (hequation : p.1.equation? = some (name, e))
    (hmem : (name, e) ∈ equations) (hfresh : name ∉ stated.map Prod.fst) :
    ∃ s' ms, s.step p = .ok s' ∧ s'.Flat ∧ Proceeds h s ms s' ∧
      (h.makeAll ms).Solves equations s'.assembly.names (stated ++ [(name, e)]) := by
  obtain ⟨haction, hsymbol, hoperand⟩ := SourceStatement.fields_of_equation hequation
  obtain ⟨code, ⟨iname, action⟩, hcode, hkind, hfound, hequate, -⟩ :=
    p.1.code_of_directive (.inl haction)
  obtain rfl : action = .equate := hequate haction
  obtain ⟨st, s', hstep, hreads, hdirects, hp, hset⟩ :=
    hflat.settles_directive hs hcode hkind hfound
  have hf := hs.opened p .assembler
  obtain ⟨hlayout, hnames, -⟩ := s.opened_spec p .assembler
  have hgrows : s.assembly.names.Grows (s.opened p .assembler).names := by
    rw [hnames, (s.facing_spec p).2.1]
    exact p.1.toStatement_grows p.2 s.assembly.names
  generalize s.opened p .assembler = b at hreads hdirects hp hset hf hlayout hgrows
  refine ⟨s', _, hstep, hset.flat, hset.proceeds, ?_⟩
  obtain ⟨id, range, hlabel, hfind⟩ := hreads.label name hsymbol
  obtain ⟨e', hfirst, hnumbered⟩ := hreads.operand e hoperand
  -- a symbol that was defined before would be that of an equation stated before
  have hundefined : b.defines id = false := by
    by_contra hdefined
    have hdefined' : h.layout.table.defines id = true := by
      rw [hs.assembly.layout, ← hlayout]
      simpa [Assembly.defines] using hdefined
    obtain ⟨name', e₁, hmem', hfind'⟩ := hsolves.defined id hdefined'
    have hname : name' = name := NameTable.eq_of_find? (hgrows.find? hfind') hfind
    exact hfresh (List.mem_map.2 ⟨_, hmem', hname⟩)
  have hstated := hf.states_directive (hsolves.grows hgrows) hdirects hmem hlabel hfind hfirst
    hnumbered hundefined
  -- settling after the statement only fetches, so it states nothing
  have hfetches : ∀ m ∈ settleMoves (b.processDirective st).2.names, m.Fetches := by
    simp [settleMoves, Move.Fetches]
  rw [History.makeAll_append, hset.names]
  exact hstated.makeAll_of_silent hp.follows.tracked (Layout.legal_of_fetches hfetches)
    fun m hm => .inl (hfetches m hm)

/-- EQU statements with different labels state their equations. -/
theorem Flat.states_all (hflat : s.Flat) (hs : s.Follows h)
    (hsolves : h.Solves equations s.assembly.names stated) {ps : List (SourceStatement × Nat)}
    (hequations : ∀ p ∈ ps, p.1.equation?.isSome)
    (hsubset : SourceStatement.equations (ps.map Prod.fst) ⊆ equations)
    (hdistinct : ((stated ++ SourceStatement.equations (ps.map Prod.fst)).map Prod.fst).Nodup) :
    ∃ s' ms, ps.foldlM step s = .ok s' ∧ s'.Flat ∧ Proceeds h s ms s' ∧
      (h.makeAll ms).Solves equations s'.assembly.names
        (stated ++ SourceStatement.equations (ps.map Prod.fst)) := by
  induction ps generalizing s h stated with
  | nil => exact ⟨s, [], rfl, hflat, .refl hs, by simpa [SourceStatement.equations] using hsolves⟩
  | cons p ps ih =>
      obtain ⟨⟨name, e⟩, hequation⟩ := Option.isSome_iff_exists.1 (hequations p (by simp))
      have hcons : SourceStatement.equations ((p :: ps).map Prod.fst) =
          (name, e) :: SourceStatement.equations (ps.map Prod.fst) :=
        List.filterMap_cons_some hequation
      rw [hcons] at hsubset hdistinct ⊢
      have hfresh : name ∉ stated.map Prod.fst := by
        intro hmem
        rw [List.map_append, List.nodup_append] at hdistinct
        exact hdistinct.2.2 name hmem name (by simp) rfl
      obtain ⟨s₁, ms₁, hok₁, hflat₁, hp₁, hsolves₁⟩ :=
        hflat.states_next hs hsolves hequation (hsubset (by simp)) hfresh
      obtain ⟨s', ms, hok, hflat', hp, hsolves'⟩ := ih hflat₁ hp₁.follows hsolves₁
        (fun q hq => hequations q (by simp [hq])) (fun x hx => hsubset (List.mem_cons_of_mem _ hx))
        (by simpa using hdistinct)
      refine ⟨s', ms₁ ++ ms, by rw [List.foldlM_cons, hok₁]; exact hok, hflat', hp₁.trans hp, ?_⟩
      rw [History.makeAll_append]
      simpa using hsolves'

/-- A source of EQU statements with different labels is processed, and in the end the symbols have
the values of the least solution. -/
theorem processAll_equates (file : String) (tracing : Tracing) {statements : List SourceStatement}
    {equations : EquationSystem} (hequations : ∀ s ∈ statements, s.equation?.isSome)
    (hperm : (SourceStatement.equations statements).Perm equations)
    (hdistinct : (equations.map Prod.fst).Nodup) :
    ∃ s, Console.processAll file tracing statements = .ok s ∧ ∀ name e, (name, e) ∈ equations →
      ∃ symbol, s.assembly.symbol? name = some symbol ∧
        (∀ i, symbol.value = .absolute i ↔ equations.Denotes e i) ∧
        (symbol.value = .undefined ↔ equations.Blocked name) ∧
        ∀ a, symbol.value ≠ .relocatable a := by
  have hstatements : statements.zipIdx.map Prod.fst = statements := List.zipIdx_map_fst 0 statements
  have hnumbered : ∀ p ∈ statements.zipIdx, p.1.equation?.isSome := fun p hp =>
    hequations p.1 (List.fst_mem_of_mem_zipIdx hp)
  obtain ⟨s, ms, hok, hflat, hp, hsolves⟩ := (flat_start file tracing).states_all
    (follows_start file tracing) (.empty equations _) hnumbered
    (by rw [hstatements]; exact hperm.subset)
    (by
      rw [hstatements, List.nil_append]
      exact (hperm.map Prod.fst).nodup_iff.2 hdistinct)
  rw [hstatements, List.nil_append] at hsolves
  obtain ⟨f, s', hok', hend⟩ := hflat.finishes hp.follows rfl hp.legal hp.running
  refine ⟨s', by rw [processAll_eq, hok]; exact hok', fun name e hmem => ?_⟩
  have hended : f.Solves equations s'.assembly.names equations := by
    rw [hend.made, hend.names]
    -- the end of the source states nothing either: it fetches, gives up, and fetches again
    obtain ⟨ns, ns', hmoves, hns, hns'⟩ := s.finishMoves_eq
    rw [hmoves]
    refine (hsolves.perm hperm).makeAll_of_silent hp.follows.assembly.tracked
      (Layout.legal_append.2 ⟨Layout.legal_of_fetches hns, trivial, Layout.legal_of_fetches hns'⟩)
      ?_
    intro m hm
    rcases List.mem_append.1 hm with hm | hm
    · exact .inl (hns m hm)
    · exact (List.mem_cons.1 hm).symm.imp_left (hns' m)
  obtain ⟨n, symbol, hfind, hsymbol, hvalue⟩ := hended.solution hdistinct hend.ended hmem
  refine ⟨symbol, ?_, hvalue⟩
  rw [Assembly.symbol?, hfind, ← hend.layout]
  exact hsymbol

/-- The order of EQU statements with different labels does not matter to the values of their
symbols, which are those of the least solution of their equations. -/
theorem equates_of_perm (file : String) (tracing : Tracing)
    {statements permuted : List SourceStatement}
    (hequations : ∀ s ∈ statements, s.equation?.isSome)
    (hdistinct : ((SourceStatement.equations statements).map Prod.fst).Nodup)
    (hperm : permuted.Perm statements) :
    let equations := SourceStatement.equations statements
    ∃ s s', Console.processAll file tracing statements = .ok s ∧
      Console.processAll file tracing permuted = .ok s' ∧
      ∀ name e, (name, e) ∈ equations → ∃ symbol symbol',
        s.assembly.symbol? name = some symbol ∧ s'.assembly.symbol? name = some symbol' ∧
        symbol'.value = symbol.value ∧
        (∀ i, symbol.value = .absolute i ↔ equations.Denotes e i) ∧
        (symbol.value = .undefined ↔ equations.Blocked name) ∧
        ∀ a, symbol.value ≠ .relocatable a := by
  intro equations
  obtain ⟨s, hok, hs⟩ := processAll_equates file tracing hequations (.refl _) hdistinct
  obtain ⟨s', hok', hs'⟩ := processAll_equates file tracing
    (fun t ht => hequations t (hperm.subset ht)) (hperm.filterMap _) hdistinct
  refine ⟨s, s', hok, hok', fun name e hmem => ?_⟩
  obtain ⟨symbol, hsymbol, hvalue, hundefined, hplace⟩ := hs name e hmem
  obtain ⟨symbol', hsymbol', hvalue', hundefined', -⟩ := hs' name e hmem
  refine ⟨symbol, symbol', hsymbol, hsymbol', ?_, hvalue, hundefined, hplace⟩
  -- both tables have the least solution, which says of each value when it is the one
  cases hv : symbol.value with
  | absolute i => exact (hvalue' i).2 ((hvalue i).1 hv)
  | relocatable a => exact absurd hv (hplace a)
  | undefined => exact hundefined'.2 (hundefined.1 hv)

/-- A source whose first statement waits for the second, which waits for nothing. -/
def waitingSource : List SourceStatement :=
  [{ label := "A", operation := "EQU", operands := "B+1" },
    { label := "B", operation := "EQU", operands := "2" }]

theorem equations_waitingSource : (∀ s ∈ waitingSource, s.equation?.isSome) ∧
    (SourceStatement.equations waitingSource).map Prod.fst = ["A", "B"] := by
  have hequ (s : SourceStatement) (hoperation : s.operation = "EQU") : s.action = .equate := by
    have hcode : s.code? = some "EQU" := by
      rw [SourceStatement.code?, hoperation]
      decide +kernel
    rw [SourceStatement.action, hcode]
    decide +kernel
  obtain ⟨e, hfirst⟩ := Option.isSome_iff_exists.1
    (show (⟨"A", "EQU", "B+1", none⟩ : SourceStatement).operand?.isSome = true by cbv)
  obtain ⟨e', hsecond⟩ := Option.isSome_iff_exists.1
    (show (⟨"B", "EQU", "2", none⟩ : SourceStatement).operand?.isSome = true by cbv)
  have hfirst' := SourceStatement.equation_of_fields "A" (hequ _ rfl) (by cbv) hfirst
  have hsecond' := SourceStatement.equation_of_fields "B" (hequ _ rfl) (by cbv) hsecond
  simp [waitingSource, SourceStatement.equations, hfirst', hsecond']

/-- In both orders of that source the symbols have the values of the least solution. -/
theorem waitingSource_equates :
    (∀ s ∈ waitingSource, s.equation?.isSome) ∧
      ((SourceStatement.equations waitingSource).map Prod.fst).Nodup ∧
      waitingSource.reverse.Perm waitingSource ∧
      let equations := SourceStatement.equations waitingSource
      ∃ s s', Console.processAll "OPENCODE" .off waitingSource = .ok s ∧
        Console.processAll "OPENCODE" .off waitingSource.reverse = .ok s' ∧
        ∀ name e, (name, e) ∈ equations → ∃ symbol symbol',
          s.assembly.symbol? name = some symbol ∧ s'.assembly.symbol? name = some symbol' ∧
          symbol'.value = symbol.value ∧
          (∀ i, symbol.value = .absolute i ↔ equations.Denotes e i) ∧
          (symbol.value = .undefined ↔ equations.Blocked name) ∧
          ∀ a, symbol.value ≠ .relocatable a := by
  obtain ⟨hequations, hnames⟩ := equations_waitingSource
  have hdistinct : ((SourceStatement.equations waitingSource).map Prod.fst).Nodup := by
    rw [hnames]
    decide
  have hperm := waitingSource.reverse_perm
  exact ⟨hequations, hdistinct, hperm, equates_of_perm "OPENCODE" .off hequations hdistinct hperm⟩

end Session

end MacroAssembler
