import MacroAssembler.Proofs.Assembly.Flat

/-!
# The equations of a layout

A source without macros states equations for its symbols and for the location counter, as an
assembler with two passes would solve them: the first pass lays the statements out one behind the
other, the second has the values of all symbols. A session without complaints solves these
equations in one pass (`processAll_solves`).
-/

namespace MacroAssembler

open Layout (Move History)
open SourceStatement (lookup_ds lookup_equ lookup_lr)

/-! ## The equations -/

namespace Assembly

/-- The symbol with a name. -/
def symbol? (a : Assembly) (name : String) : Option OrdinarySymbol :=
  (a.names.find? name).bind a.layout.table.symbol?

/-- The value of an expression over names. -/
def evaluate (a : Assembly) (e : OrdinaryExpr String) : Except ValueError SymbolValue :=
  a.layout.table.evaluate (e.intern a.names).1

end Assembly

/-- The next even offset. -/
def evenUp (offset : Int32) : Int32 := if offset % 2 = 0 then offset else offset + 1

namespace SourceStatement

/-- The equations of a statement between the counter in front of it and the counter behind it. -/
def Solved (s : SourceStatement) (a : Assembly) (c c' : Int32) : Prop :=
  match s.action with
  | .machine bytes =>
      match s.symbol? with
      | some name => c' = evenUp c + Int32.ofNat bytes ∧
          ∃ symbol, a.symbol? name = some symbol ∧
            symbol.value = .relocatable ⟨evenUp c, []⟩ ∧ symbol.attributes.length = some bytes
      | none => c' = c + Int32.ofNat bytes
  | .reserve =>
      (∃ e n, s.operand? = some e ∧ a.evaluate e = .ok (.absolute n) ∧ 0 ≤ n ∧ c' = c + n) ∧
        ∀ name, s.symbol? = some name →
          ∃ symbol, a.symbol? name = some symbol ∧ symbol.value = .relocatable ⟨c, []⟩
  | .equate =>
      c' = c ∧ ∀ name, s.symbol? = some name →
        ∃ e symbol, s.operand? = some e ∧ a.symbol? name = some symbol ∧
          a.evaluate e = .ok symbol.value
  | .other => c' = c

end SourceStatement

/-- The equations of a source between the counter in front of it and the counter behind it. -/
inductive Assembly.Solves (a : Assembly) : Int32 → List SourceStatement → Int32 → Prop where
  | nil (c : Int32) : Solves a c [] c
  | cons {s : SourceStatement} {rest : List SourceStatement} {c c' c'' : Int32} :
      s.Solved a c c' → Solves a c' rest c'' → Solves a c (s :: rest) c''

/-- A halfword is padded to the next even offset. -/
theorem add_padding_halfword (offset : Int32) :
    offset + Alignment.halfword.padding offset = evenUp offset := by
  have hboundary : (max Alignment.halfword.boundary 1).toInt32.toInt = 2 := by decide
  have hbyte : Alignment.halfword.byte.toInt32.toInt = 0 := by decide
  have htwo : (2 : Int32).toInt = 2 := by decide
  have hparity : offset % 2 = 0 ↔ offset.toInt % 2 = 0 := by
    rw [← Int32.toInt_inj, Int32.toInt_mod, htwo, Int32.toInt_zero, ← Int.dvd_iff_tmod_eq_zero,
      Int.dvd_iff_emod_eq_zero]
  -- negation wraps around, but does not change whether a number is even
  have hneg : (Alignment.halfword.byte.toInt32 - offset).toInt % 2 = offset.toInt % 2 := by
    rw [Int32.toInt_sub, hbyte, Int.bmod_def]
    split <;> omega
  unfold Alignment.padding evenUp
  rw [hboundary, hneg]
  split
  · rename_i heven
    rw [hparity.1 heven]
    simp
  · rename_i hodd
    have hone : offset.toInt % 2 = 1 := by
      rw [hparity] at hodd
      omega
    rw [hone]
    rfl

/-! ## The statements solve their equations -/

namespace Session

variable {s s' : Session} {h f : History Postponed} {p : SourceStatement × Nat} {z : Assembly}
variable {ms : List (Move Postponed)} {a : Assembly} {o : OpenCode}

/-- A run goes on from a session to an end without errors, at the assembly `z`. -/
structure Ends (h : History Postponed) (s : Session) (f : History Postponed) (z : Assembly) :
    Prop where
  complete : f.Complete
  layout : f.layout = z.layout
  leads : h.Leads f
  names : s.assembly.names.Grows z.names

/-- The end of a run is that of its rest. -/
theorem Ends.of_proceeds (hs : s.Follows h) (hp : Proceeds h s ms s')
    (he : Ends (h.makeAll ms) s' f z) : Ends h s f z := by
  refine ⟨he.complete, he.layout, .trans ⟨h.registered_subset ms, ?_⟩ he.leads,
    hp.names.trans he.names⟩
  rw [hs.assembly.layout, hp.follows.assembly.layout]
  exact hp.table

/-- The end of a run is also that of a statement before the session has settled. -/
theorem Settles.leads (hset : Settles h s ms o a s')
    (he : Ends (h.makeAll (ms ++ settleMoves a.names)) s' f z)
    (ha : (h.makeAll ms).layout = a.layout) :
    (h.makeAll ms).Leads f := by
  refine .trans ⟨?_, ?_⟩ he.leads
  · rw [History.makeAll_append]
    exact History.registered_subset _ _
  · rw [hset.proceeds.follows.assembly.layout, hset.table, ha]
    exact .refl _

/-- A label in the source is the label of its statement. -/
theorem label_of_symbol {name : String} (hname : p.1.symbol? = some name) :
    ∃ id range, (s.readNext p).1.label = .ordinary id range ∧
      (s.facing p).assembly.names.find? name = some id := by
  obtain ⟨id, range, hlabel, hfind⟩ :=
    p.1.label_toStatement p.2 s.assembly.names hname
  exact ⟨id, range, hlabel, (s.facing_spec p).2.1 ▸ hfind⟩

/-- A symbol is found by its name in the end. -/
theorem Ends.symbol? (he : Ends h s f z) {name : String} {id : NameId}
    (hfind : s.assembly.names.find? name = some id) :
    z.symbol? name = f.layout.table.symbol? id := by
  simp [Assembly.symbol?, he.names.find? hfind, he.layout]

/-- An expression over names has its value in the end. -/
theorem Ends.evaluate (he : Ends h s f z) {names : NameTable} {e : OrdinaryExpr String}
    {e' : OrdinaryExpr NameId} (hnumbered : e.Numbered names e')
    (hgrows : names.Grows s.assembly.names) : z.evaluate e = f.layout.table.evaluate e' := by
  have hnumbered' := (hnumbered.grows hgrows).grows he.names
  rw [Assembly.evaluate, ← he.layout]
  exact (SymbolTable.evaluate_intern hnumbered' _).2

/-- A statement of a flat session is processed, and solves its equations in the end unless there
are diagnostics. -/
def SolvesNext (h : History Postponed) (s : Session) (p : SourceStatement × Nat) : Prop :=
  ∃ s' ms, s.step p = .ok s' ∧ s'.Flat ∧ Proceeds h s ms s' ∧ (s'.diagnostics = [] →
    s.diagnostics = [] ∧ ∀ f z c, Ends (h.makeAll ms) s' f z →
      f.layout.table.normalize s.assembly.layout.counter = ⟨c, []⟩ →
      ∃ c', f.layout.table.normalize s'.assembly.layout.counter = ⟨c', []⟩ ∧ p.1.Solved z c c')

/-- A machine instruction solves its equations. -/
theorem Flat.solves_machine (hflat : s.Flat) (hs : s.Follows h) {bytes : Nat}
    (haction : p.1.action = .machine bytes) : SolvesNext h s p := by
  obtain ⟨code, i, formats, hcode, hkind, hfound, rfl⟩ := p.1.code_of_machine haction
  obtain ⟨id, hfind, hpasses⟩ := hflat.passes_machine hcode hkind (by simp [hfound])
  obtain ⟨hlayout, hnames, -⟩ := s.opened_spec p .machine
  have hf := hs.opened p .machine
  rw [← hnames] at hfind
  obtain ⟨a, hok, hremarks, hp⟩ := hf.machine (s := s.coded p ⟨some id, .machine⟩)
    ⟨id, rfl, NameTable.lt_size_of_find? hfind, by simp [NameTable.nameOf_of_find? hfind, hfound]⟩
  have hplain := plain_append.2 ⟨hremarks.plain (by decide),
    ((s.opened p .machine).checkNow_among (s.coded p ⟨some id, .machine⟩)).plain (by decide)⟩
  generalize Assembly.machineRemarks _ _ ++ _ = faults at hok hplain
  obtain ⟨s', hsettle, hset⟩ := hflat.settles hs (proceeds_of_opened hp)
    (o := { s.openCode with machine := s.openCode.machine ++ faults })
    ⟨hs.quiet.own, plain_append.2 ⟨hs.quiet.machine, hplain⟩, hs.quiet.directives⟩
  refine ⟨s', _, (hpasses faults a hok).step.trans hsettle, hset.flat, hset.proceeds,
    fun hnil => ?_⟩
  obtain ⟨hbefore, hsilent⟩ := hset.silent hnil
  refine ⟨hbefore, fun f z c he hc => ?_⟩
  obtain rfl : faults = [] := (List.append_eq_nil_iff.1 hsilent.machine).2
  have hleads := hset.leads he hp.follows.layout
  have hext : a.layout.table.Extends f.layout.table := by
    rw [← hp.follows.layout]
    exact hleads.table
  obtain ⟨hlabelled, hunlabelled⟩ :=
    hf.machine_effect (s := s.coded p ⟨some id, .machine⟩) rfl hfind hfound hok
  rw [hlayout] at hlabelled hunlabelled
  unfold SourceStatement.Solved
  rw [haction, hset.counter]
  dsimp only
  cases hsymbol : p.1.symbol? with
  | none =>
      have hnone := p.1.label_toStatement_of_none p.2 s.assembly.names hsymbol
      refine ⟨_, ?_, rfl⟩
      rw [hunlabelled hnone, SymbolTable.normalize_shift, hc]
      rfl
  | some name =>
      obtain ⟨id', range, hlabel, hfind'⟩ := label_of_symbol (s := s) hsymbol
      obtain ⟨haligned, hholds, hcounter⟩ := hlabelled id' range hlabel
      -- in the end the rounded counter is the next even offset
      have hplace := he.complete.align (by decide) (haligned.trans hext)
      rw [hc] at hplace
      rw [← hp.follows.layout] at hholds
      obtain ⟨symbol, hfound', hattributes, hvalue⟩ := he.complete.holds hleads hholds
      have hshifted : (⟨c, []⟩ : Address).shift (Alignment.halfword.padding c) = ⟨evenUp c, []⟩ :=
        congrArg (fun n => (⟨n, []⟩ : Address)) (add_padding_halfword c)
      rw [hplace, hshifted] at hvalue
      refine ⟨_, ?_, rfl, symbol, ?_, hvalue, ?_⟩
      · rw [hcounter, SymbolTable.normalize_shift, hplace, hshifted]
        rfl
      · rw [he.symbol? (hset.names ▸ hp.names.find? (hnames ▸ hfind')), hfound']
      · rw [hattributes]
        rfl

/-- A statement that does nothing to the layout leaves the counter as it is. -/
theorem Flat.solves_other (hflat : s.Flat) (hs : s.Follows h) (haction : p.1.action = .other)
    (hnoStart : p.1.code? ≠ some "MACRO") : SolvesNext h s p := by
  obtain ⟨o, a, hpasses, hlearns, hquiet, hsilent⟩ := hflat.skips_other haction hnoStart
  obtain ⟨hlayout, -⟩ := s.facing_spec p
  have hp := hlearns.proceeds (hs.facing p).assembly
  obtain ⟨s', hsettle, hset⟩ := hflat.settles hs hp (hquiet hs.quiet)
  refine ⟨s', _, hpasses.step.trans hsettle, hset.flat, hset.proceeds, fun hnil => ?_⟩
  refine ⟨(hset.silent hnil).1, fun f z c he hc => ⟨c, ?_, ?_⟩⟩
  · rw [hset.counter, hlearns.layout, hlayout, hc]
  · unfold SourceStatement.Solved
    rw [haction]

/-- An EQU statement solves its equation. -/
theorem Flat.solves_equate (hflat : s.Flat) (hs : s.Follows h) (haction : p.1.action = .equate) :
    SolvesNext h s p := by
  obtain ⟨code, ⟨iname, action⟩, hcode, hkind, hfound, hequate, -⟩ :=
    p.1.code_of_directive (.inl haction)
  obtain rfl : action = .equate := hequate haction
  obtain ⟨st, s', hstep, hreads, hdirects, hp, hset⟩ :=
    hflat.settles_directive hs hcode hkind hfound
  have hf := hs.opened p .assembler
  have hlayout := (s.opened_spec p .assembler).1
  generalize s.opened p .assembler = b at hreads hdirects hp hset hf hlayout
  refine ⟨s', _, hstep, hset.flat, hset.proceeds, fun hnil => ?_⟩
  obtain ⟨hbefore, hsilent⟩ := hset.silent hnil
  refine ⟨hbefore, fun f z c he hc => ?_⟩
  obtain ⟨hgrows, hcounter, hequates⟩ :=
    hf.equate_directive hdirects (List.append_eq_nil_iff.1 hsilent.directives).2
  have hleads := hset.leads he hp.follows.layout
  have hext := (Ends.of_proceeds hs hset.proceeds he).leads.table
  rw [hs.assembly.layout, ← hlayout] at hext
  unfold SourceStatement.Solved
  rw [haction]
  refine ⟨c, by rw [hset.counter, hcounter, hlayout, hc], rfl, fun name hname => ?_⟩
  obtain ⟨id, range, hlabel, hfind⟩ := hreads.label name hname
  obtain ⟨e', hfirst, hequated⟩ := hequates id range hlabel
  cases hoperand : p.1.operand? with
  | none => simp [hreads.noOperand hoperand] at hfirst
  | some e =>
      -- the expression in the source and the one read are the same up to numbering of names
      obtain ⟨e'', hfirst', hnumbered⟩ := hreads.operand e hoperand
      obtain rfl : e' = e'' := by simpa [hfirst] using hfirst'
      obtain ⟨symbol, hsymbol, hvalue⟩ := he.complete.equates hleads hequated hext
      refine ⟨e, symbol, rfl, ?_, ?_⟩
      · rw [he.symbol? (hset.names ▸ hp.names.find? hfind), hsymbol]
      · rw [he.evaluate hnumbered (hset.names ▸ hgrows), hvalue]

/-- A DS statement solves its equations. -/
theorem Flat.solves_reserve (hflat : s.Flat) (hs : s.Follows h) (haction : p.1.action = .reserve) :
    SolvesNext h s p := by
  obtain ⟨code, ⟨iname, action⟩, hcode, hkind, hfound, -, hreserve⟩ :=
    p.1.code_of_directive (.inr haction)
  obtain rfl : action = .reserve := hreserve haction
  obtain ⟨st, s', hstep, hreads, hdirects, hp, hset⟩ :=
    hflat.settles_directive hs hcode hkind hfound
  have hf := hs.opened p .assembler
  have hlayout := (s.opened_spec p .assembler).1
  generalize s.opened p .assembler = b at hreads hdirects hp hset hf hlayout
  refine ⟨s', _, hstep, hset.flat, hset.proceeds, fun hnil => ?_⟩
  obtain ⟨hbefore, hsilent⟩ := hset.silent hnil
  refine ⟨hbefore, fun f z c he hc => ?_⟩
  obtain ⟨hgrows, ⟨e', hfirst, hreserves⟩, hholds⟩ :=
    hf.reserve_directive hdirects (List.append_eq_nil_iff.1 hsilent.directives).2
  have hleads := hset.leads he hp.follows.layout
  have hext := (Ends.of_proceeds hs hset.proceeds he).leads.table
  rw [hs.assembly.layout, ← hlayout] at hext
  obtain ⟨n, hvalue, hle, hmoved⟩ := he.complete.reserves hleads hreserves hext
  rw [hlayout, hc, hp.follows.layout] at hmoved
  unfold SourceStatement.Solved
  rw [haction]
  refine ⟨c + n, ?_, ?_, fun name hname => ?_⟩
  · rw [hset.counter, hmoved]
    rfl
  · cases hoperand : p.1.operand? with
    | none => simp [hreads.noOperand hoperand] at hfirst
    | some e =>
        obtain ⟨e'', hfirst', hnumbered⟩ := hreads.operand e hoperand
        obtain rfl : e' = e'' := by simpa [hfirst] using hfirst'
        exact ⟨e, n, rfl, by rw [he.evaluate hnumbered (hset.names ▸ hgrows), hvalue], hle, rfl⟩
  · obtain ⟨id, range, hlabel, hfind⟩ := hreads.label name hname
    obtain ⟨length, hheld⟩ := hholds id range hlabel
    obtain ⟨symbol, hsymbol, -, hplace⟩ := he.complete.holds hleads hheld
    refine ⟨symbol, ?_, ?_⟩
    · rw [he.symbol? (hset.names ▸ hp.names.find? hfind), hsymbol]
    · rw [hplace, hlayout, hc]

/-- Every statement that starts no macro solves its equations. -/
theorem Flat.solves_next (hflat : s.Flat) (hs : s.Follows h) (hnoStart : p.1.code? ≠ some "MACRO") :
    SolvesNext h s p := by
  cases haction : p.1.action with
  | machine bytes => exact hflat.solves_machine hs haction
  | equate => exact hflat.solves_equate hs haction
  | reserve => exact hflat.solves_reserve hs haction
  | other => exact hflat.solves_other hs haction hnoStart

/-- The statements of a source solve their equations one after the other. -/
theorem Flat.solves_all (hflat : s.Flat) (hs : s.Follows h) {ps : List (SourceStatement × Nat)}
    (hnoStart : ∀ p ∈ ps, p.1.code? ≠ some "MACRO") :
    ∃ s' ms, ps.foldlM step s = .ok s' ∧ s'.Flat ∧ Proceeds h s ms s' ∧ (s'.diagnostics = [] →
      s.diagnostics = [] ∧ ∀ f z c, Ends (h.makeAll ms) s' f z →
        f.layout.table.normalize s.assembly.layout.counter = ⟨c, []⟩ →
        ∃ c', f.layout.table.normalize s'.assembly.layout.counter = ⟨c', []⟩ ∧
          z.Solves c (ps.map Prod.fst) c') := by
  induction ps generalizing s h with
  | nil =>
      exact ⟨s, [], rfl, hflat, .refl hs, fun hnil => ⟨hnil, fun f z c _ hc => ⟨c, hc, .nil c⟩⟩⟩
  | cons p ps ih =>
      obtain ⟨s₁, ms₁, hok₁, hflat₁, hp₁, hsolves₁⟩ := hflat.solves_next hs (hnoStart p (by simp))
      obtain ⟨s', ms, hok, hflat', hp, hsolves⟩ :=
        ih hflat₁ hp₁.follows fun q hq => hnoStart q (by simp [hq])
      refine ⟨s', ms₁ ++ ms, by rw [List.foldlM_cons, hok₁]; exact hok, hflat', hp₁.trans hp,
        fun hnil => ?_⟩
      obtain ⟨hnil₁, hrest⟩ := hsolves hnil
      obtain ⟨hbefore, hfirst⟩ := hsolves₁ hnil₁
      refine ⟨hbefore, fun f z c he hc => ?_⟩
      rw [History.makeAll_append] at he
      -- the first statement is solved in the table of the end of the rest, which extends its own
      obtain ⟨c₁, hc₁, hsolved⟩ := hfirst f z c (.of_proceeds hp₁.follows hp he) hc
      obtain ⟨c', hc', hsolved'⟩ := hrest f z c₁ he hc₁
      exact ⟨c', hc', .cons hsolved hsolved'⟩

/-- A source whose storage has a length that is defined behind it, with a label between. -/
def forwardSource : List SourceStatement :=
  [{ label := "X", operation := "DS", operands := "N" },
    { label := "L", operation := "LR", operands := "1,1" },
    { label := "N", operation := "EQU", operands := "3" }]

theorem forwardSource_quiet :
    ∃ s, Console.processAll "OPENCODE" .off forwardSource = .ok s ∧ s.diagnostics = [] := by
  have hfirst := ((flat_start "OPENCODE" .off).passes_action
    (p := (⟨"X", "DS", "N", none⟩, 0)) (by cbv) lookup_ds.1 lookup_ds.2 ⟨1⟩ (by cbv)).2 rfl
  have hsecond (s : Session) (hs : s.Flat) := hs.passes_encoded
    (p := (⟨"L", "LR", "1,1", none⟩, 1)) (by cbv) (.inl lookup_lr.1) lookup_lr.2 ⟨4⟩
  have hthird (s : Session) (hs : s.Flat) := hs.passes_action
    (p := (⟨"N", "EQU", "3", none⟩, 2)) (by cbv) lookup_equ.1 lookup_equ.2 ⟨5⟩
  dsimp only at hfirst hsecond hthird
  rw [processAll_eq]
  unfold forwardSource
  dsimp only [List.zipIdx_cons, List.zipIdx_nil]
  rw [List.foldlM_cons, hfirst.step]
  conv in (settle _) => cbv
  show ∃ s, (List.foldlM step _ _ >>= finish) = .ok s ∧ _
  rw [List.foldlM_cons, (hsecond _ ⟨rfl, rfl, rfl, rfl⟩ (by cbv)).step]
  conv in (settle _) => cbv
  show ∃ s, (List.foldlM step _ _ >>= finish) = .ok s ∧ _
  rw [List.foldlM_cons, ((hthird _ ⟨rfl, rfl, rfl, rfl⟩ (by cbv)).1 rfl).step]
  conv in (settle _) => cbv
  refine ⟨?_, ?_, ?_⟩
  rotate_left
  · conv => lhs; cbv
  · cbv

end Session

end MacroAssembler
