import MacroAssembler.Proofs.Assembly.Calls
import MacroAssembler.Proofs.Layout.Needs

/-!
# Postponed statements

A machine statement is checked at once, or postponed until everything is known that its check needs
(`Assembly.Stocked.openCode`). Either way the check stands: it finds what it would find at any later
time (`Check.Stands.grow`).
-/

namespace MacroAssembler

open Layout (Move History works)

/-! ## Checks that stand -/

/-- A check is what it would be with the symbols as they are now, and waits for nothing. -/
structure Check.Stands (c : Check) (a : Assembly) : Prop where
  encodable : c.statement.Encodable a.names
  encoded : ∃ i, a.encoded c.statement = .ok (i, c.formats)
  settled : ∀ e ∈ c.statement.checked, a.layout.table.unknowns e = []
  diagnostics : c.diagnostics = a.checkOperands c.statement c.formats

/-- A check goes on to be what it would be when there are more names and more knowledge. -/
theorem Check.Stands.grow {c : Check} {a a' : Assembly} (h : c.Stands a)
    (hnames : a.names.Grows a'.names) (htable : a.layout.table.Extends a'.layout.table) :
    c.Stands a' where
  encodable := h.encodable.grows hnames
  encoded := by
    rw [h.encodable.encoded_grows hnames]
    exact h.encoded
  settled e he := htable.unknowns_eq_nil (h.settled e he)
  diagnostics := by
    rw [h.diagnostics]
    exact (OperandCheck.operands_congr c.formats c.statement.range fun e he =>
      htable.evaluate_eq (h.settled e he)).symm

/-- The expressions that a postponed statement needs for its check. -/
def Postponed.needs (p : Postponed) : List (OrdinaryExpr NameId) := p.statement.checked

namespace Assembly

variable {a a' : Assembly} {h : History Postponed}

/-- All postponed statements are machine statements, and are released with all that their checks
need. -/
structure Stocked (a : Assembly) : Prop where
  machine : a.layout.Carries (·.statement.opcode.kind = .machine)
  supplied : a.layout.Supplied Postponed.needs

/-- Moves keep the stock in order if what they postpone is. -/
theorem Stocked.makeAll (hst : a.Stocked) (hf : a.Follows h) {ms : List (Move Postponed)}
    (hlegal : h.layout.Legal ms) (hsupplies : h.layout.Supplies Postponed.needs ms)
    (hmachine : ∀ w ∈ ms.filterMap Move.work?, w.statement.opcode.kind = .machine)
    (hlayout : a'.layout = a.layout.makeAll ms) : a'.Stocked := by
  have hsupplied := hst.supplied
  rw [← hf.layout] at hsupplied
  refine ⟨?_, ?_⟩
  · rw [hlayout]
    exact hst.machine.makeAll hmachine
  · rw [hlayout, ← hf.layout]
    exact hf.tracked.supplied_makeAll hlegal hsupplied hsupplies

/-- The checks of released statements stand. -/
theorem Stocked.stands (hst : a.Stocked)
    (hencodable : ∀ p ∈ a.layout.ready, p.statement.Encodable a.names) :
    (a.replays a.layout.ready).map (·.statement) = a.layout.ready.map (·.statement) ∧
      ∀ c ∈ a.replays a.layout.ready, c.Stands a := by
  have hreplay (p : Postponed) (hp : p ∈ a.layout.ready) : ∃ c : Check,
      a.replay? p = some c ∧ c.statement = p.statement ∧ c.Stands a := by
    obtain ⟨i, formats, hencoded⟩ := (hencodable p hp).encoded
    refine ⟨⟨p.statement, formats, a.checkOperands p.statement formats⟩, ?_, rfl,
      hencodable p hp, ⟨i, hencoded⟩, hst.supplied.released p hp, rfl⟩
    rw [replay?, if_pos (hst.machine.released p hp), check?, hencoded]
  unfold replays
  generalize a.layout.ready = ps at hreplay
  induction ps with
  | nil => simp
  | cons p ps ih =>
      obtain ⟨c, hc, hstatement, hstands⟩ := hreplay p (by simp)
      obtain ⟨hstatements, hall⟩ := ih fun q hq => hreplay q (by simp [hq])
      rw [List.filterMap_cons_some hc]
      exact ⟨by simp [hstatement, hstatements], List.forall_mem_cons.2 ⟨hstands, hall⟩⟩

/-- Moves that ask something take no work out of the layout. -/
theorem taken_of_asks {m : Move Postponed} (hm : m.Asks) (l : Layout Postponed) :
    m.taken l = [] := by
  cases m <;> first | rfl | exact hm.elim

/-! ## Machine statements -/

section Course

variable {s : Statement OperandField} {st : Statement (List Operand)} {i : MachineInstruction}
  {formats : List OperandFormat}

/-- A machine statement is postponed if its check does not evaluate settled expressions only. -/
theorem work_checkMoves (a : Assembly) (st : Statement (List Operand)) :
    (a.checkMoves st).filterMap Move.work? =
      if st.checked.all a.isSettled then [] else [⟨st, a.stack⟩] := by
  unfold checkMoves
  simp only [isEmpty_waiting]
  split <;> rfl

/-- A machine statement is checked or postponed. -/
theorem Course.accounts (hc : Course h a s st i formats a') :
    (a.checkNow? s).toList.map (·.statement) ++
      ((a.machineMoves s).filterMap Move.work?).map (·.statement) = [st] := by
  have hlabel : ((a.read s .machine).2.2.machineLabelMoves st i).filterMap Move.work? = [] :=
    List.filterMap_eq_nil_iff.2 fun m hm => (lays_machineLabelMoves _ st i m hm).work
  rw [hc.moves, hc.remarks.2, List.filterMap_append, hlabel, List.filterMap_append, work_checkMoves]
  split <;> simp [Move.work?]

/-- A machine statement that is postponed waits for all that its check needs. -/
theorem Course.supplies (hc : Course h a s st i formats a') :
    h.layout.Supplies Postponed.needs (a.machineMoves s) := by
  rw [hc.moves]
  refine Layout.supplies_append.2
    ⟨Layout.supplies_of_none fun m hm => (lays_machineLabelMoves _ st i m hm).work, ?_⟩
  rw [← History.layout_makeAll, hc.labelled.follows.layout]
  generalize ((a.read s .machine).2.2.defineMachineLabel st i).2 = b
  refine Layout.supplies_append.2 ⟨?_, Layout.supplies_of_none (by simp [Move.work?])⟩
  unfold checkMoves
  dsimp only
  split
  · trivial
  · refine ⟨⟨fun source hsource => ?_, fun e he => ?_⟩, trivial, trivial⟩
    · obtain ⟨e, he, rfl⟩ := List.mem_map.1 hsource
      exact ⟨e, (List.mem_filter.1 he).1, rfl⟩
    by_cases hsettled : b.isSettled e = true
    · exact .inl (List.isEmpty_iff.1 hsettled)
    · refine .inr (List.mem_map.2 ⟨e, List.mem_filter.2 ⟨he, by simpa using hsettled⟩, rfl⟩)

/-- The check that is made at once stands. -/
theorem Course.stands (hc : Course h a s st i formats a') :
    ∀ c ∈ (a.checkNow? s).toList, c.Stands a' := by
  intro c hmem
  rw [hc.remarks.2] at hmem
  split at hmem
  · rename_i hall
    obtain rfl := List.mem_singleton.1 hmem
    refine Check.Stands.grow ⟨hc.encodable, ⟨i, hc.kept⟩, fun e he => ?_, rfl⟩ hc.checked.names
      hc.checked.table
    exact List.isEmpty_iff.1 (List.all_eq_true.1 hall e he)
  · simp at hmem

end Course

/-! ## Statements of open code -/

/-- The machine statement that open code handles, with its operands read. -/
def openHandled (a : Assembly) (s : Statement OperandField) : List (Statement (List Operand)) :=
  match s.opcode.kind with
  | .machine => [(a.read s .machine).1]
  | _ => []

/-- What open code does with a statement: a machine statement is checked at once, and the check
stands, or it is postponed in good order. -/
theorem Stocked.openCode (hst : a.Stocked) (hf : a.Follows h) {s : Statement OperandField}
    (hmachine : s.opcode.kind = .machine → s.Encodable a.names)
    {o o' : OpenCode} {notices : List Notice} (hok : o.process a s = .ok (o', a', notices))
    (hp : Proceeds h a (a.openMoves s) a') :
    a'.Stocked ∧ (∀ c ∈ a.openChecks s, c.Stands a') ∧
      ∃ new : List Postponed, a'.layout.stored = a.layout.stored + new ∧
        (a.openChecks s).map (·.statement) ++ new.map (·.statement) = a.openHandled s := by
  have hlayout : a'.layout = a.layout.makeAll (a.openMoves s) := by
    rw [← hf.layout, ← History.layout_makeAll, hp.follows.layout]
  have hstored : a'.layout.stored =
      a.layout.stored + ((a.openMoves s).filterMap Move.work? : List Postponed) := by
    rw [hlayout]
    exact Layout.stored_makeAll fun m hm => taken_of_asks (hp.asks m hm)
  -- without work the moves leave the stock as it is
  have hidle (hchecks : a.openChecks s = []) (hnone : a.openHandled s = [])
      (hwork : ∀ m ∈ a.openMoves s, m.work? = none) :
      a'.Stocked ∧ (∀ c ∈ a.openChecks s, c.Stands a') ∧
        ∃ new : List Postponed, a'.layout.stored = a.layout.stored + new ∧
          (a.openChecks s).map (·.statement) ++ new.map (·.statement) = a.openHandled s := by
    have hnil : (a.openMoves s).filterMap Move.work? = [] := List.filterMap_eq_nil_iff.2 hwork
    refine ⟨hst.makeAll hf hp.legal (Layout.supplies_of_none hwork) (by simp [hnil]) hlayout,
      by simp [hchecks], [], ?_, by simp [hchecks, hnone]⟩
    rw [hstored, hnil]
  cases hkind : s.opcode.kind with
  | machine =>
      obtain ⟨st, i, formats, a'', hc⟩ := hf.course (hmachine hkind)
      obtain rfl : a'' = a' := by
        unfold OpenCode.process at hok
        simp only [hkind, hc.processed] at hok
        cases hok
        rfl
      have hmoves : a.openMoves s = a.machineMoves s := by simp only [openMoves, hkind]
      have hchecks : a.openChecks s = (a.checkNow? s).toList := by simp only [openChecks, hkind]
      have hhandled : a.openHandled s = [st] := by simp only [openHandled, hkind, hc.statement]
      have haccounts := hc.accounts
      rw [hmoves] at hlayout hstored hp
      rw [hchecks, hhandled]
      refine ⟨hst.makeAll hf hp.legal hc.supplies (fun w hw => ?_) hlayout, hc.stands, _, hstored,
        haccounts⟩
      have hmem : w.statement ∈ [st] := by
        rw [← haccounts]
        exact List.mem_append_right _ (List.mem_map_of_mem hw)
      rw [List.mem_singleton.1 hmem, ← hc.statement]
      exact (congrArg Opcode.kind (s.opcode_read .machine a.names)).trans hkind
  | assembler =>
      refine hidle (by simp only [openChecks, hkind]) (by simp only [openHandled, hkind]) ?_
      simp only [openMoves, hkind]
      exact fun m hm => (a.lays_directiveMoves s m hm).work
  | conditional | definedMacro | undefined =>
      exact hidle (by simp only [openChecks, hkind]) (by simp only [openHandled, hkind])
        (by simp [openMoves, hkind])

end Assembly

end MacroAssembler
