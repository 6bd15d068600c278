import MacroAssembler.Proofs.Assembly.Macros

/-!
# Checks can be made

A check that waits carries a statement with a known instruction, whatever statements are processed
and whatever is done in between: names keep their numbers, and only machine statements with a
known instruction postpone their checks. So replaying a check always finds its instruction
(`Assembly.Keeps`).
-/

namespace MacroAssembler

open Layout (Move)

/-- The statement of every check that waits, or is released, has a known instruction. -/
def Assembly.Checkable (a : Assembly) : Prop :=
  a.layout.Carries (·.statement.Encodable a.names)

/-- An assembly goes on and keeps its library, its names, and that all checks can be made. -/
structure Assembly.Keeps (a a' : Assembly) : Prop where
  library : a'.library = a.library
  names : a.names.Grows a'.names
  checkable : a.Checkable → a'.Checkable

namespace Assembly

variable {a a' a'' : Assembly}

/-- Names can be added, and the other parts can change. -/
theorem Checkable.grow (h : a.Checkable) (hlayout : a'.layout = a.layout)
    (hnames : a.names.Grows a'.names) : a'.Checkable := by
  unfold Checkable
  rw [hlayout]
  exact h.imp fun _ hw => hw.grows hnames

namespace Keeps

theorem refl (a : Assembly) : a.Keeps a := ⟨rfl, .refl _, id⟩

theorem trans (h : a.Keeps a') (h' : a'.Keeps a'') : a.Keeps a'' :=
  ⟨h'.library.trans h.library, h.names.trans h'.names, h'.checkable ∘ h.checkable⟩

/-- Who only learns names keeps everything. -/
theorem of_learns (h : a.Learns a') : a.Keeps a' :=
  ⟨h.library, h.names, fun hc => hc.grow h.layout h.names⟩

theorem report (a : Assembly) (e : Event) : a.Keeps (a.report e) := of_learns (.report a e)

/-- A request that keeps what is known of the work. -/
theorem request {α : Type} {f : Layout Postponed → α × Layout Postponed}
    (h : a.Checkable → (f a.layout).2.Carries (·.statement.Encodable a.names)) :
    a.Keeps (a.request f).2 :=
  ⟨rfl, .refl _, fun hc => ⟨(h hc).waiting, (h hc).released⟩⟩

/-- A change of the layout that keeps what is known of the work. -/
theorem change {f : Layout Postponed → Layout Postponed}
    (h : a.Checkable → (f a.layout).Carries (·.statement.Encodable a.names)) :
    a.Keeps (a.change f) :=
  request (f := fun l => ((), f l)) h

/-- A request that is a move without work. -/
theorem move {α : Type} {f : Layout Postponed → α × Layout Postponed} {m : Move Postponed}
    (hm : (f a.layout).2 = a.layout.make m) (hwork : m.work? = none) : a.Keeps (a.request f).2 :=
  request fun hc => hm ▸ hc.make (by simp [hwork])

/-- Letting something wait whose check, if it is one, can be made. -/
theorem await {e : Entry Postponed} (he : ∀ w, e.work = some w → w.statement.Encodable a.names) :
    a.Keeps (a.change (·.await e)) :=
  change fun hc => hc.await he

end Keeps

/-- A definition that is accepted performs the request. -/
theorem eq_perform_of_define {l l' : Layout Postponed} {symbol : OrdinarySymbol}
    (h : l.define symbol = .ok l') : l' = l.perform (.define symbol) := by
  simp only [Layout.perform, h]

/-! ## Statements -/

theorem defineLabel_keeps (a : Assembly) (name : NameId) (range : Range) (place : Address)
    (attributes : SymbolAttributes) : a.Keeps (a.defineLabel name range place attributes).2 := by
  unfold defineLabel
  split
  · exact .refl a
  · rename_i layout hdefine
    have hdefined : a.Keeps (a.change fun _ => layout) :=
      .change fun hc => eq_perform_of_define hdefine ▸ hc.define _
    dsimp only
    split
    · exact hdefined.trans (Keeps.await (by simp))
    · exact hdefined

theorem defineMachineLabel_keeps (a : Assembly) (s : Statement (List Operand))
    (i : MachineInstruction) : a.Keeps (a.defineMachineLabel s i).2 := by
  unfold defineMachineLabel
  split
  · split
    · exact .refl a
    · have halign : a.Keeps (a.request (·.align .halfword)).2 :=
        .move (m := .align .halfword) rfl rfl
      exact halign.trans (defineLabel_keeps _ _ _ _ _)
  · exact .refl a

theorem checkOrPostpone_keeps {s : Statement (List Operand)} (hs : s.Encodable a.names)
    (i : MachineInstruction) (formats : List OperandFormat) :
    a.Keeps (a.checkOrPostpone s i formats).2 := by
  unfold checkOrPostpone
  dsimp only
  split
  · exact .refl a
  · refine (Keeps.report a _).trans (Keeps.await ?_)
    rintro w ⟨⟩
    exact hs

/-- A machine statement with a known instruction is processed. -/
theorem processMachine_keeps {s : Statement OperandField} (hs : s.Encodable a.names) :
    ∃ faults a', a.processMachine s = .ok (faults, a') ∧ a.Keeps a' := by
  have hread : a.Learns (a.read s .machine).2.2 := ⟨rfl, rfl, (s.read_spec .machine a.names).1⟩
  have hopcode : (a.read s .machine).1.opcode = s.opcode := s.opcode_read .machine a.names
  unfold processMachine
  generalize a.read s .machine = read at hread hopcode
  obtain ⟨st, faults, b⟩ := read
  dsimp only at hread hopcode ⊢
  have hst : st.Encodable b.names := by
    have hgrown := hs.grows hread.names
    rwa [Statement.Encodable, ← hopcode] at hgrown
  obtain ⟨i, formats, hfound⟩ := hst.encoded
  have hlabel := b.defineMachineLabel_keeps st i
  have hcheck := checkOrPostpone_keeps (hst.grows hlabel.names) i formats
  have hreserve : ((b.defineMachineLabel st i).2.checkOrPostpone st i formats).2.Keeps _ :=
    .move (f := (·.reserve (Int32.ofNat i.bytes) .none))
      (m := .reserve (Int32.ofNat i.bytes) .none) rfl rfl
  rw [hfound]
  exact ⟨_, _, rfl, (Keeps.of_learns hread).trans (hlabel.trans (hcheck.trans hreserve))⟩

theorem defineSymbol_keeps {name : NameId} {range : Range} {value : SymbolValue}
    {attributes : SymbolAttributes} (h : a.defineSymbol name range value attributes = .ok a') :
    a.Keeps a' := by
  unfold defineSymbol at h
  split at h
  · rename_i layout hdefine
    cases h
    exact .change fun hc => eq_perform_of_define hdefine ▸ hc.define _
  · cases h

theorem equate_keeps (a : Assembly) (s : Statement (List Operand)) (name : NameId) (range : Range)
    (e : OrdinaryExpr NameId) : a.Keeps (a.equate s name range e).2 := by
  unfold equate
  dsimp only
  split
  · split
    · exact .refl a
    · split
      · exact defineSymbol_keeps ‹_›
      · exact .refl a
  · split
    · exact ((Keeps.report a _).trans (defineSymbol_keeps ‹_›)).trans (Keeps.await (by simp))
    · exact .report a _

theorem reserveStorage_keeps (a : Assembly) (s : Statement (List Operand))
    (e : OrdinaryExpr NameId) : a.Keeps (a.reserveStorage s e).2.2.2 := by
  unfold reserveStorage
  split
  · split
    · exact Keeps.move (f := (·.reserve _ .none)) (m := .reserve _ .none) rfl rfl
    · exact Keeps.move (f := (·.align .none)) (m := .align .none) rfl rfl
  · exact Keeps.move (f := (·.reserveLater e .none s.range))
      (m := .reserveLater e .none s.range) rfl rfl

theorem processEquate_keeps (a : Assembly) (s : Statement (List Operand)) :
    a.Keeps (a.processEquate s).2 := by
  unfold processEquate
  split
  · split <;> exact .refl a
  · split
    · exact .refl a
    · exact equate_keeps a s _ _ _

theorem processReserve_keeps (a : Assembly) (s : Statement (List Operand)) :
    a.Keeps (a.processReserve s).2 := by
  unfold processReserve
  dsimp only
  split
  · exact .refl a
  · split
    · exact reserveStorage_keeps a s _
    · exact (reserveStorage_keeps a s _).trans (defineLabel_keeps _ _ _ _ _)

/-- Every instruction to the assembler is processed. -/
theorem processDirective_keeps (a : Assembly) (s : Statement OperandField) :
    a.Keeps (a.processDirective s).2 := by
  have hread : a.Keeps (a.read s .assembler).2.2 :=
    .of_learns ⟨rfl, rfl, (s.read_spec .assembler a.names).1⟩
  unfold processDirective
  dsimp only
  split
  · exact hread.trans (processEquate_keeps _ _)
  · exact hread.trans (processReserve_keeps _ _)
  · exact hread.trans (.report _ _)
  · exact hread.trans (.report _ _)

end Assembly
end MacroAssembler
