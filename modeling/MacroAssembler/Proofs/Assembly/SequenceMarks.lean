import Mathlib
import MacroAssembler.Proofs.Assembly.Macros
import MacroAssembler.Proofs.Bindings
import MacroAssembler.Proofs.Results

/-!
# Where sequence symbols point

A sequence symbol in front of a statement behind the prototype marks that statement in the
definition, also if the statement is the MEND that closes it. The first statement with a symbol
counts, and there is a complaint about each later one (`Collector.Run.symbols_point_at_first`).
-/

namespace MacroAssembler

/-- The sequence symbol that a label is. -/
def Label.mark? : Label → Option NameId
  | .sequence name _ => some name
  | _ => none

namespace Collector

/-! ## The statements of a definition -/

/-- A statement that a definition receives, with the assembly that it is processed in. -/
abbrev Reception := Assembly × Statement OperandField

/-- The sequence symbols of statements, in order. -/
def symbols (received : List Reception) : List NameId := received.filterMap (·.2.label.mark?)

/-- The complaint about a statement whose sequence symbol is in front of one before it. -/
def repetition (before : List Reception) (g : Reception) : List Diagnostic :=
  match g.2.label with
  | .sequence name range =>
      if name ∈ symbols before then [⟨.duplicateSequenceSymbol, [g.1.names.nameOf name], range⟩]
      else []
  | _ => []

/-- The complaints about the statements behind some others whose sequence symbols are repeated. -/
def repetitions (before : List Reception) : List Reception → List Diagnostic
  | [] => []
  | g :: rest => repetition before g ++ repetitions (before ++ [g]) rest

/-- The number of MACRO statements that are open behind statements of a definition. -/
def openBehind (received : List Reception) : Nat :=
  received.foldl (fun depth g => depthAfter (operationName g.1 g.2.operation) depth) 1

/-- The statement is a MEND. -/
def Reception.IsMend (g : Reception) : Prop := operationName g.1 g.2.operation = some "MEND"

variable {received behind before : List Reception} {g : Reception} {a a' : Assembly}
  {st : Statement OperandField} {name : NameId} {c c' : Collector} {d : MacroDefinition}
  {fetched raised ds : List Diagnostic} {notices : List Notice} {location : Location}

theorem symbols_append (received behind : List Reception) :
    symbols (received ++ behind) = symbols received ++ symbols behind :=
  List.filterMap_append

theorem mem_symbols_snoc :
    name ∈ symbols (received ++ [g]) ↔ name ∈ symbols received ∨ g.2.label.mark? = some name := by
  simp [symbols]

theorem repetitions_snoc (before received : List Reception) (g : Reception) :
    repetitions before (received ++ [g]) =
      repetitions before received ++ repetition (before ++ received) g := by
  induction received generalizing before with
  | nil => simp [repetitions]
  | cons first rest ih => simp [repetitions, ih]

theorem openBehind_snoc (received : List Reception) (g : Reception) :
    openBehind (received ++ [g]) =
      depthAfter (operationName g.1 g.2.operation) (openBehind received) :=
  List.foldl_concat ..

/-- Only a MEND closes a definition. -/
theorem depthAfter_eq_zero {operation : Option String} {depth : Nat} (hdepth : depth ≠ 0)
    (hzero : depthAfter operation depth = 0) : operation = some "MEND" := by
  unfold depthAfter at hzero
  split at hzero
  · omega
  · split at hzero
    · assumption
    · omega

/-- A statement is blamed for its symbol if it has one that was there, and only then. -/
theorem length_repetition (before : List Reception) (g : Reception) :
    (repetition before g).length + (symbols (before ++ [g])).toFinset.card =
      (symbols before).toFinset.card + g.2.label.mark?.toList.length := by
  obtain ⟨a, st⟩ := g
  unfold repetition
  dsimp only
  split
  · rename_i name range hlabel
    have hsymbols : symbols (before ++ [(a, st)]) = symbols before ++ [name] := by
      simp [symbols, hlabel, Label.mark?]
    have hset : (symbols before ++ [name]).toFinset = insert name (symbols before).toFinset := by
      ext other
      simp
    rw [hsymbols, hset, hlabel]
    by_cases hmem : name ∈ symbols before
    · rw [if_pos hmem, Finset.insert_eq_of_mem (List.mem_toFinset.2 hmem)]
      exact Nat.add_comm 1 _
    · rw [if_neg hmem, Finset.card_insert_of_notMem (mt List.mem_toFinset.1 hmem)]
      exact Nat.zero_add _
  · rename_i hlabel
    have hmark : st.label.mark? = none := by
      unfold Label.mark?
      split
      · exact absurd ‹_› (hlabel _ _)
      · rfl
    have hsymbols : symbols (before ++ [(a, st)]) = symbols before := by
      simp [symbols, hmark]
    simp [hsymbols, hmark]

/-- There are as many complaints as there are statements with a symbol beyond the first one of each
name. -/
theorem length_repetitions (received : List Reception) :
    (repetitions [] received).length + (symbols received).toFinset.card =
      (symbols received).length := by
  induction received using List.reverseRecOn with
  | nil => rfl
  | append_singleton received g ih =>
      have hstep := length_repetition received g
      have hlength : (symbols (received ++ [g])).length =
          (symbols received).length + g.2.label.mark?.toList.length := by
        rw [symbols_append, List.length_append]
        cases hmark : g.2.label.mark? <;> simp [symbols, hmark]
      rw [repetitions_snoc, List.nil_append, List.length_append, hlength]
      omega

/-! ## What the marks say -/

/-- The marks of a definition, and the complaints that were raised, tell where the sequence symbols
of the statements behind the prototype are. -/
structure MarksFirst (behind : List Reception) (marks : Bindings NameId SequenceMark)
    (raised : List Diagnostic) : Prop where
  nodup : marks.keys.Nodup
  /-- The symbols of the statements are marked, and no others. -/
  binds (name : NameId) : marks.binds name = true ↔ name ∈ symbols behind
  /-- A mark is at the first statement that has the symbol, and at the place where that statement
  was processed. -/
  first {name : NameId} {mark : SequenceMark} : marks.get? name = some mark →
    ∃ g, behind[mark.offset]? = some g ∧ g.2.label.mark? = some name ∧
      mark.location = g.1.location ∧ name ∉ symbols (behind.take mark.offset)
  /-- There is a complaint about each later statement that has the symbol. -/
  repeated : raised.filter (·.code == .duplicateSequenceSymbol) = repetitions [] behind

namespace MarksFirst

theorem nil (location : Location) :
    MarksFirst [] ({ location : MacroDefinition }).marks [] where
  nodup := List.nodup_nil
  binds name := by simp [Bindings.binds, Bindings.get?, symbols]
  first h := by simp [Bindings.get?] at h
  repeated := rfl

variable {marks : Bindings NameId SequenceMark} {codes : List DiagnosticCode}

/-- Complaints about anything else do not matter. -/
theorem complain (h : MarksFirst behind marks raised) (hds : Among codes ds)
    (hcodes : .duplicateSequenceSymbol ∉ codes) : MarksFirst behind marks (raised ++ ds) where
  nodup := h.nodup
  binds := h.binds
  first := h.first
  repeated := by
    have hnone : ds.filter (·.code == .duplicateSequenceSymbol) = [] := by
      refine List.filter_eq_nil_iff.2 fun d hd heq => hcodes ?_
      rw [← beq_iff_eq.1 heq]
      exact hds d hd
    rw [List.filter_append, hnone, List.append_nil, h.repeated]

/-- A mark stays where it is when another statement follows. -/
theorem first_snoc (h : MarksFirst behind marks raised) (g : Reception) {mark : SequenceMark}
    (hget : marks.get? name = some mark) :
    ∃ g', (behind ++ [g])[mark.offset]? = some g' ∧ g'.2.label.mark? = some name ∧
      mark.location = g'.1.location ∧ name ∉ symbols ((behind ++ [g]).take mark.offset) := by
  obtain ⟨g', hat, hmark, hlocation, hfirst⟩ := h.first hget
  have hlt : mark.offset < behind.length := (List.getElem?_eq_some_iff.1 hat).1
  refine ⟨g', ?_, hmark, hlocation, ?_⟩
  · rw [List.getElem?_append_left hlt, hat]
  · rw [List.take_append_of_le_length hlt.le]
    exact hfirst

/-- A statement without a new symbol is not marked. -/
theorem snoc_old (h : MarksFirst behind marks raised) (g : Reception)
    (hold : ∀ name, g.2.label.mark? = some name → name ∈ symbols behind)
    (hds : ds.filter (·.code == .duplicateSequenceSymbol) = repetition behind g) :
    MarksFirst (behind ++ [g]) marks (raised ++ ds) where
  nodup := h.nodup
  binds name := by
    rw [h.binds, mem_symbols_snoc]
    exact ⟨.inl, fun hmem => hmem.elim id (hold name)⟩
  first hget := h.first_snoc g hget
  repeated := by rw [List.filter_append, h.repeated, hds, repetitions_snoc, List.nil_append]

/-- A statement with a new symbol is marked. -/
theorem snoc_new (h : MarksFirst behind marks raised) (g : Reception)
    (hmark : g.2.label.mark? = some name) (hnew : name ∉ symbols behind)
    (hnone : repetition behind g = []) :
    MarksFirst (behind ++ [g]) (marks.set name ⟨g.1.location, behind.length⟩) raised where
  nodup := Bindings.nodup_keys_set h.nodup
  binds name' := by
    rw [Bindings.binds, Bindings.get?_set, mem_symbols_snoc, hmark, Option.some.injEq]
    by_cases heq : name = name'
    · simp [heq]
    · rw [if_neg heq, or_iff_left heq]
      exact h.binds name'
  first {name' mark} hget := by
    rw [Bindings.get?_set] at hget
    by_cases heq : name = name'
    · rw [if_pos heq] at hget
      cases hget
      refine ⟨g, List.getElem?_concat_length, heq ▸ hmark, rfl, ?_⟩
      rw [List.take_left, ← heq]
      exact hnew
    · rw [if_neg heq] at hget
      exact h.first_snoc g hget
  repeated := by rw [h.repeated, repetitions_snoc, List.nil_append, hnone, List.append_nil]

/-- Marking the next statement of a body keeps the account. -/
theorem mark (h : MarksFirst behind c.definition.marks (fetched ++ c.diagnostics))
    (hline : c.line = behind.length) (a : Assembly)
    (st : Statement OperandField) :
    MarksFirst (behind ++ [(a, st)]) (c.mark a st.label).definition.marks
      (fetched ++ (c.mark a st.label).diagnostics) := by
  unfold Collector.mark
  cases hlabel : st.label with
  | sequence name range =>
      have hmark : st.label.mark? = some name := by rw [hlabel, Label.mark?]
      by_cases hmem : name ∈ symbols behind
      · have hbound : c.definition.marks.binds name = true := (h.binds name).2 hmem
        simp only [hbound, if_true, Collector.complain]
        rw [← List.append_assoc]
        refine h.snoc_old (a, st) (fun name' hname' => ?_) ?_
        · cases hmark.symm.trans hname'
          exact hmem
        · simp [repetition, hlabel, hmem]
      · have hfree : c.definition.marks.binds name = false :=
          Bool.eq_false_iff.2 fun hbound => hmem ((h.binds name).1 hbound)
        simp only [hfree, Bool.false_eq_true, if_false, hline]
        exact h.snoc_new (a, st) hmark hmem (by simp [repetition, hlabel, hmem])
  | empty | ordinary | reference | concatenation =>
      have hnone : [].filter (·.code == .duplicateSequenceSymbol) = repetition behind (a, st) := by
        simp [repetition, hlabel]
      have hold := h.snoc_old (a, st) (by simp [hlabel, Label.mark?]) hnone
      rwa [List.append_nil] at hold

end MarksFirst

/-- The body of a definition is the statements behind the prototype, without the MEND that closes
it. -/
def Encloses (body : List (Statement OperandField)) (behind : List Reception) : Prop :=
  ∃ (inside : List Reception) (closing : Option Reception),
    behind = inside ++ closing.toList ∧ body = inside.map Prod.snd ∧
      (closing.isSome ↔ openBehind behind = 0) ∧ ∀ g ∈ closing, g.IsMend

/-- A statement behind the prototype is in the body, or it is the MEND that closes it. -/
theorem Encloses.offset {body : List (Statement OperandField)} (h : Encloses body behind) {i : Nat}
    (hat : behind[i]? = some g) :
    i ≤ body.length ∧ (i = body.length → g.IsMend ∧ behind.getLast? = some g) := by
  obtain ⟨inside, closing, rfl, rfl, -, hmend⟩ := h
  rw [List.length_map]
  cases closing with
  | none =>
      have hlt : i < inside.length := by simpa using (List.getElem?_eq_some_iff.1 hat).1
      exact ⟨hlt.le, fun heq => absurd heq hlt.ne⟩
  | some last =>
      have hlt : i < (inside ++ [last]).length := (List.getElem?_eq_some_iff.1 hat).1
      refine ⟨Nat.le_of_lt_succ (by simpa using hlt), fun heq => ?_⟩
      have hg : last = g := by simpa [heq] using hat
      exact ⟨hmend g (by simp [hg]), by simp [hg]⟩

/-! ## Runs -/

/-- A definition that starts at a place and is used in any way: the statements that it receives, the
complaints that are fetched from it, and the notices that it hands on. -/
inductive Run (location : Location) :
    List Reception → Collector → List Diagnostic → List Notice → Prop where
  | start (a : Assembly) : Run location [] (Collector.start a location).1 [] []
  | reading {received : List Reception} {c : Collector} {fetched : List Diagnostic}
      {notices : List Notice} (a : Assembly) (operation : Operation) :
      Run location received c fetched notices →
      Run location received (c.reading a operation).2.1 fetched notices
  | process {received : List Reception} {c c' : Collector} {fetched : List Diagnostic}
      {notices : List Notice} {a a' : Assembly} {st : Statement OperandField} :
      Run location received c fetched notices → c.process a st = .ok (c', a') →
      Run location (received ++ [(a, st)]) c' fetched notices
  | collect {received : List Reception} {c : Collector} {fetched : List Diagnostic}
      {notices : List Notice} : Run location received c fetched notices →
      Run location received c.collect.2 (fetched ++ c.collect.1) notices
  | finish {received : List Reception} {c : Collector} {fetched : List Diagnostic}
      {notices : List Notice} (a : Assembly) : Run location received c fetched notices →
      Run location received (c.finish a).1 fetched (notices ++ (c.finish a).2)

/-- What is known of a definition that has not been handed on. -/
structure Collecting (received : List Reception) (c : Collector) (raised : List Diagnostic) :
    Prop where
  undelivered : c.delivered = false
  expects : c.expectsPrototype = true ↔ received = []
  /-- The counter keeps in step with the body. -/
  line : c.line = c.definition.body.length
  depth : c.depth = openBehind received.tail
  finished : c.finished = true ↔ openBehind received.tail = 0
  encloses : Encloses c.definition.body received.tail
  marks : MarksFirst received.tail c.definition.marks raised

/-- What is known of a definition that has been handed on. -/
structure Delivered (received : List Reception) (c : Collector) (d : MacroDefinition)
    (raised : List Diagnostic) : Prop where
  delivered : c.delivered = true
  finished : c.finished = true
  line : c.line = d.body.length
  encloses : Encloses d.body received.tail
  marks : MarksFirst received.tail d.marks raised

/-- Reading an operation complains at most of a prototype. -/
theorem reading_eq (c : Collector) (a : Assembly) (operation : Operation) :
    ∃ ds, Among prototypeCodes ds ∧ (c.reading a operation).2.1 = c.complain ds := by
  unfold reading
  split
  · obtain ⟨id, ds, a', hds, -, heq⟩ := prototypeReading_eq a operation
    exact ⟨ds, hds, by rw [heq]⟩
  · exact ⟨[], among_nil, c.complain_nil.symm⟩

theorem not_mem_prototypeCodes : .duplicateSequenceSymbol ∉ prototypeCodes := by
  simp [prototypeCodes]

namespace Collecting

theorem start (location : Location) (a : Assembly) :
    Collecting [] (Collector.start a location).1 [] where
  undelivered := rfl
  expects := iff_of_true rfl rfl
  line := rfl
  depth := rfl
  finished := by simp [Collector.start, openBehind]
  encloses := ⟨[], none, rfl, rfl, by simp [openBehind], by simp⟩
  marks := .nil location

/-- A definition that is not closed has all statements behind the prototype in its body. -/
theorem body_eq (h : Collecting received c raised) (hopen : c.finished = false) :
    c.definition.body = received.tail.map Prod.snd := by
  obtain ⟨inside, closing, hbehind, hbody, hclosing, -⟩ := h.encloses
  have hnone : closing = none := by
    refine Option.not_isSome_iff_eq_none.1 fun hsome => ?_
    rw [h.finished.2 (hclosing.1 hsome)] at hopen
    cases hopen
  rw [hbody, hbehind, hnone, Option.toList_none, List.append_nil]

/-- Complaints about anything but a sequence symbol do not matter. -/
theorem complain (h : Collecting received c (fetched ++ c.diagnostics))
    (hds : Among prototypeCodes ds) :
    Collecting received (c.complain ds) (fetched ++ (c.complain ds).diagnostics) where
  undelivered := h.undelivered
  expects := h.expects
  line := h.line
  depth := h.depth
  finished := h.finished
  encloses := h.encloses
  marks := by
    show MarksFirst received.tail c.definition.marks (fetched ++ (c.diagnostics ++ ds))
    rw [← List.append_assoc]
    exact h.marks.complain hds not_mem_prototypeCodes

/-- The first statement is the prototype, which is not marked. -/
theorem readPrototype (h : Collecting [] c (fetched ++ c.diagnostics)) (a : Assembly)
    (st : Statement OperandField) :
    Collecting [(a, st)] (c.readPrototype a st).1
      (fetched ++ (c.readPrototype a st).1.diagnostics) := by
  obtain ⟨prototype, ds, a', hds, -, heq⟩ := readPrototype_eq a st
  have hcomplain := h.complain hds
  rw [heq]
  exact ⟨h.undelivered, iff_of_false Bool.false_ne_true (List.cons_ne_nil _ _), h.line, h.depth,
    h.finished, h.encloses, hcomplain.marks⟩

/-- The statements behind the prototype are marked before it is known whether they close the
definition. -/
theorem readBody (h : Collecting received c (fetched ++ c.diagnostics)) (hopen : c.finished = false)
    (hreceived : received ≠ []) (a : Assembly) (st : Statement OperandField) :
    Collecting (received ++ [(a, st)]) (c.readBody a st).1
      (fetched ++ (c.readBody a st).1.diagnostics) := by
  have hbody := h.body_eq hopen
  have htail : (received ++ [(a, st)]).tail = received.tail ++ [(a, st)] :=
    List.tail_append_of_ne_nil hreceived
  have hmarks := h.marks.mark (by rw [h.line, hbody, List.length_map]) a st
  have hdepth : openBehind (received ++ [(a, st)]).tail =
      depthAfter (operationName a st.operation) c.depth := by
    rw [htail, openBehind_snoc, h.depth]
  have hexpects : c.expectsPrototype = true ↔ received ++ [(a, st)] = [] :=
    iff_of_false (mt h.expects.1 hreceived) (by simp)
  obtain ⟨marks, ds, -, hmark⟩ := c.mark_eq a st.label
  obtain ⟨a', -, heq⟩ := c.readBody_eq a st
  rw [hmark] at hmarks heq
  rw [heq]
  dsimp only at hmarks ⊢
  split
  · rename_i hcloses
    obtain ⟨hmend, hzero⟩ := hcloses
    exact
      { undelivered := h.undelivered
        expects := hexpects
        line := h.line
        depth := hdepth.symm
        finished := iff_of_true rfl (hdepth.trans hzero)
        encloses := ⟨received.tail, some (a, st), htail, hbody,
          iff_of_true rfl (hdepth.trans hzero), by rintro g ⟨⟩; exact hmend⟩
        marks := htail ▸ hmarks }
  · rename_i hcloses
    have hbefore : c.depth ≠ 0 := by
      intro hzero
      rw [h.finished.2 (h.depth ▸ hzero)] at hopen
      cases hopen
    have hstays : openBehind (received ++ [(a, st)]).tail ≠ 0 := by
      intro hzero
      have hzero' := hdepth.symm.trans hzero
      exact hcloses ⟨depthAfter_eq_zero hbefore hzero', hzero'⟩
    exact
      { undelivered := h.undelivered
        expects := hexpects
        line := by simp [append, h.line]
        depth := hdepth.symm
        finished := iff_of_false (by simp [append, hopen]) hstays
        encloses := ⟨received.tail ++ [(a, st)], none, by simp [htail],
          by simp [append, hbody], iff_of_false (by simp) hstays, by simp⟩
        marks := htail ▸ hmarks }

/-- A definition that is open receives a statement. -/
theorem process (h : Collecting received c (fetched ++ c.diagnostics))
    (hok : c.process a st = .ok (c', a')) :
    Collecting (received ++ [(a, st)]) c' (fetched ++ c'.diagnostics) := by
  have hopen : c.finished = false := by
    refine Bool.eq_false_iff.2 fun hfinished => ?_
    rw [Collector.process, if_pos hfinished] at hok
    cases hok
  rw [process_of_open hopen] at hok
  cases hexpects : c.expectsPrototype with
  | true =>
      obtain rfl := h.expects.1 hexpects
      rw [hexpects, if_pos rfl] at hok
      rw [← show (c.readPrototype a st).1 = c' from congrArg Prod.fst (Except.ok.inj hok)]
      exact h.readPrototype a st
  | false =>
      have hreceived : received ≠ [] := fun heq => by simp [h.expects.2 heq] at hexpects
      rw [hexpects, if_neg Bool.false_ne_true] at hok
      rw [← show (c.readBody a st).1 = c' from congrArg Prod.fst (Except.ok.inj hok)]
      exact h.readBody hopen hreceived a st

/-- Ending a definition hands on what was collected. -/
theorem finish (h : Collecting received c (fetched ++ c.diagnostics)) (a : Assembly) :
    (c.finish a).2 = [.definitionFinished c.definition] ∧
      Delivered received (c.finish a).1 c.definition (fetched ++ (c.finish a).1.diagnostics) := by
  obtain ⟨ds, hds, -, hdiagnostics⟩ := c.finish_spec a
  have hmarks := h.marks.complain hds (by simp)
  rw [List.append_assoc, ← hdiagnostics] at hmarks
  have hfinish : (c.finish a).1.delivered = true ∧ (c.finish a).1.finished = true ∧
      (c.finish a).1.line = c.line ∧ (c.finish a).2 = [.definitionFinished c.definition] := by
    rw [Collector.finish, if_neg (Bool.eq_false_iff.1 h.undelivered)]
    exact ⟨rfl, rfl, rfl, rfl⟩
  obtain ⟨hdelivered, hfinished, hline, hnotices⟩ := hfinish
  exact ⟨hnotices, hdelivered, hfinished, hline.trans h.line, h.encloses, hmarks⟩

end Collecting

namespace Delivered

/-- A definition that was handed on learns nothing more from the operations that it is shown. -/
theorem reading (h : Delivered received c d (fetched ++ c.diagnostics)) (a : Assembly)
    (operation : Operation) :
    Delivered received (c.reading a operation).2.1 d
      (fetched ++ (c.reading a operation).2.1.diagnostics) := by
  obtain ⟨ds, hds, heq⟩ := c.reading_eq a operation
  have hmarks := h.marks.complain hds not_mem_prototypeCodes
  rw [List.append_assoc] at hmarks
  rw [heq]
  exact ⟨h.delivered, h.finished, h.line, h.encloses, hmarks⟩

/-- A definition is handed on once. -/
theorem finish (h : Delivered received c d raised) (a : Assembly) : c.finish a = (c, []) := by
  rw [Collector.finish, if_pos h.delivered]

/-- A definition that was handed on receives no statement. -/
theorem process_ne_ok (h : Delivered received c d raised) : c.process a st ≠ .ok (c', a') := by
  rw [Collector.process, if_pos h.finished]
  exact fun hok => by cases hok

end Delivered

/-- Receive statements, one after the other. -/
def receive (c : Collector) (received : List Reception) : Except Fault Collector :=
  received.foldlM (fun c g => (c.process g.1 g.2).map Prod.fst) c

theorem Run.receive (h : Run location received c fetched notices)
    (hok : c.receive behind = .ok c') : Run location (received ++ behind) c' fetched notices := by
  induction behind generalizing received c with
  | nil =>
      cases hok
      rwa [List.append_nil]
  | cons g rest ih =>
      rw [Collector.receive, List.foldlM_cons] at hok
      obtain ⟨next, hmap, hok⟩ := bind_eq_ok_iff.1 hok
      obtain ⟨taken, hprocess, rfl⟩ := map_eq_ok_iff.1 hmap
      have hrest := ih (h.process hprocess) hok
      rwa [List.append_assoc] at hrest

/-- A definition is being collected, or it was handed on once. -/
theorem Run.account (h : Run location received c fetched notices) :
    notices = [] ∧ Collecting received c (fetched ++ c.diagnostics) ∨
      ∃ d, notices = [.definitionFinished d] ∧
        Delivered received c d (fetched ++ c.diagnostics) := by
  induction h with
  | start a => exact .inl ⟨rfl, .start location a⟩
  | @reading received c fetched notices a operation _ ih =>
      obtain ⟨hnotices, hcollecting⟩ | ⟨d, hnotices, hdelivered⟩ := ih
      · obtain ⟨ds, hds, heq⟩ := c.reading_eq a operation
        rw [heq]
        exact .inl ⟨hnotices, hcollecting.complain hds⟩
      · exact .inr ⟨d, hnotices, hdelivered.reading a operation⟩
  | process _ hok ih =>
      obtain ⟨hnotices, hcollecting⟩ | ⟨d, -, hdelivered⟩ := ih
      · exact .inl ⟨hnotices, hcollecting.process hok⟩
      · exact absurd hok hdelivered.process_ne_ok
  | @collect received c fetched notices _ ih =>
      have hraised : fetched ++ c.collect.1 ++ c.collect.2.diagnostics = fetched ++ c.diagnostics :=
        List.append_nil _
      rw [hraised]
      obtain ⟨hnotices, h⟩ | ⟨d, hnotices, h⟩ := ih
      · exact .inl ⟨hnotices, h.undelivered, h.expects, h.line, h.depth, h.finished, h.encloses,
          h.marks⟩
      · exact .inr ⟨d, hnotices, h.delivered, h.finished, h.line, h.encloses, h.marks⟩
  | @finish received c fetched notices a _ ih =>
      obtain ⟨rfl, hcollecting⟩ | ⟨d, hnotices, hdelivered⟩ := ih
      · obtain ⟨hnotices, hdelivered⟩ := hcollecting.finish a
        exact .inr ⟨c.definition, hnotices, hdelivered⟩
      · rw [hdelivered.finish a, List.append_nil]
        exact .inr ⟨d, hnotices, hdelivered⟩

/-- In a definition that is handed on exactly the sequence symbols are marked that are in front of a
statement behind the prototype, up to and including the MEND that closes the definition. The offset
of a mark is the index in the body of the first statement that has the symbol, or the length of the
body if that is the closing MEND, and its location is the place where that statement was processed.
There is one complaint about each later statement that has the symbol, with the range of that
symbol: as many as there are statements with a symbol, less one for each name. The counter from
which the offsets are taken has counted the statements of the body. -/
theorem Run.symbols_point_at_first (h : Run location received c fetched notices)
    (hd : .definitionFinished d ∈ notices) :
    let behind := received.tail
    let complaints := (fetched ++ c.diagnostics).filter (·.code == .duplicateSequenceSymbol)
    c.line = d.body.length ∧ Encloses d.body behind ∧ d.marks.keys.Nodup ∧
      (∀ name, d.marks.binds name = true ↔ name ∈ symbols behind) ∧
      (∀ name mark, d.marks.get? name = some mark →
        ∃ g, behind[mark.offset]? = some g ∧ g.2.label.mark? = some name ∧
          mark.location = g.1.location ∧ name ∉ symbols (behind.take mark.offset) ∧
          mark.offset ≤ d.body.length ∧
          (mark.offset = d.body.length → g.IsMend ∧ behind.getLast? = some g)) ∧
      complaints = repetitions [] behind ∧
      complaints.length + (symbols behind).toFinset.card = (symbols behind).length := by
  obtain ⟨rfl, -⟩ | ⟨d', rfl, hdelivered⟩ := h.account
  · cases hd
  · cases List.mem_singleton.1 hd
    have hmarks := hdelivered.marks
    refine ⟨hdelivered.line, hdelivered.encloses, hmarks.nodup, hmarks.binds,
      fun name mark hget => ?_, hmarks.repeated, ?_⟩
    · obtain ⟨g, hat, hmark, hlocation, hfirst⟩ := hmarks.first hget
      obtain ⟨hle, hlast⟩ := hdelivered.encloses.offset hat
      exact ⟨g, hat, hmark, hlocation, hfirst, hle, hlast⟩
    · rw [hmarks.repeated]
      exact length_repetitions _

/-- A prototype, a statement and an inner MACRO and MEND, and the MEND that closes the definition.
The symbol S is in front of the statement and of the inner MEND, and U is in front of the last
one. -/
def markedStatements : List Reception :=
  let names : NameTable := .ofList ["M", "LR", "MACRO", "MEND", "S", "U"]
  let statement (line operation : Nat) (label : Label) : Reception :=
    ({ names, stack := [⟨"F", ⟨line, 0⟩⟩] },
      { label, operation := .ordinary ⟨operation⟩ {}, opcode := {}, operands := .operands [],
        range := {} })
  [statement 1 0 .empty, statement 2 1 (.sequence ⟨4⟩ {}), statement 3 2 .empty,
    statement 4 3 (.sequence ⟨4⟩ (.point ⟨4, 0⟩)), statement 5 3 (.sequence ⟨5⟩ {})]

/-- S points at the first statement of the body and U behind its end, and there is one complaint. -/
theorem markedStatements_point_at_first :
    ∃ (c : Collector) (d : MacroDefinition) (fetched : List Diagnostic) (notices : List Notice),
      Run {} markedStatements c fetched notices ∧ .definitionFinished d ∈ notices ∧
      d.marks = [(⟨4⟩, ⟨⟨"F", ⟨2, 0⟩⟩, 0⟩), (⟨5⟩, ⟨⟨"F", ⟨5, 0⟩⟩, 3⟩)] ∧
      d.body.length = 3 ∧
      (∀ name, d.marks.binds name = true ↔ name ∈ symbols markedStatements.tail) ∧
      (fetched ++ c.diagnostics).filter (·.code == .duplicateSequenceSymbol) =
        [⟨.duplicateSequenceSymbol, ["S"], .point ⟨4, 0⟩⟩] := by
  have heval : ((Collector.start {} {}).1.receive markedStatements).map
      (fun c => (c.definition.marks, c.definition.body.length)) =
      .ok ([(⟨4⟩, ⟨⟨"F", ⟨2, 0⟩⟩, 0⟩), (⟨5⟩, ⟨⟨"F", ⟨5, 0⟩⟩, 3⟩)], 3) := by cbv
  cases hreceive : (Collector.start {} {}).1.receive markedStatements with
  | error e =>
      rw [hreceive] at heval
      cases heval
  | ok c =>
      rw [hreceive] at heval
      obtain ⟨hmarks, hlength⟩ := Prod.mk.inj (Except.ok.inj heval)
      have hrun : Run {} markedStatements c [] [] := (Run.start {}).receive hreceive
      obtain ⟨-, hcollecting⟩ | ⟨d, hnotices, -⟩ := hrun.account
      · have hhanded : .definitionFinished c.definition ∈ [] ++ (c.finish {}).2 := by
          simp [(hcollecting.finish {}).1]
        have hfinish := hrun.finish {}
        obtain ⟨-, -, -, hbinds, -, hcomplaints, -⟩ := hfinish.symbols_point_at_first hhanded
        refine ⟨_, c.definition, [], _, hfinish, hhanded, hmarks, hlength, hbinds, ?_⟩
        rw [hcomplaints]
        rfl
      · cases hnotices

end Collector

end MacroAssembler
