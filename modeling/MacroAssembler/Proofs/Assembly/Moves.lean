import MacroAssembler.Assembly.OpenCode
import MacroAssembler.Proofs.Assembly.Checks
import MacroAssembler.Proofs.Field.Growth
import MacroAssembler.Proofs.Layout.Circularity
import MacroAssembler.Proofs.Layout.Works

/-!
# What statements ask of the layout

The moves of the layout that processing a statement of open code makes. An assembly follows a
history if the history is one of its layout, all names are in use that the history tells of, and
all checks that wait can be made. Every statement keeps an assembly following
(`Follows.machine`, `Follows.directive`).
-/

namespace MacroAssembler

open Layout (Move History)

/-! ## Statements that can be checked -/

/-- The operation code of a statement is a known instruction. -/
def Statement.Encodable {Operands : Type} (names : NameTable) (s : Statement Operands) : Prop :=
  ∃ id, s.opcode.name = some id ∧ id.index < names.size ∧
    (Instruction.encoded? (names.nameOf id)).isSome = true

/-- A known instruction stays known. -/
theorem Statement.Encodable.grows {Operands : Type} {names names' : NameTable}
    {s : Statement Operands} (h : s.Encodable names) (hgrows : names.Grows names') :
    s.Encodable names' := by
  obtain ⟨id, hid, hlt, hencoded⟩ := h
  exact ⟨id, hid, hgrows.lt_size hlt, by rwa [hgrows.nameOf hlt]⟩

/-- The name of an instruction is no number. -/
theorem Instruction.exists_letter_of_encoded? {name : String}
    (h : (Instruction.encoded? name).isSome = true) :
    ∃ c ∈ (Text.upper name).toList, c.isDigit = false := by
  have hmachine : ∀ i ∈ machineTable, (Text.upper i.name).toList.any (!·.isDigit) = true := by
    decide
  have hmnemonic : ∀ m ∈ mnemonicTable, (Text.upper m.name).toList.any (!·.isDigit) = true := by
    decide
  have hfound : (Text.upper name).toList.any (!·.isDigit) = true := by
    unfold encoded? at h
    split at h
    · rename_i m hm
      have hsame : Text.upper m.name = Text.upper name := by
        simpa [Text.sameLetters] using List.find?_some hm
      exact hsame ▸ hmnemonic m (List.mem_of_find?_eq_some hm)
    · rw [Option.isSome_map] at h
      obtain ⟨i, hi⟩ := Option.isSome_iff_exists.1 h
      have hsame : Text.upper i.name = Text.upper name := by
        simpa [Text.sameLetters] using List.find?_some hi
      exact hsame ▸ hmachine i (List.mem_of_find?_eq_some hi)
  simpa using hfound

/-- What is called like an instruction is in use: the text of a number without a name is the
number itself. -/
theorem NameTable.lt_size_of_encoded? {t : NameTable} {id : NameId}
    (h : (Instruction.encoded? (t.nameOf id)).isSome = true) : id.index < t.size := by
  by_contra hunknown
  have hget : t.get? id = none := List.getElem?_eq_none (by simpa [NameStore.size] using hunknown)
  have hname : t.nameOf id = toString id.index := by simp [NameStore.nameOf, hget]
  obtain ⟨c, hc, hletter⟩ := Instruction.exists_letter_of_encoded? h
  rw [hname] at hc
  obtain ⟨d, hd, rfl⟩ : ∃ d ∈ (toString id.index).toList, d.toUpper = c := by
    simpa [Text.upper] using hc
  have hdigit : d.isDigit = true := by
    refine Nat.isDigit_of_mem_toDigits (b := 10) (n := id.index) (by omega) (by omega) ?_
    simpa [Nat.toDigits] using hd
  have hsame : d.toUpper = d := by
    have hsmall : ¬ ('a'.val ≤ d.val ∧ d.val ≤ 'z'.val) := by
      simp only [Char.isDigit, Bool.and_eq_true, decide_eq_true_eq] at hdigit
      exact fun hd => absurd (UInt32.le_trans hd.1 hdigit.2) (by decide)
    exact dif_neg hsmall
  rw [hsame, hdigit] at hletter
  cases hletter

/-- A statement that can be checked has an instruction and the formats of its operands. -/
theorem Statement.Encodable.encoded {a : Assembly} {s : Statement (List Operand)}
    (h : s.Encodable a.names) : ∃ i formats, a.encoded s = .ok (i, formats) := by
  obtain ⟨id, hid, -, hsome⟩ := h
  obtain ⟨⟨i, formats⟩, hfound⟩ := Option.isSome_iff_exists.1 hsome
  exact ⟨i, formats, by simp [Assembly.encoded, hid, hfound]⟩

/-- The instruction of a statement that can be checked stays the same. -/
theorem Statement.Encodable.encoded_grows {a a' : Assembly} {s : Statement (List Operand)}
    (h : s.Encodable a.names) (hgrows : a.names.Grows a'.names) : a'.encoded s = a.encoded s := by
  obtain ⟨id, hid, hlt, -⟩ := h
  unfold Assembly.encoded
  simp only [hid]
  rw [hgrows.nameOf hlt]

/-- The check that a move postpones can be made. -/
def Layout.Move.Encodable (names : NameTable) : Move Postponed → Prop
  | postpone _ work _ => work.statement.Encodable names
  | _ => True

/-- The name that a move lets wait is in use. -/
def Layout.Move.Named (names : NameTable) : Move Postponed → Prop
  | declare symbol _ _ => symbol.name.index < names.size
  | _ => True

/-- The move changes what is laid out. The others only fetch something, or end the assembly. -/
def Layout.Move.Asks : Move Postponed → Prop
  | takeReady | takeDiagnostics _ | finish => False
  | _ => True

theorem Layout.Move.Named.grows {names names' : NameTable} {m : Move Postponed} (h : m.Named names)
    (hgrows : names.Grows names') : m.Named names' := by
  cases m with
  | declare => exact hgrows.lt_size h
  | _ => trivial

/-- The move postpones no check, and lets no symbol wait but that of the label. -/
def Layout.Move.Lays (label : Label) : Move Postponed → Prop
  | declare symbol _ _ => ∃ range, label = .ordinary symbol.name range
  | postpone _ _ _ => False
  | _ => True

/-- The name of a label is in use. -/
def Label.Named (names : NameTable) : Label → Prop
  | ordinary name _ => name.index < names.size
  | _ => True

/-- A name in use stays in use. -/
theorem Label.Named.grows {names names' : NameTable} {label : Label} (h : label.Named names)
    (hgrows : names.Grows names') : label.Named names' := by
  cases label with
  | ordinary => exact hgrows.lt_size h
  | _ => trivial

theorem Layout.Move.Lays.work {label : Label} {m : Move Postponed} (h : m.Lays label) :
    m.work? = none := by
  cases m with
  | postpone => exact h.elim
  | _ => rfl

theorem Layout.Move.Lays.named {label : Label} {names : NameTable} {m : Move Postponed}
    (h : m.Lays label) (hlabel : label.Named names) : m.Named names := by
  cases m with
  | declare symbol source range =>
      obtain ⟨place, rfl⟩ := h
      exact hlabel
  | _ => trivial

namespace Assembly

variable {a a' a'' : Assembly} {h : History Postponed} {ms ms' : List (Move Postponed)}

/-! ## Following a history -/

/-- A history of the layout of an assembly. -/
structure Follows (a : Assembly) (h : History Postponed) : Prop where
  layout : h.layout = a.layout
  run : ∃ ms, Layout.Legal ({} : Layout Postponed) ms ∧ h = History.makeAll {} ms
  carries : a.layout.Carries (·.statement.Encodable a.names)

/-- An assembly goes on from `a` to `a'` by the given moves. -/
structure Proceeds (h : History Postponed) (a : Assembly) (ms : List (Move Postponed))
    (a' : Assembly) : Prop where
  follows : a'.Follows (h.makeAll ms)
  legal : h.layout.Legal ms
  asks : ∀ m ∈ ms, m.Asks
  table : a.layout.table.Extends a'.layout.table
  names : a.names.Grows a'.names
  library : a'.library = a.library

namespace Follows

/-- What follows a history is tracked. -/
theorem tracked (hf : a.Follows h) : h.Tracked := by
  obtain ⟨ms, hlegal, rfl⟩ := hf.run
  exact Layout.tracked_makeAll hlegal

/-- Names can be added. -/
theorem grow (hf : a.Follows h) (hlayout : a'.layout = a.layout)
    (hnames : a.names.Grows a'.names) : a'.Follows h where
  layout := hf.layout.trans hlayout.symm
  run := hf.run
  carries := hlayout ▸ hf.carries.imp fun _ hw => hw.grows hnames

/-- The history goes on with a move. -/
theorem make (hf : a.Follows h) {m : Move Postponed} (hlegal : m.Legal a.layout)
    (hencodable : m.Encodable a.names) (hlayout : a'.layout = a.layout.make m)
    (hnames : a'.names = a.names) : a'.Follows (h.make m) where
  layout := by rw [hlayout, ← hf.layout]; rfl
  run := by
    obtain ⟨ms, hms, rfl⟩ := hf.run
    refine ⟨ms ++ [m], Layout.legal_append.2 ⟨hms, ?_, trivial⟩, ?_⟩
    · rw [← hf.layout, History.layout_makeAll] at hlegal
      exact hlegal
    · rw [History.makeAll_append]
      rfl
  carries := by
    rw [hlayout, hnames]
    refine hf.carries.make fun w hw => ?_
    cases m <;> cases hw
    exact hencodable

end Follows

namespace Proceeds

theorem refl (hf : a.Follows h) : Proceeds h a [] a := ⟨hf, trivial, by simp, .refl _, .refl _, rfl⟩

theorem trans (hp : Proceeds h a ms a') (hp' : Proceeds (h.makeAll ms) a' ms' a'') :
    Proceeds h a (ms ++ ms') a'' :=
  ⟨History.makeAll_append h ms ms' ▸ hp'.follows,
    Layout.legal_append.2 ⟨hp.legal, History.layout_makeAll h ms ▸ hp'.legal⟩,
    fun m hm => (List.mem_append.1 hm).elim (hp.asks m) (hp'.asks m),
    hp.table.trans hp'.table, hp.names.trans hp'.names, hp'.library.trans hp.library⟩

/-- What is changed besides the names and the layout does not count. -/
theorem congr (hp : Proceeds h a ms a') (hlayout : a''.layout = a'.layout)
    (hnames : a''.names = a'.names) (hlibrary : a''.library = a'.library) :
    Proceeds h a ms a'' :=
  ⟨hp.follows.grow hlayout (hnames ▸ .refl _), hp.legal, hp.asks, hlayout ▸ hp.table,
    hnames ▸ hp.names, hlibrary.trans hp.library⟩

/-- One move. -/
theorem make (hf : a.Follows h) {m : Move Postponed} (hasks : m.Asks)
    (hlegal : m.Legal a.layout) (hencodable : m.Encodable a.names)
    (hlayout : a'.layout = a.layout.make m) (hnames : a'.names = a.names)
    (hlibrary : a'.library = a.library) :
    Proceeds h a [m] a' := by
  refine ⟨hf.make hlegal hencodable hlayout hnames, ⟨hf.layout ▸ hlegal, trivial⟩,
    by simpa using hasks, ?_, hnames ▸ .refl _, hlibrary⟩
  have hext := hf.tracked.extends_make (m := m) (hf.layout ▸ hlegal)
  rwa [hf.layout, ← hlayout] at hext

end Proceeds

section Requests

variable (hf : a.Follows h)
include hf

/-- A request that is a move, and the events that it leaves. -/
theorem Follows.request {α : Type} {f : Layout Postponed → α × Layout Postponed}
    {m : Move Postponed} (hasks : m.Asks) (hm : (f a.layout).2 = a.layout.make m)
    (hlegal : m.Legal a.layout) (hencodable : m.Encodable a.names) :
    Proceeds h a [m, .takeEvents] (a.request f).2 := by
  have hmake : Proceeds h a [m] { a with layout := a.layout.make m } :=
    .make hf hasks hlegal hencodable rfl rfl rfl
  refine hmake.trans (.make (m := .takeEvents) hmake.follows trivial trivial trivial ?_ rfl rfl)
  show (f a.layout).2.takeEvents.2 = _
  rw [hm]
  rfl

/-- A change of the layout that is a move, and the events that it leaves. -/
theorem Follows.change {f : Layout Postponed → Layout Postponed} {m : Move Postponed}
    (hasks : m.Asks) (hm : f a.layout = a.layout.make m) (hlegal : m.Legal a.layout)
    (hencodable : m.Encodable a.names) : Proceeds h a [m, .takeEvents] (a.change f) :=
  hf.request (f := fun l => ((), f l)) hasks hm hlegal hencodable

/-- Reading the operands of a statement asks nothing of the layout. -/
theorem Follows.read (s : Statement OperandField) (form : OperandForm) :
    Among [.invalidExpression] (a.read s form).2.1 ∧ Proceeds h a [] (a.read s form).2.2 := by
  obtain ⟨hgrows, hamong⟩ := s.read_spec form a.names
  exact ⟨hamong, hf.grow rfl hgrows, trivial, by simp, .refl _, hgrows, rfl⟩

end Requests

/-! ## Labels -/

/-- The moves that define a label as an address. -/
def labelMoves (a : Assembly) (name : NameId) (range : Range) (place : Address)
    (attributes : SymbolAttributes) : List (Move Postponed) :=
  let symbol : OrdinarySymbol := ⟨name, .relocatable place, attributes, a.location⟩
  if place.hasSpaces then [.declare symbol (.address place) range, .takeEvents]
  else [.define symbol, .takeEvents]

/-- A new label is defined without complaint. -/
theorem Follows.label (hf : a.Follows h) {name : NameId} (range : Range) {place : Address}
    (attributes : SymbolAttributes) (hfresh : a.defines name = false)
    (hplace : a.layout.table.Bounded place) :
    (a.defineLabel name range place attributes).1 = [] ∧
      Proceeds h a (a.labelMoves name range place attributes)
        (a.defineLabel name range place attributes).2 := by
  let symbol : OrdinarySymbol := ⟨name, .relocatable place, attributes, a.location⟩
  have hdefine : a.layout.define symbol = .ok (a.layout.perform (.define symbol)) := by
    simp only [Layout.define, Layout.perform]
    rw [if_neg (by simpa [defines] using hfresh)]
  unfold defineLabel labelMoves
  simp only [show a.layout.define ⟨name, .relocatable place, attributes, a.location⟩ = _ from
    hdefine]
  split
  · rename_i hspaces
    let m : Move Postponed := .declare symbol (.address place) range
    have hdeclare : Proceeds h a [m] { a with layout := a.layout.make m } :=
      .make hf trivial ⟨hfresh, .inr ⟨place, rfl, rfl, hplace⟩⟩ trivial rfl rfl rfl
    exact ⟨rfl, hdeclare.trans
      (.make hdeclare.follows (m := .takeEvents) trivial trivial trivial rfl rfl rfl)⟩
  · rename_i hspaces
    refine ⟨rfl, hf.change (f := fun _ => a.layout.perform (.define symbol)) (m := .define symbol)
      trivial rfl ⟨hfresh, by simp [symbol], ?_⟩ trivial⟩
    rintro b hb
    cases hb
    simpa [Address.hasSpaces] using hspaces

/-! ## Machine instructions -/

/-- The moves that define the label of a machine statement. -/
def machineLabelMoves (a : Assembly) (s : Statement (List Operand)) (i : MachineInstruction) :
    List (Move Postponed) :=
  match s.label with
  | .ordinary name range =>
      if a.defines name then []
      else
        let (place, a) := a.request (·.align .halfword)
        [.align .halfword, .takeEvents] ++ a.labelMoves name range place (.machine i.bytes)
  | _ => []

/-- The moves that let the check of a machine statement wait. -/
def checkMoves (a : Assembly) (s : Statement (List Operand)) : List (Move Postponed) :=
  let waiting := (s.operands.flatMap Operand.machineExprs).filter fun e => !a.isSettled e
  if waiting.isEmpty then []
  else [.postpone (waiting.map .expr) ⟨s, a.stack⟩ s.range, .takeEvents]

/-- The moves that process a machine statement. -/
def machineMoves (a : Assembly) (s : Statement OperandField) : List (Move Postponed) :=
  let (s, _, a) := a.read s .machine
  match a.encoded s with
  | .error _ => []
  | .ok (i, _) =>
      a.machineLabelMoves s i ++ (a.defineMachineLabel s i).2.checkMoves s ++
        [.reserve (Int32.ofNat i.bytes) .none, .takeEvents]

/-- The next halfword is a place that the layout knows, and aligning defines no symbol. -/
theorem Follows.alignHalfword (hf : a.Follows h) {name : NameId} (hfresh : a.defines name = false) :
    let r := a.request (·.align .halfword)
    Proceeds h a [.align .halfword, .takeEvents] r.2 ∧ r.1 = r.2.layout.counter ∧
      r.2.layout.table.Bounded r.1 ∧ r.2.defines name = false := by
  have halign : Proceeds h a [.align .halfword, .takeEvents] (a.request (·.align .halfword)).2 :=
    hf.request (m := .align .halfword) trivial rfl trivial trivial
  have hplace : (a.request (·.align .halfword)).1 =
      (a.request (·.align .halfword)).2.layout.counter := Layout.align_fst a.layout .halfword
  have hbounded := halign.follows.tracked.sound.counter
  rw [halign.follows.layout, ← hplace] at hbounded
  exact ⟨halign, hplace, hbounded,
    (congrFun (Layout.defines_align a.layout .halfword) name).trans hfresh⟩

/-- A machine statement defines its label, and complains of nothing but a redefinition. -/
theorem Follows.machineLabel (hf : a.Follows h) (s : Statement (List Operand))
    (i : MachineInstruction) :
    Among [.symbolRedefinition] (a.defineMachineLabel s i).1 ∧
      Proceeds h a (a.machineLabelMoves s i) (a.defineMachineLabel s i).2 := by
  unfold defineMachineLabel machineLabelMoves
  cases s.label with
  | ordinary name range =>
      dsimp only
      by_cases hdefined : a.defines name = true
      · simp only [if_pos hdefined]
        exact ⟨by simp [redefinition], .refl hf⟩
      · simp only [if_neg hdefined]
        obtain ⟨halign, -, hbounded, hfresh⟩ := hf.alignHalfword (eq_false_of_ne_true hdefined)
        obtain ⟨hquiet, hlabelled⟩ := halign.follows.label range
          (.machine i.bytes) hfresh hbounded
        exact ⟨by simp [hquiet], halign.trans hlabelled⟩
  | empty | sequence | reference | concatenation => exact ⟨by simp, .refl hf⟩

/-- A machine statement is checked, now or later. -/
theorem Follows.check (hf : a.Follows h) {s : Statement (List Operand)} (i : MachineInstruction)
    (formats : List OperandFormat) (hs : s.Encodable a.names) :
    Among OperandCheck.codes (a.checkOrPostpone s i formats).1 ∧
      Proceeds h a (a.checkMoves s) (a.checkOrPostpone s i formats).2 := by
  unfold checkOrPostpone checkMoves
  dsimp only
  split
  · exact ⟨OperandCheck.operands_among, .refl hf⟩
  · generalize (s.operands.flatMap Operand.machineExprs).filter _ = waiting
    refine ⟨by simp, ?_⟩
    have hreport : (a.report (.checkPostponed i.name s.range waiting.length)).Follows h :=
      hf.grow rfl (.refl _)
    have hchange :=
      hreport.change (f := (·.await ⟨none, waiting.map .expr, some ⟨s, a.stack⟩, s.range⟩))
      (m := .postpone (waiting.map .expr) ⟨s, a.stack⟩ s.range) trivial rfl ?_ hs
    · exact ⟨hchange.follows, hchange.legal, hchange.asks, hchange.table, hchange.names,
        hchange.library⟩
    · intro source hsource
      obtain ⟨e, -, rfl⟩ := List.mem_map.1 hsource
      exact ⟨e, rfl⟩

/-- The course of processing a machine statement, with its operands read, up to `a'`: its label is
defined, it is checked, now or later, and takes room. -/
structure Course (h : History Postponed) (a : Assembly) (s : Statement OperandField)
    (st : Statement (List Operand)) (i : MachineInstruction) (formats : List OperandFormat)
    (a' : Assembly) : Prop where
  statement : (a.read s .machine).1 = st
  encoded : (a.read s .machine).2.2.encoded st = .ok (i, formats)
  labelled : Proceeds h a ((a.read s .machine).2.2.machineLabelMoves st i)
    ((a.read s .machine).2.2.defineMachineLabel st i).2
  encodable : st.Encodable ((a.read s .machine).2.2.defineMachineLabel st i).2.names
  kept : ((a.read s .machine).2.2.defineMachineLabel st i).2.encoded st = .ok (i, formats)
  checked : Proceeds (h.makeAll ((a.read s .machine).2.2.machineLabelMoves st i))
    ((a.read s .machine).2.2.defineMachineLabel st i).2
    (((a.read s .machine).2.2.defineMachineLabel st i).2.checkMoves st ++
      [.reserve (Int32.ofNat i.bytes) .none, .takeEvents]) a'
  processed : a.processMachine s = .ok ((a.read s .machine).2.1 ++
    ((a.read s .machine).2.2.defineMachineLabel st i).1 ++
    (((a.read s .machine).2.2.defineMachineLabel st i).2.checkOrPostpone st i formats).1, a')
  syntaxFaults : Among [.invalidExpression] (a.read s .machine).2.1
  labelFaults : Among [.symbolRedefinition] ((a.read s .machine).2.2.defineMachineLabel st i).1

/-- A machine statement with a known instruction takes its course. -/
theorem Follows.course (hf : a.Follows h) {s : Statement OperandField}
    (hs : s.Encodable a.names) :
    ∃ st i formats a', Course h a s st i formats a' := by
  obtain ⟨hamong, hread⟩ := hf.read s .machine
  have hopcode : (a.read s .machine).1.opcode = s.opcode := s.opcode_read .machine a.names
  have hencodable : (a.read s .machine).1.Encodable (a.read s .machine).2.2.names := by
    have hgrown := hs.grows hread.names
    rwa [Statement.Encodable, ← hopcode] at hgrown
  obtain ⟨i, formats, hfound⟩ := hencodable.encoded
  obtain ⟨hamong', hlabelled⟩ := hread.follows.machineLabel (a.read s .machine).1 i
  have hknown := hencodable.grows hlabelled.names
  obtain ⟨-, hchecked⟩ := hlabelled.follows.check i formats hknown
  have hreserved := hchecked.follows.request (f := (·.reserve (Int32.ofNat i.bytes) .none))
    (m := .reserve (Int32.ofNat i.bytes) .none) trivial rfl trivial trivial
  refine ⟨_, i, formats, _, rfl, hfound, hread.trans hlabelled, hknown,
    (hencodable.encoded_grows hlabelled.names).trans hfound, hchecked.trans hreserved, ?_, hamong,
    hamong'⟩
  unfold processMachine
  generalize a.read s .machine = read at hfound
  obtain ⟨st, faults, b⟩ := read
  dsimp only at hfound ⊢
  rw [hfound]
  rfl

/-- The moves of a course. -/
theorem Course.moves {s : Statement OperandField} {st : Statement (List Operand)}
    {i : MachineInstruction} {formats : List OperandFormat} (hc : Course h a s st i formats a') :
    a.machineMoves s = (a.read s .machine).2.2.machineLabelMoves st i ++
      (((a.read s .machine).2.2.defineMachineLabel st i).2.checkMoves st ++
        [.reserve (Int32.ofNat i.bytes) .none, .takeEvents]) := by
  have hstatement := hc.statement
  have hencoded := hc.encoded
  unfold machineMoves
  generalize a.read s .machine = read at hstatement hencoded
  obtain ⟨st, faults, b⟩ := read
  subst hstatement
  dsimp only at hencoded ⊢
  rw [hencoded]
  exact List.append_assoc _ _ _

/-- What a course blames its statement for: the remarks on it, and what the check finds that is not
postponed. -/
theorem Course.remarks {s : Statement OperandField} {st : Statement (List Operand)}
    {i : MachineInstruction} {formats : List OperandFormat} (hc : Course h a s st i formats a') :
    let b := ((a.read s .machine).2.2.defineMachineLabel st i).2
    a.machineRemarks s =
        (a.read s .machine).2.1 ++ ((a.read s .machine).2.2.defineMachineLabel st i).1 ∧
      a.checkNow? s =
        if st.checked.all b.isSettled then some ⟨st, formats, b.checkOperands st formats⟩
        else none := by
  have hstatement := hc.statement
  have hencoded := hc.encoded
  unfold machineRemarks Assembly.checkNow?
  generalize a.read s .machine = read at hstatement hencoded
  obtain ⟨st, faults, b⟩ := read
  subst hstatement
  dsimp only at hencoded ⊢
  rw [hencoded]
  exact ⟨rfl, rfl⟩

/-- What a machine statement can be blamed for apart from its check. -/
def remarkCodes : List DiagnosticCode := [.invalidExpression, .symbolRedefinition]

/-- A machine statement with a known instruction is processed. It is blamed by remarks on it, and by
what its check finds, if that is made at once. -/
theorem Follows.machine (hf : a.Follows h) {s : Statement OperandField}
    (hs : s.Encodable a.names) :
    ∃ a', a.processMachine s =
        .ok (a.machineRemarks s ++ (a.checkNow? s).toList.flatMap (·.diagnostics), a') ∧
      Among remarkCodes (a.machineRemarks s) ∧ Proceeds h a (a.machineMoves s) a' := by
  obtain ⟨st, i, formats, a', hc⟩ := hf.course hs
  obtain ⟨hremarks, hchecks⟩ := hc.remarks
  refine ⟨a', ?_, ?_, hc.moves ▸ hc.labelled.trans hc.checked⟩
  · rw [hc.processed, faults_checkOrPostpone, hremarks, hchecks]
    split <;> simp
  · rw [hremarks]
    exact among_append.2 ⟨hc.syntaxFaults.mono (by simp [remarkCodes]),
      hc.labelFaults.mono (by simp [remarkCodes])⟩

/-! ## Instructions to the assembler -/

/-- The moves that give a symbol the value of an expression. -/
def equateMoves (a : Assembly) (s : Statement (List Operand)) (name : NameId)
    (e : OrdinaryExpr NameId) : List (Move Postponed) :=
  let length := (operandExpr? s 1).bind a.lengthOf? |>.map fun i => i.toInt.toNat
  if a.isSettled e then
    match a.layout.table.evaluate e with
    | .error _ => []
    | .ok value => [.define ⟨name, value, .equate length, a.location⟩, .takeEvents]
  else
    [.declare ⟨name, .undefined, .equate length, a.location⟩ (.expr e) s.range, .takeEvents]

/-- The moves that reserve storage. -/
def storageMoves (a : Assembly) (s : Statement (List Operand)) (e : OrdinaryExpr NameId) :
    List (Move Postponed) :=
  if a.isSettled e then
    match a.lengthOf? e with
    | some length => [.reserve length .none, .takeEvents]
    | none => [.align .none, .takeEvents]
  else [.reserveLater e .none s.range, .takeEvents]

/-- The moves that process an EQU or a DS statement. -/
def actionMoves (a : Assembly) (s : Statement (List Operand)) :
    AssemblerAction → List (Move Postponed)
  | .equate =>
      match (a.freshLabel s).1, operandExpr? s 0 with
      | some (name, _), some e => a.equateMoves s name e
      | _, _ => []
  | .reserve =>
      match (a.freshLabel s).1, operandExpr? s 0 with
      | _, none => []
      | none, some e => a.storageMoves s e
      | some (name, range), some e =>
          let (place, length, _, b) := a.reserveStorage s e
          a.storageMoves s e ++ b.labelMoves name range place (.storage length)
  | _ => []

/-- The moves that process an instruction to the assembler. -/
def directiveMoves (a : Assembly) (s : Statement OperandField) : List (Move Postponed) :=
  let (s, _, a) := a.read s .assembler
  match Instruction.assembler? ((s.opcode.name.map a.names.nameOf).getD "") with
  | some i => a.actionMoves s i.action
  | none => []

/-- A label that is fresh is that of the statement, and is not defined. -/
theorem fresh_of_freshLabel {s : Statement (List Operand)} {name : NameId} {range : Range}
    (h : (a.freshLabel s).1 = some (name, range)) :
    s.label = .ordinary name range ∧ a.defines name = false := by
  unfold freshLabel at h
  split at h
  · rename_i heq
    split at h
    · simp at h
    · rename_i hfresh
      cases h
      exact ⟨heq, by simpa using hfresh⟩
  · simp at h

/-- What an instruction to the assembler can be blamed for. -/
def directiveCodes : List DiagnosticCode :=
  [.invalidExpression, .symbolRedefinition, .equWithoutLabel, .invalidStorageLength]

theorem freshLabel_among (a : Assembly) (s : Statement (List Operand)) :
    Among directiveCodes (a.freshLabel s).2 := by
  unfold freshLabel
  split
  · split <;> simp [redefinition, directiveCodes]
  · simp

/-- A symbol that is not defined can be defined. -/
theorem defineSymbol_of_fresh {name : NameId} (range : Range) (value : SymbolValue)
    (attributes : SymbolAttributes) (hfresh : a.defines name = false) :
    a.defineSymbol name range value attributes =
      .ok (a.change fun l => l.perform (.define ⟨name, value, attributes, a.location⟩)) := by
  have hdefine : a.layout.define ⟨name, value, attributes, a.location⟩ =
      .ok (a.layout.perform (.define ⟨name, value, attributes, a.location⟩)) := by
    simp only [Layout.define, Layout.perform]
    rw [if_neg (by simpa [defines] using hfresh)]
  unfold defineSymbol
  rw [hdefine]
  rfl

/-- A fresh symbol gets the value of an expression, now or later. -/
theorem Follows.equate (hf : a.Follows h) {s : Statement (List Operand)} {name : NameId}
    (range : Range) {e : OrdinaryExpr NameId} (hfresh : a.defines name = false) :
    Among directiveCodes (a.equate s name range e).1 ∧
      Proceeds h a (a.equateMoves s name e) (a.equate s name range e).2 := by
  unfold Assembly.equate equateMoves
  dsimp only
  generalize ((operandExpr? s 1).bind a.lengthOf?).map _ = length
  split
  · rename_i hsettled
    cases hvalue : a.layout.table.evaluate e with
    | error => exact ⟨by simp [directiveCodes], .refl hf⟩
    | ok value =>
        simp only [defineSymbol_of_fresh range value (.equate length) hfresh]
        refine ⟨by simp, hf.change (m := .define ⟨name, value, .equate length, a.location⟩)
          trivial rfl ⟨hfresh, ?_, ?_⟩ trivial⟩
        · rintro rfl
          exact SymbolTable.evaluate_ne_undefined e hvalue
        · rintro b rfl
          exact SymbolTable.spaces_of_evaluate (by simpa [isSettled] using hsettled) hvalue
  · let m : Move Postponed :=
      .declare ⟨name, .undefined, .equate length, a.location⟩ (.expr e) s.range
    have hfresh' : (a.report (.valuePostponed (a.names.nameOf name))).defines name = false := hfresh
    simp only [defineSymbol_of_fresh range .undefined (.equate length) hfresh']
    have hdeclare : Proceeds h a [m] { a with layout := a.layout.make m } :=
      .make hf trivial ⟨hfresh, .inl ⟨e, rfl, rfl⟩⟩ trivial rfl rfl rfl
    refine ⟨by simp, hdeclare.trans ?_⟩
    exact .make hdeclare.follows (m := .takeEvents) trivial trivial trivial rfl rfl rfl

/-- Storage is reserved at a place that the layout knows, and defines no symbol. -/
theorem Follows.reserveStorage (hf : a.Follows h) {s : Statement (List Operand)}
    {e : OrdinaryExpr NameId} :
    Among directiveCodes (a.reserveStorage s e).2.2.1 ∧
      Proceeds h a (a.storageMoves s e) (a.reserveStorage s e).2.2.2 ∧
      (a.reserveStorage s e).1 = a.layout.counter ∧
      (a.reserveStorage s e).2.2.2.defines = a.defines := by
  unfold Assembly.reserveStorage storageMoves
  split
  · cases hlength : a.lengthOf? e with
    | some length =>
        exact ⟨by simp, hf.request (f := (·.reserve length .none))
          (m := .reserve length .none) trivial rfl trivial trivial, rfl, rfl⟩
    | none =>
        exact ⟨by simp [directiveCodes],
          hf.request (f := (·.align .none)) (m := .align .none) trivial rfl trivial trivial,
          rfl, rfl⟩
  · refine ⟨by simp, hf.request (f := (·.reserveLater e .none s.range))
      (m := .reserveLater e .none s.range) trivial rfl trivial trivial, rfl, ?_⟩
    funext n
    exact Layout.defines_await _ _ n

/-- The place of the storage is one that the layout knows. -/
theorem Follows.bounded_reserveStorage (hf : a.Follows h) {s : Statement (List Operand)}
    {e : OrdinaryExpr NameId} :
    (a.reserveStorage s e).2.2.2.layout.table.Bounded (a.reserveStorage s e).1 := by
  obtain ⟨-, hreserved, hplace, -⟩ := hf.reserveStorage (s := s) (e := e)
  have hcounter := hf.tracked.sound.counter
  rw [hf.layout] at hcounter
  exact hplace ▸ hcounter.extends hreserved.table

/-- An EQU or a DS statement is processed. -/
theorem Follows.action (hf : a.Follows h) (s : Statement (List Operand)) :
    (Among directiveCodes (a.processEquate s).1 ∧
        Proceeds h a (a.actionMoves s .equate) (a.processEquate s).2) ∧
      Among directiveCodes (a.processReserve s).1 ∧
        Proceeds h a (a.actionMoves s .reserve) (a.processReserve s).2 := by
  have hamong := freshLabel_among a s
  constructor
  · unfold processEquate actionMoves
    cases hfresh : a.freshLabel s with
    | mk label faults =>
        rw [hfresh] at hamong
        cases label with
        | none => cases hs : s.label <;> exact ⟨by simpa [directiveCodes] using hamong, .refl hf⟩
        | some found =>
            obtain ⟨name, range⟩ := found
            obtain ⟨-, hnew⟩ := fresh_of_freshLabel (congrArg Prod.fst hfresh)
            cases hexpr : operandExpr? s 0 with
            | none => exact ⟨by simpa [directiveCodes] using hamong, .refl hf⟩
            | some e =>
                obtain ⟨hquiet, hproceeds⟩ := hf.equate (s := s) range (e := e) hnew
                exact ⟨among_append.2 ⟨hamong, hquiet⟩, hproceeds⟩
  · unfold processReserve actionMoves
    cases hfresh : a.freshLabel s with
    | mk label faults =>
        rw [hfresh] at hamong
        cases hexpr : operandExpr? s 0 with
        | none => exact ⟨by simpa [directiveCodes] using hamong, .refl hf⟩
        | some e =>
            obtain ⟨hquiet, hreserved, -, hdefines⟩ := hf.reserveStorage (s := s) (e := e)
            cases label with
            | none => exact ⟨among_append.2 ⟨hamong, hquiet⟩, hreserved⟩
            | some found =>
                obtain ⟨name, range⟩ := found
                obtain ⟨-, hnew⟩ := fresh_of_freshLabel (congrArg Prod.fst hfresh)
                obtain ⟨hquiet', hlabelled⟩ := hreserved.follows.label range
                  (.storage (a.reserveStorage s e).2.1) ((congrFun hdefines name).trans hnew)
                  hf.bounded_reserveStorage
                exact ⟨among_append.2 ⟨among_append.2 ⟨hamong, hquiet⟩, by simp [hquiet']⟩,
                  hreserved.trans hlabelled⟩

/-- An instruction to the assembler is processed. -/
theorem Follows.directive (hf : a.Follows h) (s : Statement OperandField) :
    Among directiveCodes (a.processDirective s).1 ∧
      Proceeds h a (a.directiveMoves s) (a.processDirective s).2 := by
  obtain ⟨hread', hread⟩ := hf.read s .assembler
  have hamong : Among directiveCodes (a.read s .assembler).2.1 :=
    hread'.mono (by simp [directiveCodes])
  unfold processDirective directiveMoves
  generalize a.read s .assembler = read at hamong hread
  obtain ⟨st, faults, b⟩ := read
  dsimp only at hamong hread ⊢
  obtain ⟨⟨hquiet, hequate⟩, hquiet', hreserve⟩ := hread.follows.action st
  cases hfound : Instruction.assembler? ((st.opcode.name.map b.names.nameOf).getD "") with
  | none => exact ⟨hamong, hread.congr rfl rfl rfl⟩
  | some i =>
      obtain ⟨name, action⟩ := i
      cases action with
      | equate => exact ⟨among_append.2 ⟨hamong, hquiet⟩, hread.trans hequate⟩
      | reserve => exact ⟨among_append.2 ⟨hamong, hquiet'⟩, hread.trans hreserve⟩
      | copy | other => exact ⟨hamong, hread.congr rfl rfl rfl⟩

/-! ## What is let wait -/

theorem lays_labelMoves (a : Assembly) {label : Label} {name : NameId} {range : Range}
    (hlabel : label = .ordinary name range) (place : Address) (attributes : SymbolAttributes) :
    ∀ m ∈ a.labelMoves name range place attributes, m.Lays label := by
  unfold labelMoves
  dsimp only
  split
  · simp [Move.Lays, hlabel]
  · simp [Move.Lays]

theorem lays_machineLabelMoves (a : Assembly) (s : Statement (List Operand))
    (i : MachineInstruction) : ∀ m ∈ a.machineLabelMoves s i, m.Lays s.label := by
  unfold machineLabelMoves
  split
  · rename_i hlabel
    split
    · simp
    · refine List.forall_mem_append.2 ⟨by simp [Move.Lays], ?_⟩
      exact lays_labelMoves _ hlabel _ _
  · simp

theorem lays_equateMoves (a : Assembly) {s : Statement (List Operand)} {name : NameId}
    {range : Range} (hlabel : s.label = .ordinary name range) (e : OrdinaryExpr NameId) :
    ∀ m ∈ a.equateMoves s name e, m.Lays s.label := by
  unfold equateMoves
  dsimp only
  split
  · split <;> simp [Move.Lays]
  · simp [Move.Lays, hlabel]

theorem lays_storageMoves (a : Assembly) (s : Statement (List Operand)) (e : OrdinaryExpr NameId) :
    ∀ m ∈ a.storageMoves s e, m.Lays s.label := by
  unfold storageMoves
  split
  · split <;> simp [Move.Lays]
  · simp [Move.Lays]

theorem lays_actionMoves (a : Assembly) (s : Statement (List Operand)) (action : AssemblerAction) :
    ∀ m ∈ a.actionMoves s action, m.Lays s.label := by
  unfold actionMoves
  split
  · split
    · rename_i hfresh _
      exact lays_equateMoves a (fresh_of_freshLabel hfresh).1 _
    · simp
  · split
    · simp
    · exact lays_storageMoves a s _
    · rename_i hfresh _
      refine List.forall_mem_append.2 ⟨lays_storageMoves a s _, ?_⟩
      exact lays_labelMoves _ (fresh_of_freshLabel hfresh).1 _ _
  · simp

/-- An instruction to the assembler postpones no check, and lets at most its label wait. -/
theorem lays_directiveMoves (a : Assembly) (s : Statement OperandField) :
    ∀ m ∈ a.directiveMoves s, m.Lays s.label := by
  have hlabel : (a.read s .assembler).1.label = s.label := s.label_read .assembler a.names
  unfold directiveMoves
  dsimp only
  split
  · exact hlabel ▸ lays_actionMoves _ _ _
  · simp

/-- A machine instruction lets at most its label wait, and its check. -/
theorem named_machineMoves (a : Assembly) {s : Statement OperandField} {names : NameTable}
    (hlabel : s.label.Named names) : ∀ m ∈ a.machineMoves s, m.Named names := by
  have hsame : (a.read s .machine).1.label = s.label := s.label_read .machine a.names
  unfold machineMoves checkMoves
  dsimp only
  split
  · simp
  · refine List.forall_mem_append.2 ⟨List.forall_mem_append.2 ⟨fun m hm => ?_, ?_⟩, ?_⟩
    · exact (lays_machineLabelMoves _ _ _ m hm).named (hsame ▸ hlabel)
    · split <;> simp [Move.Named]
    · simp [Move.Named]

end Assembly

end MacroAssembler
