import MacroAssembler.Layout.Requests
import MacroAssembler.Proofs.Layout.Steps

/-!
# Runs of requests

The requests that can be made to a layout as data, and the layout after a run of them. The
equations below take each request apart into the change it makes at once and the settling that
follows; later proofs use them and do not open the operations again.
-/

namespace MacroAssembler

/-- The name of the symbol that an entry determines. -/
def Entry.targetName? {Work : Type} (e : Entry Work) : Option NameId :=
  match e.target with
  | some (.symbol name) => some name
  | _ => none

namespace Layout

/-- A request to a layout. -/
inductive Request (Work : Type) where
  | define (symbol : OrdinarySymbol)
  | align (alignment : Alignment)
  | reserve (size : Int32) (alignment : Alignment)
  | reserveLater (length : OrdinaryExpr NameId) (alignment : Alignment) (range : Range)
  | await (target : Option NameId) (sources : List Source) (work : Option Work) (range : Range)
  | takeReady
  | takeDiagnostics (names : NameTable)
  | takeEvents
  | finish

variable {Work : Type}

/-- The layout after a request. -/
def perform (l : Layout Work) : Request Work → Layout Work
  | .define symbol =>
      match l.define symbol with
      | .ok l' => l'
      | .error _ => l
  | .align alignment => (l.align alignment).2
  | .reserve size alignment => (l.reserve size alignment).2
  | .reserveLater length alignment range => (l.reserveLater length alignment range).2
  | .await target sources work range => l.await ⟨target.map .symbol, sources, work, range⟩
  | .takeReady => l.takeReady.2
  | .takeDiagnostics names => (l.takeDiagnostics names).2
  | .takeEvents => l.takeEvents.2
  | .finish => l.finish

/-- The layout after several requests. -/
def run (l : Layout Work) (rs : List (Request Work)) : Layout Work := rs.foldl perform l

@[simp] theorem run_nil (l : Layout Work) : l.run [] = l := rfl

@[simp] theorem run_cons (l : Layout Work) (r : Request Work) (rs : List (Request Work)) :
    l.run (r :: rs) = (l.perform r).run rs := rfl

/-- A run in two parts. -/
theorem run_append (l : Layout Work) (rs rs' : List (Request Work)) :
    l.run (rs ++ rs') = (l.run rs).run rs' :=
  List.foldl_append

/-! ## What the requests do at once -/

/-- The target of an entry is among what its sources wait for. -/
def Rejects (l : Layout Work) (e : Entry Work) : Prop :=
  ∃ u, e.target = some u ∧ u ∈ l.reachable (e.unknowns l.table)

instance (l : Layout Work) (e : Entry Work) : Decidable (l.Rejects e) :=
  match h : e.target with
  | none => isFalse (by simp [Rejects, h])
  | some u => decidable_of_iff (u ∈ l.reachable (e.unknowns l.table)) (by simp [Rejects, h])

/-- The layout with one more entry, which nobody has looked at yet. -/
def enqueue (l : Layout Work) (e : Entry Work) : Layout Work :=
  { l with entries := l.entries ++ [e] }

/-- The layout with one more symbol, whose entries nobody has looked at yet. -/
def addSymbol (l : Layout Work) (symbol : OrdinarySymbol) : Layout Work :=
  { l with table := l.table.addSymbol symbol }

/-- The layout whose counter stands behind one more space of unknown length, and that space. -/
def openSpace (l : Layout Work) (alignment : Alignment) : SpaceId × Layout Work :=
  let aligned := (l.align alignment).2
  let (id, table) := aligned.table.addSpace .length
  (id, { aligned with table, counter := aligned.counter.behind id })

/-- The entry that waits for the length of a space. -/
def lengthEntry (s : SpaceId) (length : OrdinaryExpr NameId) (range : Range) : Entry Work :=
  ⟨some (.space s), [.expr length], none, range⟩

/-- An entry that waits for itself is turned away with an error. -/
theorem await_of_rejects {l : Layout Work} {e : Entry Work} (h : l.Rejects e) :
    ∃ event, l.await e =
      (l.note event).fail e.range (.circularDependency e.targetName?) := by
  obtain ⟨u, htarget, hmem⟩ := h
  unfold await
  simp only [htarget, if_pos hmem]
  refine ⟨.rejected u e.range, ?_⟩
  cases u <;> simp [Entry.targetName?, htarget]

/-- Any other entry waits from now on. -/
theorem await_of_accepts {l : Layout Work} {e : Entry Work} (h : ¬ l.Rejects e) :
    l.await e = (l.enqueue e).settle := by
  unfold await
  cases htarget : e.target with
  | none => rfl
  | some u =>
      have hmem : u ∉ l.reachable (e.unknowns l.table) := fun hmem => h ⟨u, htarget, hmem⟩
      simp only [if_neg hmem]
      rfl

/-- A symbol that is defined already is not defined again. -/
theorem perform_define_of_defines {l : Layout Work} {symbol : OrdinarySymbol}
    (h : l.table.defines symbol.name = true) : l.perform (.define symbol) = l := by
  simp [perform, define, h]

/-- A new symbol is added to the table. -/
theorem perform_define {l : Layout Work} {symbol : OrdinarySymbol}
    (h : l.table.defines symbol.name = false) :
    l.perform (.define symbol) = (l.addSymbol symbol).settle := by
  simp [perform, define, h, addSymbol, SymbolTable.addSymbol]

/-- A storage area of unknown length is a space that waits for its length. -/
theorem perform_reserveLater (l : Layout Work) (length : OrdinaryExpr NameId)
    (alignment : Alignment) (range : Range) :
    l.perform (.reserveLater length alignment range) =
      (l.openSpace alignment).2.await (lengthEntry (l.openSpace alignment).1 length range) := rfl

/-- Reserving storage moves the counter behind the aligned place. -/
theorem perform_reserve (l : Layout Work) (size : Int32) (alignment : Alignment) :
    l.perform (.reserve size alignment) =
      { (l.align alignment).2 with counter := (l.align alignment).2.counter.shift size } := rfl

/-! ## Alignment -/

/-- All that aligning the counter can do: the counter stays, moves to a known place, or moves
behind a padding whose length is not known. -/
inductive Aligns (l : Layout Work) (alignment : Alignment) : Address → Layout Work → Prop where
  | stay : alignment.boundary ≤ 1 → Aligns l alignment l.counter l
  | known : 1 < alignment.boundary → l.place.spaces = [] →
      Aligns l alignment (l.place.shift (alignment.padding l.place.offset))
        { l with counter := l.place.shift (alignment.padding l.place.offset) }
  | padded : 1 < alignment.boundary → l.place.spaces ≠ [] →
      Aligns l alignment (l.place.behind (l.table.addSpace (.alignment l.place alignment)).1)
        { l with
          table := (l.table.addSpace (.alignment l.place alignment)).2
          counter := l.place.behind (l.table.addSpace (.alignment l.place alignment)).1 }

/-- Aligning does one of the things it can do. -/
theorem align_aligns (l : Layout Work) (alignment : Alignment) :
    Aligns l alignment (l.align alignment).1 (l.align alignment).2 := by
  unfold align
  split
  · exact .stay ‹_›
  · rename_i hboundary
    have hlt : 1 < alignment.boundary := by simpa using hboundary
    dsimp only
    split
    · exact .padded hlt (by simpa [Address.hasSpaces] using ‹l.place.hasSpaces = true›)
    · exact .known hlt (by simpa [Address.hasSpaces] using ‹¬ l.place.hasSpaces = true›)

/-- Aligning answers with the counter. -/
theorem align_fst (l : Layout Work) (alignment : Alignment) :
    (l.align alignment).1 = (l.align alignment).2.counter := by
  have h := align_aligns l alignment
  generalize (l.align alignment).1 = place at h ⊢
  generalize (l.align alignment).2 = l' at h ⊢
  cases h <;> rfl

/-- Aligning touches neither the entries nor what was released. -/
theorem align_frame (l : Layout Work) (alignment : Alignment) :
    (l.align alignment).2.entries = l.entries ∧ (l.align alignment).2.ready = l.ready ∧
      (l.align alignment).2.errors = l.errors := by
  have h := align_aligns l alignment
  generalize (l.align alignment).1 = place at h
  generalize (l.align alignment).2 = l' at h
  cases h <;> exact ⟨rfl, rfl, rfl⟩

/-- Aligning defines no symbol. -/
theorem defines_align (l : Layout Work) (alignment : Alignment) :
    (l.align alignment).2.table.defines = l.table.defines := by
  have h := align_aligns l alignment
  generalize (l.align alignment).1 = place at h
  generalize (l.align alignment).2 = l' at h
  cases h <;> rfl

/-- Aligning the counter adds knowledge. -/
theorem extends_align (l : Layout Work) (alignment : Alignment) :
    l.table.Extends (l.align alignment).2.table := by
  have haligns := align_aligns l alignment
  generalize (l.align alignment).1 = place at haligns
  generalize (l.align alignment).2 = aligned at haligns
  cases haligns with
  | stay | known => exact .refl _
  | padded => exact SymbolTable.extends_addSpace _

/-- Opening a storage area adds knowledge. -/
theorem extends_openSpace (l : Layout Work) (alignment : Alignment) :
    l.table.Extends (l.openSpace alignment).2.table :=
  (extends_align l alignment).trans (SymbolTable.extends_addSpace _)

/-! ## What is defined -/

/-- Settling defines no symbol. -/
theorem defines_settle (l : Layout Work) (n : NameId) :
    l.settle.table.defines n = l.table.defines n := by
  refine settle_induction (P := fun l' => l'.table.defines n = l.table.defines n) ?_ rfl
  intro l' l'' hstep hold
  rw [← hold]
  cases hstep with
  | pad s =>
      rcases SymbolTable.settleSpace_eq l'.table s with heq | ⟨_, _, -, -, -, heq⟩ <;> simp [heq]
  | complete before e after =>
      obtain ⟨errors, -, h⟩ := l'.complete_completes e
      show (l'.complete e).table.defines n = l'.table.defines n
      generalize (l'.complete e).table = t' at h
      cases h <;> simp

/-- Letting an entry wait defines no symbol. -/
theorem defines_await (l : Layout Work) (e : Entry Work) (n : NameId) :
    (l.await e).table.defines n = l.table.defines n := by
  by_cases hrejects : l.Rejects e
  · obtain ⟨event, hawait⟩ := await_of_rejects hrejects
    rw [hawait]
    rfl
  · rw [await_of_accepts hrejects, defines_settle]
    rfl

/-! ## What is registered -/

/-- The entry that a request asks to wait, if it asks for one. -/
def registers (l : Layout Work) : Request Work → List (Entry Work)
  | .reserveLater length alignment range => [lengthEntry (l.openSpace alignment).1 length range]
  | .await target sources work range => [⟨target.map .symbol, sources, work, range⟩]
  | _ => []

/-- The entries that the requests of a run ask to wait, in order. -/
def registrations : Layout Work → List (Request Work) → List (Entry Work)
  | _, [] => []
  | l, r :: rs => l.registers r ++ registrations (l.perform r) rs

/-- An entry that has to wait is queued behind those that still wait. -/
theorem entries_await_sublist (l : Layout Work) (e : Entry Work) :
    (l.await e).entries.Sublist (l.entries ++ [e]) := by
  by_cases hrejects : l.Rejects e
  · obtain ⟨event, hawait⟩ := await_of_rejects hrejects
    rw [hawait]
    exact List.sublist_append_left _ _
  · rw [await_of_accepts hrejects]
    exact entries_settle_sublist _

/-- A request queues its own entry behind those that still wait. -/
theorem entries_perform_sublist (l : Layout Work) (r : Request Work) :
    (l.perform r).entries.Sublist (l.entries ++ l.registers r) := by
  cases r with
  | define symbol =>
      simp only [registers, List.append_nil]
      cases hdefined : l.table.defines symbol.name with
      | true => simp [perform_define_of_defines hdefined]
      | false =>
          rw [perform_define hdefined]
          exact entries_settle_sublist (l.addSymbol symbol)
  | align alignment | reserve _ alignment =>
      simp only [registers, List.append_nil]
      exact (l.align_frame alignment).1 ▸ .refl _
  | reserveLater length alignment range =>
      have hbefore : (l.openSpace alignment).2.entries = l.entries := (l.align_frame alignment).1
      rw [perform_reserveLater, ← hbefore]
      exact entries_await_sublist _ _
  | await target sources work range => exact entries_await_sublist _ _
  | takeReady | takeDiagnostics | takeEvents =>
      simp only [registers, List.append_nil]
      exact .refl _
  | finish => exact List.nil_sublist _

/-- The entries that wait after a run are registrations of it, in the order in which they came. -/
theorem entries_run_sublist (l : Layout Work) (rs : List (Request Work)) :
    (l.run rs).entries.Sublist (l.entries ++ registrations l rs) := by
  induction rs generalizing l with
  | nil => simp [registrations]
  | cons r rs ih =>
      refine (ih (l.perform r)).trans ?_
      rw [registrations, ← List.append_assoc]
      exact (entries_perform_sublist l r).append_right _

/-! ## What is fetched -/

/-- The released work that the requests of a run fetch, in order. -/
def fetched : Layout Work → List (Request Work) → List Work
  | _, [] => []
  | l, .takeReady :: rs => l.ready ++ fetched (l.perform .takeReady) rs
  | l, r :: rs => fetched (l.perform r) rs

end Layout

end MacroAssembler
