import MacroAssembler.Proofs.Layout.Run
import MacroAssembler.Proofs.Layout.Soundness

/-!
# Moves

Whoever drives a layout makes its requests in fixed groups: a symbol whose value is not known yet
is defined and then waits at once. A move is such a group. The history of a run of moves records
what the layout itself forgets: every registration, those turned away included, the entries that
were given up, the registrations that were called circular, and the errors that were fetched.
-/

namespace MacroAssembler.Layout

variable {Work : Type}

/-- A group of requests that belong together. -/
inductive Move (Work : Type) where
  /-- Define a symbol whose value is known. -/
  | define (symbol : OrdinarySymbol)
  /-- Define a symbol whose value is found later. -/
  | declare (symbol : OrdinarySymbol) (source : Source) (range : Range)
  /-- Let work wait. -/
  | postpone (sources : List Source) (work : Work) (range : Range)
  | align (alignment : Alignment)
  | reserve (size : Int32) (alignment : Alignment)
  | reserveLater (length : OrdinaryExpr NameId) (alignment : Alignment) (range : Range)
  | takeReady
  | takeDiagnostics (names : NameTable)
  | takeEvents
  | finish

namespace Move

/-- The requests of a move, in order. -/
def requests : Move Work → List (Request Work)
  | define symbol => [.define symbol]
  | declare symbol source range =>
      [.define symbol, .takeEvents, .await (some symbol.name) [source] none range]
  | postpone sources work range => [.await none sources (some work) range]
  | align alignment => [.align alignment]
  | reserve size alignment => [.reserve size alignment]
  | reserveLater length alignment range => [.reserveLater length alignment range]
  | takeReady => [.takeReady]
  | takeDiagnostics names => [.takeDiagnostics names]
  | takeEvents => [.takeEvents]
  | finish => [.finish]

/-- The move only fetches something. -/
def Fetches : Move Work → Prop
  | takeReady | takeDiagnostics _ | takeEvents => True
  | _ => False

/-- The entry that a move registers, and the layout that it is registered in. -/
def registration? (l : Layout Work) : Move Work → Option (Layout Work × Entry Work)
  | declare symbol source range =>
      some (l.run [.define symbol, .takeEvents],
        ⟨some (.symbol symbol.name), [source], none, range⟩)
  | postpone sources work range => some (l, ⟨none, sources, some work, range⟩)
  | reserveLater length alignment range =>
      let (s, opened) := l.openSpace alignment
      some (opened, lengthEntry s length range)
  | _ => none

/-- The move keeps the contract of a layout: a symbol is defined once, with a value that waits for
nothing or with the value that its source gives, and work waits for expressions. -/
def Legal (l : Layout Work) : Move Work → Prop
  | define symbol =>
      l.table.defines symbol.name = false ∧ symbol.value ≠ .undefined ∧
        ∀ a, symbol.value = .relocatable a → a.spaces = []
  | declare symbol source _ =>
      l.table.defines symbol.name = false ∧
        ((∃ e, source = .expr e ∧ symbol.value = .undefined) ∨
          ∃ a, source = .address a ∧ symbol.value = .relocatable a ∧ l.table.Bounded a)
  | postpone sources _ _ => ∀ source ∈ sources, ∃ e, source = .expr e
  | _ => True

end Move

/-- The layout after a move. -/
def make (l : Layout Work) (m : Move Work) : Layout Work := l.run m.requests

/-- The layout after several moves. -/
def makeAll (l : Layout Work) (ms : List (Move Work)) : Layout Work := ms.foldl make l

/-- Every move of a run keeps the contract. -/
def Legal (l : Layout Work) : List (Move Work) → Prop
  | [] => True
  | m :: ms => m.Legal l ∧ Legal (l.make m) ms

@[simp] theorem makeAll_nil (l : Layout Work) : l.makeAll [] = l := rfl

@[simp] theorem makeAll_cons (l : Layout Work) (m : Move Work) (ms : List (Move Work)) :
    l.makeAll (m :: ms) = (l.make m).makeAll ms := rfl

/-- The contract for a run in two parts. -/
theorem legal_append {l : Layout Work} {ms ms' : List (Move Work)} :
    l.Legal (ms ++ ms') ↔ l.Legal ms ∧ (l.makeAll ms).Legal ms' := by
  induction ms generalizing l with
  | nil => simp [Legal]
  | cons m ms ih => simp [Legal, ih, and_assoc]

/-- A run of moves is a run of requests. -/
theorem makeAll_eq_run (l : Layout Work) (ms : List (Move Work)) :
    l.makeAll ms = l.run (ms.flatMap Move.requests) := by
  induction ms generalizing l with
  | nil => rfl
  | cons m ms ih => rw [makeAll_cons, ih, List.flatMap_cons, run_append, make]

/-- A move that registers an entry lets it wait. -/
theorem make_of_registration {l opened : Layout Work} {m : Move Work} {e : Entry Work}
    (h : m.registration? l = some (opened, e)) : l.make m = opened.await e := by
  cases m <;> simp only [Move.registration?, Option.some.injEq, Prod.mk.injEq, reduceCtorEq] at h
  all_goals
    obtain ⟨rfl, rfl⟩ := h
    rfl

/-! ## Histories -/

/-- A layout with what happened to it. -/
structure History (Work : Type) where
  layout : Layout Work := {}
  /-- All entries that were to wait, also those turned away, in the order in which they came. -/
  registered : List (Entry Work) := []
  /-- The entries that are registered and neither queued nor settled nor turned away. -/
  aside : List (Entry Work) := []
  /-- The entries of which was reported that they wait for themselves. -/
  blamed : List (Entry Work) := []
  /-- The errors that were fetched. -/
  fetched : List (Range × LayoutError) := []

namespace History

/-- All errors so far. -/
def errors (h : History Work) : List (Range × LayoutError) := h.fetched ++ h.layout.errors

/-- The entries that a move gives up. -/
def abandons (l : Layout Work) : Move Work → List (Entry Work)
  | .finish => l.settle.entries
  | _ => []

/-- The entries of which a move reports that they wait for themselves: one that it turns away, or
those given up that wait for no undefined name. -/
def blames (l : Layout Work) (m : Move Work) : List (Entry Work) :=
  match m, m.registration? l with
  | .finish, _ => l.settle.entries.filter fun e => (l.settle.undefinedNames e).isEmpty
  | _, some (opened, e) => if opened.Rejects e then [e] else []
  | _, none => []

/-- The errors that a move fetches. -/
def fetches (l : Layout Work) : Move Work → List (Range × LayoutError)
  | .takeDiagnostics _ => l.errors
  | _ => []

/-- The history after one more move. -/
def make (h : History Work) (m : Move Work) : History Work where
  layout := h.layout.make m
  registered := h.registered ++ ((m.registration? h.layout).map Prod.snd).toList
  aside := h.aside ++ abandons h.layout m
  blamed := h.blamed ++ blames h.layout m
  fetched := h.fetched ++ fetches h.layout m

/-- The history after several more moves. -/
def makeAll (h : History Work) (ms : List (Move Work)) : History Work := ms.foldl make h

@[simp] theorem makeAll_nil (h : History Work) : h.makeAll [] = h := rfl

@[simp] theorem makeAll_cons (h : History Work) (m : Move Work) (ms : List (Move Work)) :
    h.makeAll (m :: ms) = (h.make m).makeAll ms := rfl

/-- A history in two parts. -/
theorem makeAll_append (h : History Work) (ms ms' : List (Move Work)) :
    h.makeAll (ms ++ ms') = (h.makeAll ms).makeAll ms' :=
  List.foldl_append

/-- A history is about the layout of its run. -/
theorem layout_makeAll (h : History Work) (ms : List (Move Work)) :
    (h.makeAll ms).layout = h.layout.makeAll ms := by
  induction ms generalizing h with
  | nil => rfl
  | cons m ms ih => exact ih (h.make m)

/-- Only fetching keeps what was registered, given up, blamed and laid out, and forgets no
error. -/
structure Settled (h h' : History Work) : Prop where
  registered : h'.registered = h.registered
  aside : h'.aside = h.aside
  blamed : h'.blamed = h.blamed
  table : h'.layout.table = h.layout.table
  counter : h'.layout.counter = h.layout.counter
  entries : h'.layout.entries = h.layout.entries
  errors : h'.errors = h.errors

/-- Moves that only fetch keep the rest. -/
theorem settled_makeAll (h : History Work) {ms : List (Move Work)} (hms : ∀ m ∈ ms, m.Fetches) :
    h.Settled (h.makeAll ms) := by
  induction ms generalizing h with
  | nil => exact ⟨rfl, rfl, rfl, rfl, rfl, rfl, rfl⟩
  | cons m ms ih =>
      obtain ⟨hregistered, haside, hblamed, htable, hcounter, hentries, herrors⟩ :=
        ih (h.make m) fun m' hm' => hms m' (by simp [hm'])
      have hfirst : h.Settled (h.make m) := by
        have hm := hms m (by simp)
        cases m <;> simp only [Move.Fetches] at hm
        all_goals
          exact ⟨by simp [make, Move.registration?], by simp [make, abandons],
            by simp [make, blames, Move.registration?], rfl, rfl, rfl,
            by simp [errors, make, fetches, Layout.make, Move.requests, perform, takeReady,
              takeDiagnostics, takeEvents]⟩
      exact ⟨hregistered.trans hfirst.registered, haside.trans hfirst.aside,
        hblamed.trans hfirst.blamed, htable.trans hfirst.table, hcounter.trans hfirst.counter,
        hentries.trans hfirst.entries, herrors.trans hfirst.errors⟩

end History

/-- Moves that only fetch keep the contract. -/
theorem legal_of_fetches {l : Layout Work} {ms : List (Move Work)} (hms : ∀ m ∈ ms, m.Fetches) :
    l.Legal ms := by
  induction ms generalizing l with
  | nil => trivial
  | cons m ms ih =>
      refine ⟨?_, ih fun m' hm' => hms m' (by simp [hm'])⟩
      have hm := hms m (by simp)
      cases m <;> simp only [Move.Fetches] at hm
      all_goals trivial

end MacroAssembler.Layout
