import MacroAssembler.Proofs.Layout.Run

/-!
# Relabelling the work

A layout carries work but never looks at it: replacing each work by another one before a run gives
the same layout as replacing it afterwards (`run_map`), and the same works are fetched
(`fetched_map`).
-/

namespace MacroAssembler

variable {Work Work' : Type}

/-- An entry with other work. -/
def Entry.map (f : Work → Work') (e : Entry Work) : Entry Work' :=
  ⟨e.target, e.sources, e.work.map f, e.range⟩

namespace Layout

variable (f : Work → Work')

/-- A layout with other works. -/
def map (l : Layout Work) : Layout Work' :=
  { table := l.table, counter := l.counter, entries := l.entries.map (·.map f),
    ready := l.ready.map f, errors := l.errors, events := l.events }

/-- A request with other work. -/
def Request.map : Request Work → Request Work'
  | .define symbol => .define symbol
  | .align alignment => .align alignment
  | .reserve size alignment => .reserve size alignment
  | .reserveLater length alignment range => .reserveLater length alignment range
  | .await target sources work range => .await target sources (work.map f) range
  | .takeReady => .takeReady
  | .takeDiagnostics names => .takeDiagnostics names
  | .takeEvents => .takeEvents
  | .finish => .finish

@[simp] theorem map_table (l : Layout Work) : (l.map f).table = l.table := rfl

@[simp] theorem map_entries (l : Layout Work) :
    (l.map f).entries = l.entries.map (·.map f) := rfl

@[simp] theorem map_ready (l : Layout Work) : (l.map f).ready = l.ready.map f := rfl

/-- An entry waits for the same unknowns, whatever its work. -/
@[simp] theorem unknowns_map (e : Entry Work) (t : SymbolTable) :
    (e.map f).unknowns t = e.unknowns t := rfl

@[simp] theorem isSettled_map (e : Entry Work) (t : SymbolTable) :
    (e.map f).isSettled t = e.isSettled t := rfl

/-! ## Settling -/

theorem map_determine (l : Layout Work) (e : Entry Work) :
    (l.map f).determine (e.map f) = (l.determine e).map f := by
  obtain ⟨target, sources, work, range⟩ := e
  unfold determine
  rcases target with _ | ⟨name⟩ | ⟨s⟩
  · rfl
  · simp only [Entry.map, map_table]
    cases sources.head? with
    | none => rfl
    | some source =>
        dsimp only
        cases l.table.evaluateSource source <;> rfl
  · simp only [Entry.map, map_table]
    rcases sources.head?.map l.table.evaluateSource with _ | _ | ⟨n | a | _⟩
    · rfl
    · rfl
    · dsimp only
      split <;> rfl
    · rfl
    · rfl

theorem map_complete (l : Layout Work) (e : Entry Work) :
    (l.map f).complete (e.map f) = (l.complete e).map f := by
  unfold complete
  rw [map_determine]
  generalize l.determine e = l
  unfold release
  cases h : e.work <;> simp [Entry.map, h, map, note]

theorem map_sweep (l : Layout Work) (es : List (Entry Work)) :
    (l.map f).sweep (es.map (·.map f)) =
      ((l.sweep es).1.map (·.map f), (l.sweep es).2.map f) := by
  induction es generalizing l with
  | nil => rfl
  | cons e es ih =>
      rw [List.map_cons, sweep, sweep, isSettled_map, map_table]
      split
      · rw [map_complete, ih]
      · rw [ih]
        rfl

theorem map_pass (l : Layout Work) : (l.map f).pass = l.pass.map f := by
  have hsweep := map_sweep f { l with table := l.table.settleSpaces } l.entries
  unfold pass
  simp only [map] at hsweep ⊢
  rw [hsweep]

theorem unsettled_map (l : Layout Work) : (l.map f).unsettled = l.unsettled := by
  simp [unsettled]

/-- Settling does not look at the work. -/
theorem map_settle (l : Layout Work) : (l.map f).settle = l.settle.map f := by
  induction l using settle.induct with
  | case1 l hlt ih =>
      rw [settle, settle.eq_def l, map_pass, unsettled_map, unsettled_map, if_pos hlt,
        if_pos hlt, ih]
  | case2 l hlt =>
      rw [settle, settle.eq_def l, map_pass, unsettled_map, unsettled_map, if_neg hlt,
        if_neg hlt]

/-! ## Requests -/

theorem waitsFor_map (l : Layout Work) : (l.map f).waitsFor = l.waitsFor := by
  funext u
  simp only [waitsFor, map_entries, map_table, List.filter_map, List.flatMap_map]
  rfl

theorem reachable_map (l : Layout Work) : (l.map f).reachable = l.reachable := by
  funext us
  have hawaited : (l.map f).awaited = l.awaited := by
    simp [awaited, List.flatMap_map]
  simp only [reachable, waitsFor_map, hawaited]

theorem map_await (l : Layout Work) (e : Entry Work) :
    (l.map f).await (e.map f) = (l.await e).map f := by
  have henqueue : (l.map f).enqueue (e.map f) = (l.enqueue e).map f := by
    simp [enqueue, map]
  by_cases h : l.Rejects e
  · obtain ⟨u, htarget, hmem⟩ := h
    unfold await
    simp only [reachable_map, unknowns_map, map_table]
    simp only [Entry.map, htarget, if_pos hmem]
    cases u <;> rfl
  · have h' : ¬ (l.map f).Rejects (e.map f) := by
      rw [Rejects, reachable_map]
      exact h
    rw [await_of_accepts h, await_of_accepts h', henqueue, map_settle]

theorem map_align (l : Layout Work) (alignment : Alignment) :
    (l.map f).align alignment = ((l.align alignment).1, (l.align alignment).2.map f) := by
  unfold align
  split
  · rfl
  · dsimp only
    have hplace : (l.map f).place = l.place := rfl
    rw [hplace]
    split <;> rfl

theorem map_reserve (l : Layout Work) (size : Int32) (alignment : Alignment) :
    (l.map f).reserve size alignment =
      ((l.reserve size alignment).1, (l.reserve size alignment).2.map f) := by
  unfold reserve
  rw [map_align]
  rfl

theorem map_reserveLater (l : Layout Work) (length : OrdinaryExpr NameId) (alignment : Alignment)
    (range : Range) : (l.map f).reserveLater length alignment range =
      ((l.reserveLater length alignment range).1,
        (l.reserveLater length alignment range).2.map f) := by
  have hawait := map_await f (l.openSpace alignment).2
    (lengthEntry (l.openSpace alignment).1 length range)
  unfold reserveLater
  rw [map_align]
  exact congrArg (Prod.mk (l.align alignment).1) hawait

/-- A symbol is defined, or turned away, whatever the work. -/
theorem map_define (l : Layout Work) (symbol : OrdinarySymbol) :
    (l.map f).define symbol = (l.define symbol).map (map f) := by
  unfold define
  rw [map_table]
  split
  · rfl
  · let table := { l.table with symbols := l.table.symbols ++ [symbol] }
    exact congrArg Except.ok (map_settle f { l with table })

theorem map_finish (l : Layout Work) : (l.map f).finish = l.finish.map f := by
  have hcomplaints (l : Layout Work) (e : Entry Work) :
      (l.map f).complaints (e.map f) = l.complaints e := by
    unfold complaints undefinedNames
    rw [reachable_map]
    rfl
  unfold finish
  simp only [map_settle, map_entries, List.flatMap_map, hcomplaints, List.map_map]
  rfl

/-- A request does not look at the work. -/
theorem map_perform (l : Layout Work) (r : Request Work) :
    (l.map f).perform (r.map f) = (l.perform r).map f := by
  cases r with
  | define symbol =>
      simp only [Request.map, perform, map_define]
      cases l.define symbol <;> rfl
  | align alignment => exact congrArg Prod.snd (map_align f l alignment)
  | reserve size alignment => exact congrArg Prod.snd (map_reserve f l size alignment)
  | reserveLater length alignment range =>
      exact congrArg Prod.snd (map_reserveLater f l length alignment range)
  | await target sources work range =>
      exact map_await f l ⟨target.map .symbol, sources, work, range⟩
  | takeReady | takeDiagnostics | takeEvents => rfl
  | finish => exact map_finish f l

/-- A run does not look at the work. -/
theorem run_map (l : Layout Work) (rs : List (Request Work)) :
    (l.map f).run (rs.map (·.map f)) = (l.run rs).map f := by
  induction rs generalizing l with
  | nil => rfl
  | cons r rs ih => rw [List.map_cons, run_cons, run_cons, map_perform, ih]

/-- The works that a run fetches are replaced one by one. -/
theorem fetched_map (l : Layout Work) (rs : List (Request Work)) :
    fetched (l.map f) (rs.map (·.map f)) = (fetched l rs).map f := by
  induction rs generalizing l with
  | nil => rfl
  | cons r rs ih =>
      have hrest := ih (l.perform r)
      rw [← map_perform] at hrest
      cases r with
      | takeReady =>
          simp only [fetched, List.map_append, List.map_cons, Request.map] at hrest ⊢
          rw [hrest]
          rfl
      | define | align | reserve | reserveLater | await | takeDiagnostics | takeEvents
      | finish => exact hrest

end Layout

end MacroAssembler
