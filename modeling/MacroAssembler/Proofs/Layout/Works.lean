import MacroAssembler.Proofs.Layout.Moves

/-!
# What waiting work is like

Work only passes through a layout: what is waiting or released was postponed before. A property
of all work that is postponed is therefore a property of all work that is fetched
(`Carries.make`).
-/

namespace MacroAssembler.Layout

variable {Work : Type} {P : Work → Prop} {l : Layout Work}

/-- All work in a layout has a property. -/
structure Carries (l : Layout Work) (P : Work → Prop) : Prop where
  waiting : ∀ e ∈ l.entries, ∀ w, e.work = some w → P w
  released : ∀ w ∈ l.ready, P w

/-- The work that a move lets wait. -/
def Move.work? : Move Work → Option Work
  | postpone _ work _ => some work
  | _ => none

/-- An entry that a move registers has the work of the move. -/
theorem Move.work_of_registration {m : Move Work} {opened : Layout Work} {e : Entry Work}
    (h : m.registration? l = some (opened, e)) : e.work = m.work? := by
  cases m <;> simp only [registration?, Option.some.injEq, Prod.mk.injEq, reduceCtorEq] at h
  all_goals
    obtain ⟨rfl, rfl⟩ := h
    rfl

namespace Carries

/-- A property that follows holds as well. -/
theorem imp {Q : Work → Prop} (h : l.Carries P) (himp : ∀ w, P w → Q w) : l.Carries Q :=
  ⟨fun e he w hw => himp w (h.waiting e he w hw), fun w hw => himp w (h.released w hw)⟩

/-- A step moves work from the entries to what is released. -/
theorem step {l' : Layout Work} (hstep : Step l l') (h : l.Carries P) : l'.Carries P := by
  cases hstep with
  | pad => exact ⟨h.waiting, h.released⟩
  | complete before e after hentries =>
      have hsub : (before ++ after).Sublist l.entries := by
        rw [hentries]
        exact (List.sublist_cons_self e after).append_left before
      refine ⟨fun e' he' => h.waiting e' (hsub.subset he'), fun w hw => ?_⟩
      simp only [ready_complete, List.mem_append, Option.mem_toList] at hw
      rcases hw with hw | hw
      · exact h.released w hw
      · exact h.waiting e (by simp [hentries]) w hw

theorem settle (h : l.Carries P) : l.settle.Carries P :=
  settle_induction (fun _ _ => step) h

/-- Letting an entry wait whose work has the property. -/
theorem await {e : Entry Work} (h : l.Carries P) (hwork : ∀ w, e.work = some w → P w) :
    (l.await e).Carries P := by
  by_cases hrejects : l.Rejects e
  · obtain ⟨event, hawait⟩ := await_of_rejects hrejects
    rw [hawait]
    exact ⟨h.waiting, h.released⟩
  · rw [await_of_accepts hrejects]
    refine settle ⟨fun e' he' => ?_, h.released⟩
    rcases List.mem_append.1 he' with he' | he'
    · exact h.waiting e' he'
    · obtain rfl := List.mem_singleton.1 he'
      exact hwork

/-- Aligning the counter leaves all work where it is. -/
theorem align (h : l.Carries P) (alignment : Alignment) : (l.align alignment).2.Carries P := by
  obtain ⟨hentries, hready, -⟩ := l.align_frame alignment
  exact ⟨hentries ▸ h.waiting, hready ▸ h.released⟩

/-- A definition leaves the property of the work as it is. -/
theorem define (h : l.Carries P) (symbol : OrdinarySymbol) :
    (l.perform (.define symbol)).Carries P := by
  cases hdef : l.table.defines symbol.name with
  | true => rwa [perform_define_of_defines hdef]
  | false =>
      rw [perform_define hdef]
      exact settle ⟨h.waiting, h.released⟩

/-- A move keeps a property of all work that the work it postpones has as well. -/
theorem make (h : l.Carries P) {m : Move Work} (hwork : ∀ w, m.work? = some w → P w) :
    (l.make m).Carries P := by
  cases hreg : m.registration? l with
  | some found =>
      obtain ⟨opened, e⟩ := found
      rw [make_of_registration hreg]
      refine await ?_ (Move.work_of_registration hreg ▸ hwork)
      cases m <;> simp only [Move.registration?, Option.some.injEq, Prod.mk.injEq,
        reduceCtorEq] at hreg
      case declare symbol source range =>
        obtain ⟨rfl, -⟩ := hreg
        have hdefine := h.define symbol
        exact ⟨hdefine.waiting, hdefine.released⟩
      case postpone =>
        obtain ⟨rfl, -⟩ := hreg
        exact h
      case reserveLater length alignment range =>
        obtain ⟨rfl, -⟩ := hreg
        have halign := h.align alignment
        exact ⟨halign.waiting, halign.released⟩
  | none =>
      cases m with
      | define symbol => exact h.define symbol
      | align alignment => exact h.align alignment
      | reserve size alignment =>
          have halign := h.align alignment
          exact ⟨halign.waiting, halign.released⟩
      | takeReady => exact ⟨h.waiting, by simp [Layout.make, Move.requests, perform, takeReady]⟩
      | takeDiagnostics | takeEvents => exact ⟨h.waiting, h.released⟩
      | finish => exact ⟨by simp [Layout.make, Move.requests, perform, finish], h.settle.released⟩
      | declare | postpone | reserveLater => simp [Move.registration?] at hreg

/-- A run keeps a property of all work that the work it postpones has as well. -/
theorem makeAll (h : l.Carries P) {ms : List (Move Work)}
    (hwork : ∀ w ∈ ms.filterMap Move.work?, P w) : (l.makeAll ms).Carries P := by
  induction ms generalizing l with
  | nil => exact h
  | cons m ms ih =>
      refine ih (h.make fun w hw => ?_) fun w hw => ?_
      · exact hwork w (by simp [hw])
      · cases hm : m.work? <;> exact hwork w (by simp_all)

end Carries

end MacroAssembler.Layout
