import MacroAssembler.Proofs.Layout.Journal
import MacroAssembler.Proofs.Layout.Tracking

/-!
# Sound at every moment

A layout is sound not only between the requests of a legal run, but at every moment of the settling
behind them too (`History.Tracked.sound_story`). So no entry ever waits for the length of a space
that has one, and completing an entry gives no space a second length.
-/

namespace MacroAssembler.Layout

variable {Work : Type}

/-! ## Moments of settling -/

section Settling

variable {l m : Layout Work}

/-- A walk comes to its moments step by step. -/
theorem steps_of_mem_walkMoments {kept rest : List (Entry Work)}
    (h : m ∈ l.walkMoments kept rest) : Steps { l with entries := kept ++ rest } m := by
  induction rest generalizing l kept with
  | nil => simp [walkMoments] at h
  | cons e rest ih =>
      rw [walkMoments] at h
      split at h
      · rename_i hsettled
        have hstep := Step.complete { l with entries := kept ++ e :: rest } kept e rest rfl hsettled
        rw [complete_with_entries] at hstep
        rcases List.mem_cons.1 h with rfl | h
        · exact .single hstep
        · exact .head hstep (ih (l := l.complete e) h)
      · simpa using ih h

/-- A pass comes to its moments step by step. -/
theorem steps_of_mem_passMoments (h : m ∈ l.passMoments) : Steps l m := by
  rcases List.mem_cons.1 h with rfl | h
  · exact settle_spaces_steps l
  · exact (settle_spaces_steps l).trans (steps_of_mem_walkMoments h)

/-- Settling comes to its moments step by step. -/
theorem steps_of_mem_settleMoments (h : m ∈ l.settleMoments) : Steps l m := by
  induction l using settle.induct with
  | case1 l hlt ih =>
      rw [settleMoments, if_pos hlt] at h
      rcases List.mem_append.1 h with h | h
      · exact steps_of_mem_passMoments h
      · exact (pass_steps l).trans (ih h)
  | case2 l hlt =>
      rw [settleMoments, if_neg hlt, List.append_nil] at h
      exact steps_of_mem_passMoments h

end Settling

/-- No entry waits for the length of a space that has one. -/
theorem Sound.length_eq_none {l : Layout Work} {aside : List (Entry Work)} (h : l.Sound aside)
    {e : Entry Work} (he : e ∈ l.entries) {s : SpaceId} (htarget : e.target = some (.space s)) :
    l.table.length? s = none := by
  have hfits := h.fits e (List.mem_append_left _ he)
  cases hfits with
  | length _ hnone =>
      cases htarget
      exact hnone
  | work | value | place => simp at htarget

/-! ## Moments of a run -/

/-- A symbol that is defined is added to the layout that settles. -/
theorem eq_of_settled_define {l l' : Layout Work} {symbol : OrdinarySymbol}
    (h : l.settled? (.define symbol) = some l') : l' = l.addSymbol symbol := by
  simp only [settled?, Option.ite_none_left_eq_some, Option.some.injEq] at h
  exact h.2.symm

/-- An entry that waits is queued in the layout that settles. -/
theorem eq_of_settled_await {l l' : Layout Work} {target : Option NameId} {sources : List Source}
    {work : Option Work} {range : Range}
    (h : l.settled? (.await target sources work range) = some l') :
    l' = l.enqueue ⟨target.map .symbol, sources, work, range⟩ := by
  simp only [settled?, Option.ite_none_left_eq_some, Option.some.injEq] at h
  exact h.2.symm

namespace Journal

variable {j k : Journal Work}

/-- The story of a run in two parts. -/
theorem story_append (j : Journal Work) (rs rs' : List (Request Work)) :
    j.story (rs ++ rs') = j.story rs ++ (rs.foldl perform j).story rs' := by
  induction rs generalizing j with
  | nil => rfl
  | cons r rs ih => rw [List.cons_append, story, ih, story, List.append_assoc, List.foldl_cons]

/-- The layout of a request is sound at every moment, if the one that it settles is, and the one
that it leads to. -/
theorem sound_moments {r : Request Work} {aside : List (Entry Work)}
    (hopened : ∀ l, j.layout.settled? r = some l → ∃ aside, l.Sound aside)
    (hperform : (j.layout.perform r).Sound aside) (hk : k ∈ j.moments r) :
    ∃ aside, k.layout.Sound aside := by
  rcases List.mem_append.1 hk with hk | hk
  · cases hsettled : j.layout.settled? r with
    | none => simp [hsettled] at hk
    | some l =>
        rw [hsettled] at hk
        obtain ⟨m, hm, rfl⟩ := List.mem_map.1 hk
        obtain ⟨aside, hsound⟩ := hopened l hsettled
        rcases List.mem_cons.1 hm with rfl | hm
        · exact ⟨aside, hsound⟩
        · exact ⟨aside, (hsound.steps (steps_of_mem_settleMoments hm)).1⟩
  · obtain rfl := List.mem_singleton.1 hk
    exact ⟨aside, hperform⟩

end Journal

namespace History.Tracked

variable {h : History Work} {j k : Journal Work}

/-- A legal move is sound at every moment. -/
theorem sound_story_make (ht : h.Tracked) {m : Move Work} (hlegal : m.Legal h.layout)
    (hj : j.layout = h.layout) (hk : k ∈ j.story m.requests) : ∃ aside, k.layout.Sound aside := by
  have hmade : (h.layout.make m).Sound _ := (ht.make hlegal).sound
  -- a move that is one request
  have hsingle {r : Request Work} (hr : m.requests = [r])
      (hopened : ∀ l, h.layout.settled? r = some l → ∃ aside, l.Sound aside) :
      ∃ aside, k.layout.Sound aside := by
    rw [hr, Journal.story, Journal.story, List.append_nil] at hk
    rw [Layout.make, hr, run_cons, run_nil] at hmade
    exact Journal.sound_moments (hj ▸ hopened) (hj ▸ hmade) hk
  cases m with
  | define symbol =>
      obtain ⟨hfresh, hvalue, hspaces⟩ := hlegal
      refine hsingle rfl fun l hl => ?_
      exact ⟨_, eq_of_settled_define hl ▸ (ht.define hfresh hvalue hspaces).sound⟩
  | declare symbol source range =>
      have hadded := (ht.declare range hlegal.1 hlegal.2).sound
      have hqueued := (ht.setAside hlegal rfl).enqueue rfl
      rw [← hj] at hadded hqueued hmade
      have hdefined := hadded.settle.1
      rw [← perform_define (hj ▸ hlegal.1)] at hdefined
      have hfetched : ((j.layout.perform (.define symbol)).perform .takeEvents).Sound _ :=
        hdefined.regroup rfl hdefined.counter (.refl _)
      have hawaited : (((j.layout.perform (.define symbol)).perform .takeEvents).perform
          (.await (some symbol.name) [source] none range)).Sound _ := hmade
      simp only [Move.requests, Journal.story, List.append_nil, List.mem_append] at hk
      rcases hk with hk | hk | hk
      · exact Journal.sound_moments (fun l hl => ⟨_, eq_of_settled_define hl ▸ hadded⟩) hdefined hk
      · exact Journal.sound_moments (fun l hl => by cases hl) hfetched hk
      · exact Journal.sound_moments (fun l hl => ⟨_, eq_of_settled_await hl ▸ hqueued⟩) hawaited hk
  | postpone sources work range =>
      refine hsingle rfl fun l hl => ?_
      exact ⟨_, eq_of_settled_await hl ▸ (ht.setAside hlegal rfl).enqueue rfl⟩
  | reserveLater length alignment range =>
      refine hsingle rfl fun l hl => ?_
      simp only [settled?, Option.ite_none_left_eq_some, Option.some.injEq] at hl
      obtain ⟨-, rfl⟩ := hl
      exact ⟨_, (ht.setAside hlegal rfl).enqueue rfl⟩
  | finish =>
      refine hsingle rfl fun l hl => ?_
      cases hl
      exact ⟨_, ht.sound⟩
  | align | reserve | takeReady | takeDiagnostics | takeEvents =>
      exact hsingle rfl fun l hl => by cases hl

/-- A legal run is sound at every moment. -/
theorem sound_story (ht : h.Tracked) {ms : List (Move Work)} (hlegal : h.layout.Legal ms)
    (hj : j.layout = h.layout) (hk : k ∈ j.story (ms.flatMap Move.requests)) :
    ∃ aside, k.layout.Sound aside := by
  induction ms generalizing h j with
  | nil => simp [Journal.story] at hk
  | cons m ms ih =>
      rw [List.flatMap_cons, Journal.story_append] at hk
      rcases List.mem_append.1 hk with hk | hk
      · exact ht.sound_story_make hlegal.1 hj hk
      · refine ih (ht.make hlegal.1) hlegal.2 ?_ hk
        rw [Journal.layout_foldl_perform, hj]
        rfl

end History.Tracked

end MacroAssembler.Layout
