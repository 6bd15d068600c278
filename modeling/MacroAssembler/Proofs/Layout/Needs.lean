import MacroAssembler.Proofs.Layout.Journal
import MacroAssembler.Proofs.Layout.Tracking
import MacroAssembler.Proofs.Layout.Works

/-!
# What postponed work needs

Work is postponed because expressions that it needs have no value yet. When it is released every
one of them has (`History.Tracked.supplied_make`), and no work is lost or made twice on the way
(`stored_make`).
-/

namespace MacroAssembler

/-- An expression of which everything is known waits for nothing later. -/
theorem SymbolTable.Extends.unknowns_eq_nil {t t' : SymbolTable} (h : t.Extends t')
    {x : OrdinaryExpr NameId} (hx : t.unknowns x = []) : t'.unknowns x = [] := by
  have hsource : t.unknownsOfSource (.expr x) = [] := hx
  exact h.unknownsOfSource_eq_nil hsource

namespace Layout

variable {Work : Type}

/-! ## Work that is stored -/

/-- The work that waits, and the work that is released. -/
def stored (l : Layout Work) : Multiset Work := works l.entries + l.ready

/-- The work that a request takes out of a layout: it is fetched, or given up. -/
def Request.taken (l : Layout Work) : Request Work → List Work
  | takeReady => l.ready
  | finish => works l.settle.entries
  | _ => []

@[inherit_doc Request.taken]
def Move.taken (l : Layout Work) : Move Work → List Work
  | takeReady => l.ready
  | finish => works l.settle.entries
  | _ => []

/-- A request stores the work that it is given, and takes out what it fetches or gives up. -/
theorem stored_perform (l : Layout Work) (r : Request Work) :
    (l.perform r).stored + r.taken l = l.stored + l.accepts r := by
  let j : Journal Work := ⟨l, works l.entries ++ l.ready, [], []⟩
  have hj : j.Balanced := by simp [j, Journal.Balanced]
  have hbalanced : (j.perform r).Balanced :=
    (j.path_moments r).balanced hj _ (by simp [Journal.moments])
  unfold Journal.Balanced at hbalanced
  unfold stored
  cases r <;> simpa [j, Journal.perform, Request.taken, add_assoc] using hbalanced.symm

/-- A move stores its work, and takes out what it fetches or gives up. -/
theorem stored_make (l : Layout Work) (m : Move Work) :
    (l.make m).stored + m.taken l = l.stored + m.work?.toList := by
  have hsingle {r : Request Work} (hr : m.requests = [r])
      (haccepts : l.accepts r = m.work?.toList) (htaken : r.taken l = m.taken l) :
      (l.make m).stored + m.taken l = l.stored + m.work?.toList := by
    have hrequest := l.stored_perform r
    rwa [haccepts, htaken, show l.perform r = l.make m by rw [make, hr]; rfl] at hrequest
  cases m with
  | declare symbol source range =>
      have hdefine := l.stored_perform (.define symbol)
      have hevents := (l.perform (.define symbol)).stored_perform .takeEvents
      have hawait := ((l.perform (.define symbol)).perform .takeEvents).stored_perform
        (.await (some symbol.name) [source] none range)
      simp only [accepts, Request.taken, Multiset.coe_nil, add_zero, Option.toList_none, ite_self]
        at hdefine hevents hawait
      simp [make, Move.requests, Move.taken, Move.work?, hawait, hevents, hdefine]
  | postpone sources work range =>
      exact hsingle rfl (by simp [accepts, Rejects, Move.work?]) rfl
  | _ => exact hsingle rfl rfl rfl

/-- In the end the work that is stored is released or given up. -/
theorem stored_eq_finish (l : Layout Work) :
    l.stored = ((l.make .finish).ready : Multiset Work) + works l.settle.entries := by
  have htaken := l.stored_make .finish
  change ((works [] : List Work) : Multiset Work) + (l.make .finish).ready +
    works l.settle.entries = l.stored + _ at htaken
  simpa [works, Move.work?] using htaken.symm

/-- Moves that take nothing out store their work. -/
theorem stored_makeAll {l : Layout Work} {ms : List (Move Work)}
    (htaken : ∀ m ∈ ms, ∀ l, m.taken l = []) :
    (l.makeAll ms).stored = l.stored + ms.filterMap Move.work? := by
  induction ms generalizing l with
  | nil => simp
  | cons m ms ih =>
      have hfirst := l.stored_make m
      rw [htaken m (by simp), Multiset.coe_nil, add_zero] at hfirst
      rw [makeAll_cons, ih fun m' hm' => htaken m' (by simp [hm']), hfirst, add_assoc,
        Multiset.coe_add]
      cases hwork : m.work? <;> simp [hwork]

/-! ## Work that is supplied -/

/-- Sources are expressions that work needs, and the others that it needs are known. -/
structure Serves (t : SymbolTable) (sources : List Source) (needs : List (OrdinaryExpr NameId)) :
    Prop where
  needed : ∀ source ∈ sources, ∃ x ∈ needs, source = .expr x
  known : ∀ x ∈ needs, t.unknowns x = [] ∨ .expr x ∈ sources

/-- The sources go on to serve when there is more knowledge. -/
theorem Serves.grow {t t' : SymbolTable} {sources : List Source}
    {needs : List (OrdinaryExpr NameId)} (h : Serves t sources needs) (hext : t.Extends t') :
    Serves t' sources needs :=
  ⟨h.needed, fun x hx => (h.known x hx).imp_left hext.unknowns_eq_nil⟩

/-- Work that a move postpones waits for what it needs. -/
def Move.Supplies (needs : Work → List (OrdinaryExpr NameId)) (l : Layout Work) : Move Work → Prop
  | postpone sources work _ => Serves l.table sources (needs work)
  | _ => True

/-- Whatever work the moves of a run postpone waits for what it needs. -/
def Supplies (needs : Work → List (OrdinaryExpr NameId)) (l : Layout Work) : List (Move Work) → Prop
  | [] => True
  | m :: ms => m.Supplies needs l ∧ Supplies needs (l.make m) ms

/-- Moves without work. -/
theorem supplies_of_none {needs : Work → List (OrdinaryExpr NameId)} {l : Layout Work}
    {ms : List (Move Work)} (hwork : ∀ m ∈ ms, m.work? = none) : l.Supplies needs ms := by
  induction ms generalizing l with
  | nil => trivial
  | cons m ms ih =>
      refine ⟨?_, ih fun m' hm' => hwork m' (by simp [hm'])⟩
      have hm := hwork m (by simp)
      cases m <;> trivial

/-- A run in two parts. -/
theorem supplies_append {needs : Work → List (OrdinaryExpr NameId)} {l : Layout Work}
    {ms ms' : List (Move Work)} :
    l.Supplies needs (ms ++ ms') ↔ l.Supplies needs ms ∧ (l.makeAll ms).Supplies needs ms' := by
  induction ms generalizing l with
  | nil => simp [Supplies]
  | cons m ms ih => simp [Supplies, ih, and_assoc]

/-- An entry waits for what its work needs, and for nothing else. Whatever released work needs is
known. -/
structure Supplied (needs : Work → List (OrdinaryExpr NameId)) (l : Layout Work) : Prop where
  waiting : ∀ e ∈ l.entries, ∀ w, e.work = some w → Serves l.table e.sources (needs w)
  released : ∀ w ∈ l.ready, ∀ x ∈ needs w, l.table.unknowns x = []

namespace Supplied

variable {needs : Work → List (OrdinaryExpr NameId)} {l l' : Layout Work}
  {aside : List (Entry Work)}

/-- Work that stays where it is stays supplied when there is more knowledge. -/
theorem grow (h : l.Supplied needs) (hext : l.table.Extends l'.table)
    (hentries : l'.entries ⊆ l.entries) (hready : l'.ready ⊆ l.ready) : l'.Supplied needs where
  waiting e he w hw := (h.waiting e (hentries he) w hw).grow hext
  released w hw x hx := hext.unknowns_eq_nil (h.released w (hready hw) x hx)

/-- An entry is completed when all that it waits for is known, so that its work is supplied. -/
theorem step (h : l.Supplied needs) (hsound : l.Sound aside) (hstep : Step l l') :
    l'.Supplied needs := by
  have hext := hsound.extends_step hstep
  cases hstep with
  | pad => exact h.grow hext (List.Subset.refl _) (List.Subset.refl _)
  | complete before e after hentries hsettled =>
      have hsub : before ++ after ⊆ l.entries := by
        rw [hentries]
        exact ((List.sublist_cons_self e after).append_left before).subset
      refine ⟨fun e' he' w hw => (h.waiting e' (hsub he') w hw).grow hext, fun w hw x hx => ?_⟩
      refine hext.unknowns_eq_nil ?_
      simp only [ready_complete, List.mem_append, Option.mem_toList] at hw
      rcases hw with hw | hw
      · exact h.released w hw x hx
      · have hnil : e.unknowns l.table = [] := List.isEmpty_iff.1 hsettled
        rcases (h.waiting e (by simp [hentries]) w hw).known x hx with hknown | hsource
        · exact hknown
        · exact List.flatMap_eq_nil_iff.1 hnil _ hsource

/-- Settling keeps all work supplied. -/
theorem settle (h : l.Supplied needs) (hsound : l.Sound aside) : l.settle.Supplied needs := by
  have hboth : l.settle.Sound aside ∧ l.settle.Supplied needs :=
    settle_induction (P := fun l => l.Sound aside ∧ l.Supplied needs)
      (fun _ _ hstep hl => ⟨hl.1.step hstep, hl.2.step hl.1 hstep⟩) ⟨hsound, h⟩
  exact hboth.2

/-- What is left in a settled layout still waits for something that it needs. -/
theorem exists_unknown (h : l.Supplied needs) (hquiescent : l.Quiescent) {w : Work}
    (hw : w ∈ works l.entries) : ∃ x ∈ needs w, l.table.unknowns x ≠ [] := by
  obtain ⟨e, he, hwork⟩ := List.mem_filterMap.1 hw
  have hunsettled : e.unknowns l.table ≠ [] := fun hnil => by
    have hsettled := hquiescent.entries e he
    simp [Entry.isSettled, hnil] at hsettled
  obtain ⟨u, hu⟩ := List.exists_mem_of_ne_nil _ hunsettled
  obtain ⟨source, hsource, hmem⟩ := List.mem_flatMap.1 hu
  obtain ⟨x, hx, rfl⟩ := (h.waiting e he w hwork).needed source hsource
  exact ⟨x, hx, List.ne_nil_of_mem hmem⟩

end Supplied

namespace History.Tracked

variable {needs : Work → List (OrdinaryExpr NameId)} {h : History Work}

/-- Letting an entry wait keeps all work supplied if the entry waits for what its own work needs. -/
theorem supplied_await (ht : h.Tracked) {e : Entry Work} {aside : List (Entry Work)}
    (haside : h.aside = aside ++ [e]) (hs : h.layout.Supplied needs)
    (hwork : ∀ w, e.work = some w → Serves h.layout.table e.sources (needs w)) :
    (h.layout.await e).Supplied needs := by
  by_cases hrejects : h.layout.Rejects e
  · obtain ⟨event, hawait⟩ := await_of_rejects hrejects
    rw [hawait]
    exact ⟨hs.waiting, hs.released⟩
  · rw [await_of_accepts hrejects]
    refine Supplied.settle ⟨fun e' he' => ?_, hs.released⟩ (ht.enqueue haside)
    rcases List.mem_append.1 he' with he' | he'
    · exact hs.waiting e' he'
    · obtain rfl := List.mem_singleton.1 he'
      exact hwork

/-- A move keeps all work supplied if work that it postpones waits for what it needs. -/
theorem supplied_make (ht : h.Tracked) {m : Move Work} (hlegal : m.Legal h.layout)
    (hs : h.layout.Supplied needs) (hsupplies : m.Supplies needs h.layout) :
    (h.layout.make m).Supplied needs := by
  have hadded (symbol : OrdinarySymbol) : (h.layout.addSymbol symbol).Supplied needs :=
    hs.grow (SymbolTable.extends_addSymbol symbol) (List.Subset.refl _) (List.Subset.refl _)
  have haligned (alignment : Alignment) : (h.layout.align alignment).2.Supplied needs := by
    obtain ⟨hentries, hready, -⟩ := h.layout.align_frame alignment
    exact hs.grow (extends_align _ alignment) (hentries ▸ List.Subset.refl _)
      (hready ▸ List.Subset.refl _)
  cases m with
  | define symbol =>
      obtain ⟨hfresh, hvalue, hspaces⟩ := hlegal
      have hdefined := (hadded symbol).settle (ht.define hfresh hvalue hspaces).sound
      rwa [← perform_define hfresh] at hdefined
  | declare symbol source range =>
      have hdefined := (hadded symbol).settle (ht.declare range hlegal.1 hlegal.2).sound
      rw [← perform_define hlegal.1] at hdefined
      exact (ht.setAside hlegal rfl).supplied_await rfl ⟨hdefined.waiting, hdefined.released⟩ nofun
  | postpone sources work range =>
      refine (ht.setAside hlegal rfl).supplied_await rfl hs ?_
      rintro w ⟨⟩
      exact hsupplies
  | reserveLater length alignment range =>
      have hopened : (h.layout.openSpace alignment).2.Supplied needs :=
        (haligned alignment).grow (SymbolTable.extends_addSpace _) (List.Subset.refl _)
          (List.Subset.refl _)
      exact (ht.setAside hlegal rfl).supplied_await rfl hopened nofun
  | align alignment => exact haligned alignment
  | reserve size alignment =>
      exact ⟨(haligned alignment).waiting, (haligned alignment).released⟩
  | takeReady => exact ⟨hs.waiting, nofun⟩
  | takeDiagnostics | takeEvents => exact ⟨hs.waiting, hs.released⟩
  | finish => exact ⟨nofun, (hs.settle ht.sound).released⟩

/-- A run keeps all work supplied if the work that it postpones waits for what it needs. -/
theorem supplied_makeAll (ht : h.Tracked) {ms : List (Move Work)} (hlegal : h.layout.Legal ms)
    (hs : h.layout.Supplied needs) (hsupplies : h.layout.Supplies needs ms) :
    (h.layout.makeAll ms).Supplied needs := by
  induction ms generalizing h with
  | nil => exact hs
  | cons m ms ih =>
      exact ih (ht.make hlegal.1) hlegal.2 (ht.supplied_make hlegal.1 hs hsupplies.1) hsupplies.2

end History.Tracked

end Layout

end MacroAssembler
