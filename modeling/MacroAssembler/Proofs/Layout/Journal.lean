import Mathlib.Algebra.Order.Group.Multiset
import MacroAssembler.Proofs.Layout.ReleaseOrder
import MacroAssembler.Proofs.Layout.Soundness
import MacroAssembler.Proofs.Reachability

/-!
# Where postponed work is

A journal keeps, beside a layout, which work was accepted, fetched and given up. The story of a run
tells the journal at every moment: behind each change that a request makes at once, and behind each
step of the settling that follows. At every moment accepted work is in exactly one place, and work
is released only when nothing is left to wait for (`run_accounts`).
-/

namespace MacroAssembler.Layout

variable {Work : Type}

/-- The work that entries carry. -/
def works (es : List (Entry Work)) : List Work := es.filterMap (·.work)

/-- The work that a request hands over to be postponed, unless it is turned away. -/
def accepts (l : Layout Work) : Request Work → List Work
  | .await target sources work range =>
      if l.Rejects ⟨target.map .symbol, sources, work, range⟩ then [] else work.toList
  | _ => []

/-! ## Moments of settling -/

/-- The layouts of a walk, behind each entry that it completes. -/
def walkMoments (l : Layout Work) (kept : List (Entry Work)) :
    List (Entry Work) → List (Layout Work)
  | [] => []
  | e :: rest =>
      if e.isSettled l.table then
        { l.complete e with entries := kept ++ rest } :: (l.complete e).walkMoments kept rest
      else l.walkMoments (kept ++ [e]) rest

/-- The layouts of a pass: with lengths for the paddings, and then those of the walk. -/
def passMoments (l : Layout Work) : List (Layout Work) :=
  let l := { l with table := l.table.settleSpaces }
  l :: l.walkMoments [] l.entries

/-- The layouts on the way to a settled one. -/
def settleMoments (l : Layout Work) : List (Layout Work) :=
  l.passMoments ++ if l.pass.unsettled < l.unsettled then l.pass.settleMoments else []
  termination_by l.unsettled

/-! ## Journals -/

/-- A layout with what became of the postponed work. -/
structure Journal (Work : Type) where
  layout : Layout Work := {}
  /-- The work that was handed over to be postponed, and not turned away. -/
  accepted : List Work := []
  fetched : List Work := []
  /-- The work that was given up at the end. -/
  abandoned : List Work := []

namespace Journal

/-- The journal when a request has changed the layout, and settling goes on. -/
def opened (j : Journal Work) (r : Request Work) (l : Layout Work) : Journal Work :=
  { j with layout := l, accepted := j.accepted ++ accepts j.layout r }

/-- The journal after a request. -/
def perform (j : Journal Work) (r : Request Work) : Journal Work where
  layout := j.layout.perform r
  accepted := j.accepted ++ accepts j.layout r
  fetched := j.fetched ++ match r with
    | .takeReady => j.layout.ready
    | _ => []
  abandoned := j.abandoned ++ match r with
    | .finish => works j.layout.settle.entries
    | _ => []

/-- The journals of a request, moment by moment. -/
def moments (j : Journal Work) (r : Request Work) : List (Journal Work) :=
  ((j.layout.settled? r).elim [] fun l => (l :: l.settleMoments).map (j.opened r)) ++ [j.perform r]

/-- The journals of a run, moment by moment. -/
def story (j : Journal Work) : List (Request Work) → List (Journal Work)
  | [] => []
  | r :: rs => j.moments r ++ (j.perform r).story rs

/-- All that can happen to postponed work from one moment to the next. -/
inductive Advances (j j' : Journal Work) : Prop where
  | keep : j'.layout.entries = j.layout.entries → j'.layout.ready = j.layout.ready →
      j'.accepted = j.accepted → j'.fetched = j.fetched → j'.abandoned = j.abandoned → Advances j j'
  | accept (e : Entry Work) : j'.layout.entries = j.layout.entries ++ [e] →
      j'.layout.ready = j.layout.ready → j'.accepted = j.accepted ++ e.work.toList →
      j'.fetched = j.fetched → j'.abandoned = j.abandoned → Advances j j'
  | complete (before : List (Entry Work)) (e : Entry Work) (after : List (Entry Work)) :
      j.layout.entries = before ++ e :: after → e.unknowns j.layout.table = [] →
      e.unknowns j'.layout.table = [] → j'.layout.entries = before ++ after →
      j'.layout.ready = j.layout.ready ++ e.work.toList → j'.accepted = j.accepted →
      j'.fetched = j.fetched → j'.abandoned = j.abandoned → Advances j j'
  | fetch : j'.layout.entries = j.layout.entries → j'.layout.ready = [] →
      j'.accepted = j.accepted → j'.fetched = j.fetched ++ j.layout.ready →
      j'.abandoned = j.abandoned → Advances j j'
  | abandon : j'.layout.entries = [] → j'.layout.ready = j.layout.ready →
      j'.accepted = j.accepted → j'.fetched = j.fetched →
      j'.abandoned = j.abandoned ++ works j.layout.entries → Advances j j'

/-- A journal goes on to another one, moment by moment. -/
abbrev Path (j : Journal Work) (js : List (Journal Work)) (j' : Journal Work) : Prop :=
  MacroAssembler.Path Advances j js j'

variable {j j' j'' : Journal Work} {js js' : List (Journal Work)} {l : Layout Work}

end Journal

/-! ## Settling, moment by moment -/

/-- What is known stays known when an entry is completed that has sources. -/
theorem known_complete (l : Layout Work) {e : Entry Work} (hsettled : e.unknowns l.table = [])
    (hsources : e.sources ≠ []) {u : Unknown} (hu : l.table.Known u) :
    (l.complete e).table.Known u := by
  obtain ⟨errors, -, h⟩ := l.complete_completes e
  generalize (l.complete e).table = t at h
  cases h with
  | release | fault => exact hu
  | clear _ hnil => exact absurd hnil hsources
  | length | noLength => exact SymbolTable.known_setLength _ _ hu
  | @value n source rest v htarget hcons hv =>
      have hnil : l.table.unknownsOfSource source = [] := by
        simp only [Entry.unknowns, hcons, List.flatMap_cons, List.append_eq_nil_iff] at hsettled
        exact hsettled.1
      refine SymbolTable.known_setValue (fun hundef => ?_) (fun a ha => ?_) hu
      · exact SymbolTable.evaluateSource_ne_undefined source (hundef ▸ hv)
      · exact SymbolTable.spaces_of_evaluateSource hnil (ha ▸ hv)

/-- An entry that waits for nothing waits for nothing when it is completed. -/
theorem unknowns_complete (l : Layout Work) {e : Entry Work} (hsettled : e.unknowns l.table = []) :
    e.unknowns (l.complete e).table = [] := by
  have hsources (source : Source) (hsource : source ∈ e.sources) :
      l.table.unknownsOfSource source = [] := List.flatMap_eq_nil_iff.1 hsettled source hsource
  refine List.flatMap_eq_nil_iff.2 fun source hsource => ?_
  refine SymbolTable.unknownsOfSource_eq_nil_iff.2 fun u hu => ?_
  exact l.known_complete hsettled (List.ne_nil_of_mem hsource)
    (SymbolTable.unknownsOfSource_eq_nil_iff.1 (hsources source hsource) u hu)

namespace Journal

section Settling

variable (accepted fetched abandoned : List Work)

/-- A walk over the later entries, whatever it has kept before. -/
theorem path_walk (l : Layout Work) (kept rest : List (Entry Work)) :
    Path ⟨{ l with entries := kept ++ rest }, accepted, fetched, abandoned⟩
      ((l.walkMoments kept rest).map (⟨·, accepted, fetched, abandoned⟩))
      ⟨{ (l.sweep rest).2 with entries := kept ++ (l.sweep rest).1 },
        accepted, fetched, abandoned⟩ := by
  induction rest generalizing l kept with
  | nil => exact .nil _
  | cons e rest ih =>
      rw [walkMoments, sweep]
      split
      · rename_i hsettled
        have hnil : e.unknowns l.table = [] := List.isEmpty_iff.1 hsettled
        exact .cons (.complete kept e rest rfl hnil (l.unknowns_complete hnil) rfl
          (l.ready_complete e) rfl rfl rfl) (ih (l.complete e) kept)
      · simpa using ih l (kept ++ [e])

/-- A pass. -/
theorem path_pass (l : Layout Work) :
    Path ⟨l, accepted, fetched, abandoned⟩
      (l.passMoments.map (⟨·, accepted, fetched, abandoned⟩))
      ⟨l.pass, accepted, fetched, abandoned⟩ :=
  .cons (.keep rfl rfl rfl rfl rfl)
    (path_walk accepted fetched abandoned { l with table := l.table.settleSpaces } [] l.entries)

/-- Settling. -/
theorem path_settle (l : Layout Work) :
    Path ⟨l, accepted, fetched, abandoned⟩
      (l.settleMoments.map (⟨·, accepted, fetched, abandoned⟩))
      ⟨l.settle, accepted, fetched, abandoned⟩ := by
  induction l using settle.induct with
  | case1 l hlt ih =>
      rw [settle, if_pos hlt, settleMoments, if_pos hlt, List.map_append]
      exact (path_pass accepted fetched abandoned l).append ih
  | case2 l hlt =>
      rw [settle, if_neg hlt, settleMoments, if_neg hlt, List.append_nil]
      exact path_pass accepted fetched abandoned l

end Settling

/-! ## Requests, moment by moment -/

variable {j j' : Journal Work}

/-- A request that settles a layout hands its entry over, or leaves the entries as they are. -/
theorem advances_opened (j : Journal Work) (r : Request Work) {l : Layout Work}
    (h : j.layout.settled? r = some l) : j.Advances (j.opened r l) := by
  -- only the requests that settle are left
  cases r <;> simp only [settled?, Option.ite_none_left_eq_some, Option.some.injEq,
    reduceCtorEq] at h
  case define symbol =>
    obtain ⟨-, rfl⟩ := h
    exact .keep rfl rfl (List.append_nil _) rfl rfl
  case await target sources work range =>
    obtain ⟨haccepts, rfl⟩ := h
    exact .accept _ rfl rfl (by simp [opened, accepts, haccepts]) rfl rfl
  case reserveLater length alignment range =>
    obtain ⟨-, rfl⟩ := h
    obtain ⟨hentries, hready, -⟩ := j.layout.align_frame alignment
    exact .accept _ (congrArg (· ++ _) hentries) hready rfl rfl rfl
  case finish =>
    subst h
    exact .keep rfl rfl (List.append_nil _) rfl rfl

/-- An entry that is turned away leaves all work where it is. -/
theorem frame_of_rejects {l : Layout Work} {e : Entry Work} (h : l.Rejects e) :
    (l.await e).entries = l.entries ∧ (l.await e).ready = l.ready := by
  obtain ⟨event, hawait⟩ := await_of_rejects h
  rw [hawait]
  exact ⟨rfl, rfl⟩

/-- A request that settles no layout fetches something, or leaves all work where it is. -/
theorem advances_perform (j : Journal Work) (r : Request Work) (h : j.layout.settled? r = none) :
    j.Advances (j.perform r) := by
  have hkeep (hentries : (j.layout.perform r).entries = j.layout.entries)
      (hready : (j.layout.perform r).ready = j.layout.ready) (haccepts : accepts j.layout r = [])
      (hfetch : r ≠ .takeReady) (hopen : r ≠ .finish) : j.Advances (j.perform r) :=
    .keep hentries hready (by simp [perform, haccepts]) (by cases r <;> simp_all [perform])
      (by cases r <;> simp_all [perform])
  cases r <;> simp only [settled?, ite_eq_left_iff, reduceCtorEq, imp_false, not_not] at h
  case define symbol =>
    have hsame := perform_define_of_defines h
    exact hkeep (by rw [hsame]) (by rw [hsame]) rfl (by simp) (by simp)
  case await target sources work range =>
    obtain ⟨hentries, hready⟩ := frame_of_rejects h
    exact hkeep hentries hready (by simp [accepts, h]) (by simp) (by simp)
  case reserveLater length alignment range =>
    obtain ⟨hentries, hready⟩ := frame_of_rejects h
    obtain ⟨haligned, haligned', -⟩ := j.layout.align_frame alignment
    exact hkeep (hentries.trans haligned) (hready.trans haligned') rfl (by simp) (by simp)
  case align alignment | reserve size alignment =>
    obtain ⟨hentries, hready, -⟩ := j.layout.align_frame alignment
    exact hkeep hentries hready rfl (by simp) (by simp)
  case takeDiagnostics | takeEvents => exact hkeep rfl rfl rfl (by simp) (by simp)
  case takeReady => exact .fetch rfl rfl (List.append_nil _) rfl (List.append_nil _)

/-- Behind settling a request gives up the work that is left, or nothing is left to do. -/
theorem advances_settled (j : Journal Work) (r : Request Work) {l : Layout Work}
    (h : j.layout.settled? r = some l) : (j.opened r l.settle).Advances (j.perform r) := by
  have hkeep (hlayout : j.layout.perform r = l.settle) (hfetch : r ≠ .takeReady)
      (hopen : r ≠ .finish) : (j.opened r l.settle).Advances (j.perform r) :=
    .keep (congrArg Layout.entries hlayout) (congrArg Layout.ready hlayout) rfl
      (by cases r <;> simp_all [perform, opened]) (by cases r <;> simp_all [perform, opened])
  cases r <;> simp only [settled?, Option.ite_none_left_eq_some, Option.some.injEq,
    reduceCtorEq] at h
  case define symbol =>
    obtain ⟨hfresh, rfl⟩ := h
    exact hkeep (perform_define (by simpa using hfresh)) (by simp) (by simp)
  case await target sources work range =>
    obtain ⟨haccepts, rfl⟩ := h
    exact hkeep (await_of_accepts haccepts) (by simp) (by simp)
  case reserveLater length alignment range =>
    obtain ⟨haccepts, rfl⟩ := h
    exact hkeep (await_of_accepts haccepts) (by simp) (by simp)
  case finish =>
    subst h
    exact .abandon rfl rfl rfl (List.append_nil _) rfl

/-- A request takes a journal on, moment by moment. -/
theorem path_moments (j : Journal Work) (r : Request Work) :
    Path j (j.moments r) (j.perform r) := by
  unfold moments
  cases h : j.layout.settled? r with
  | none => exact .cons (j.advances_perform r h) (.nil _)
  | some l =>
      refine Path.append ?_ (.cons (j.advances_settled r h) (.nil _))
      exact .cons (j.advances_opened r h) (path_settle _ _ _ l)

/-- A run takes a journal on, moment by moment. -/
theorem path_story (j : Journal Work) (rs : List (Request Work)) :
    Path j (j.story rs) (rs.foldl perform j) := by
  induction rs generalizing j with
  | nil => exact .nil j
  | cons r rs ih => exact (j.path_moments r).append (ih (j.perform r))

/-- The layout of a journal is that of the run. -/
theorem layout_foldl_perform (j : Journal Work) (rs : List (Request Work)) :
    (rs.foldl perform j).layout = j.layout.run rs := by
  induction rs generalizing j with
  | nil => rfl
  | cons r rs ih => exact ih (j.perform r)

/-! ## What is kept from moment to moment -/

/-- Accepted work is with an entry that waits, released, fetched, or given up. -/
def Balanced (j : Journal Work) : Prop :=
  (j.accepted : Multiset Work) =
    works j.layout.entries + j.layout.ready + j.fetched + j.abandoned

/-- From one moment to the next accepted work stays in one place. -/
theorem Advances.balanced (h : j.Advances j') (hj : j.Balanced) : j'.Balanced := by
  unfold Balanced at hj ⊢
  have hwork (e : Entry Work) : works [e] = e.work.toList := by
    cases hw : e.work <;> simp [works, hw]
  have happend (es es' : List (Entry Work)) : works (es ++ es') = works es ++ works es' :=
    List.filterMap_append
  cases h with
  | keep hentries hready haccepted hfetched habandoned =>
      rwa [hentries, hready, haccepted, hfetched, habandoned]
  | accept e hentries hready haccepted hfetched habandoned =>
      rw [hentries, hready, haccepted, hfetched, habandoned, happend, hwork]
      simp only [← Multiset.coe_add, hj]
      ac_rfl
  | complete before e after hbefore _ _ hentries hready haccepted hfetched habandoned =>
      rw [hentries, hready, haccepted, hfetched, habandoned, hj, hbefore,
        ← List.singleton_append, happend, happend, happend, hwork]
      simp only [← Multiset.coe_add]
      ac_rfl
  | fetch hentries hready haccepted hfetched habandoned =>
      rw [hentries, hready, haccepted, hfetched, habandoned, hj]
      simp only [← Multiset.coe_add, Multiset.coe_nil, add_zero]
      ac_rfl
  | abandon hentries hready haccepted hfetched habandoned =>
      rw [hentries, hready, haccepted, hfetched, habandoned, hj]
      simp only [← Multiset.coe_add, works, List.filterMap_nil, Multiset.coe_nil, zero_add]
      ac_rfl

/-- Work that was given up stays given up. -/
theorem Advances.abandoned_subset (h : j.Advances j') : j.abandoned ⊆ j'.abandoned := by
  cases h with
  | abandon _ _ _ _ habandoned => exact habandoned ▸ List.subset_append_left _ _
  | _ => simp_all

/-- Along a path accepted work is in one place at every moment. -/
theorem Path.balanced {js : List (Journal Work)} (h : Path j js j') (hj : j.Balanced) :
    ∀ k ∈ j :: js, k.Balanced := by
  induction h with
  | nil j => simpa using hj
  | cons hfirst _ ih => exact List.forall_mem_cons.2 ⟨hj, ih (hfirst.balanced hj)⟩

/-- Along a path work that was given up stays given up. -/
theorem Path.pairwise_subset {js : List (Journal Work)} (h : Path j js j') :
    (j :: js).Pairwise fun k k' => k.abandoned ⊆ k'.abandoned := by
  induction h with
  | nil => simp
  | @cons j j' j'' js hfirst _ ih =>
      refine List.pairwise_cons.2 ⟨fun k hk => ?_, ih⟩
      rcases List.mem_cons.1 hk with rfl | hk
      · exact hfirst.abandoned_subset
      · exact List.Subset.trans hfirst.abandoned_subset (List.rel_of_pairwise_cons ih hk)

/-- Every moment of a request tells of the same accepted work. -/
theorem accepted_of_mem_moments {r : Request Work} (h : j' ∈ j.moments r) :
    j'.accepted = j.accepted ++ accepts j.layout r := by
  rcases List.mem_append.1 h with h | h
  · cases hsettled : j.layout.settled? r with
    | none => simp [hsettled] at h
    | some l =>
        rw [hsettled] at h
        obtain ⟨l', -, rfl⟩ := List.mem_map.1 h
        rfl
  · rw [List.mem_singleton.1 h]
    rfl

/-- Work that is told apart by the places of its registrations is accepted once. -/
theorem nodup_accepted {j : Journal (Nat × Work)} {n : Nat} (rs : List (Request Work))
    (hnodup : j.accepted.Nodup) (hlt : ∀ p ∈ j.accepted, p.1 < n) :
    ∀ j' ∈ j.story (number n rs), j'.accepted.Nodup := by
  induction rs generalizing j n with
  | nil => simp [number, story]
  | cons r rs ih =>
      -- a request hands over its own work at most, and that carries the place of the request
      have hnext :
          accepts j.layout (r.tag n) = [] ∨ ∃ w, accepts j.layout (r.tag n) = [(n, w)] := by
        cases r with
        | await target sources work range =>
            simp only [Request.tag, accepts]
            split
            · exact .inl rfl
            · cases work with
              | none => exact .inl rfl
              | some w => exact .inr ⟨w, rfl⟩
        | _ => exact .inl rfl
      have hnodup' : (j.accepted ++ accepts j.layout (r.tag n)).Nodup ∧
          ∀ p ∈ j.accepted ++ accepts j.layout (r.tag n), p.1 < n + 1 := by
        rcases hnext with hnone | ⟨w, hone⟩
        · rw [hnone, List.append_nil]
          exact ⟨hnodup, fun p hp => Nat.lt_succ_of_lt (hlt p hp)⟩
        · rw [hone]
          refine ⟨List.nodup_append.2 ⟨hnodup, by simp, fun p hp q hq => ?_⟩, fun p hp => ?_⟩
          · rw [List.mem_singleton.1 hq]
            rintro rfl
            exact Nat.lt_irrefl _ (hlt _ hp)
          · rcases List.mem_append.1 hp with hp | hp
            · exact Nat.lt_succ_of_lt (hlt p hp)
            · rw [List.mem_singleton.1 hp]
              exact Nat.lt_succ_self n
      intro j' hj'
      rcases List.mem_append.1 hj' with hj' | hj'
      · rw [accepted_of_mem_moments hj']
        exact hnodup'.1
      · exact ih (j := j.perform (r.tag n)) hnodup'.1 hnodup'.2 j' hj'

/-- Work that is told apart is in no other place once it was given up. -/
theorem Balanced.not_mem (hj : j.Balanced) (hnodup : j.accepted.Nodup) {w : Work}
    (hw : w ∈ j.abandoned) : w ∉ j.layout.ready ∧ w ∉ j.fetched := by
  unfold Balanced at hj
  rw [← Multiset.coe_nodup, hj] at hnodup
  -- the four places make up the accepted work, which has no doubles, so none shares any
  obtain ⟨hrest, -, hdisjoint⟩ := Multiset.nodup_add.1 hnodup
  have hother := Multiset.disjoint_right.1 hdisjoint (Multiset.mem_coe.2 hw)
  simp only [Multiset.mem_add, Multiset.mem_coe, not_or] at hother
  exact ⟨hother.1.2, hother.2⟩

/-- At every moment of a run accepted work is with an entry that waits, released, fetched, or given
up. Released work stays as it is, is fetched, or is joined by the work of an entry of whose sources
nothing is unknown, neither before nor behind that moment. And if works are told apart by the
places of their registrations, one that was given up is never released later. -/
theorem run_accounts (rs : List (Request Work)) :
    let js : List (Journal Work) := {} :: story {} rs
    (js.getLast (List.cons_ne_nil _ _)).layout = run {} rs ∧
    (∀ j ∈ js, (j.accepted : Multiset Work) =
      works j.layout.entries + j.layout.ready + j.fetched + j.abandoned) ∧
    js.IsChain (fun j j' => j'.layout.ready = j.layout.ready ∨
      j'.layout.ready = [] ∧ j'.fetched = j.fetched ++ j.layout.ready ∨
      ∃ e ∈ j.layout.entries, ∃ w, e.work = some w ∧ j'.layout.ready = j.layout.ready ++ [w] ∧
        ∀ source ∈ e.sources, j.layout.table.unknownsOfSource source = [] ∧
          j'.layout.table.unknownsOfSource source = []) ∧
    (({} : Journal (Nat × Work)) :: story {} (number 0 rs)).Pairwise
      (fun j j' => ∀ p ∈ j.abandoned, p ∉ j'.layout.ready ∧ p ∉ j'.fetched) := by
  intro js
  have hpath := path_story ({} : Journal Work) rs
  have hpath' := path_story ({} : Journal (Nat × Work)) (number 0 rs)
  refine ⟨?_, hpath.balanced rfl, hpath.isChain.imp fun j j' h => ?_, ?_⟩
  · rw [hpath.getLast, layout_foldl_perform]
  · cases h with
    | keep _ hready | accept _ _ hready | abandon _ hready => exact .inl hready
    | fetch _ hready _ hfetched => exact .inr (.inl ⟨hready, hfetched⟩)
    | complete before e after hbefore hnil hnil' _ hready =>
        cases hw : e.work with
        | none => exact .inl (by simpa [hw] using hready)
        | some w =>
            refine .inr (.inr ⟨e, by simp [hbefore], w, hw, by simpa [hw] using hready, ?_⟩)
            exact fun source hsource => ⟨List.flatMap_eq_nil_iff.1 hnil source hsource,
              List.flatMap_eq_nil_iff.1 hnil' source hsource⟩
  · have hbalanced := hpath'.balanced rfl
    have hnodup : ∀ j ∈ ({} : Journal (Nat × Work)) :: story {} (number 0 rs),
        j.accepted.Nodup :=
      List.forall_mem_cons.2 ⟨by simp, nodup_accepted rs (by simp) (by simp)⟩
    exact hpath'.pairwise_subset.imp_of_mem fun _ hj' hsub p hp =>
      (hbalanced _ hj').not_mem (hnodup _ hj') (hsub hp)

end Journal

end MacroAssembler.Layout
