import Mathlib
import MacroAssembler.Proofs.Layout.Waiting
import MacroAssembler.Proofs.Layout.WaitFor

/-!
# The fixpoint of settling

Settling repeats a pass as long as a pass makes progress, and that is not for ever
(`exists_iterate_pass`). Every request to a layout leaves it settled: no entry could be completed,
and no padding could get its length. Until the end each space whose length is not known yet has
exactly one entry that waits for it (`run_settled`). The requests may be any, in any order, as long
as the addresses in them are places of the layout.
-/

namespace MacroAssembler

variable {Work : Type}

namespace Layout

/-! ## Passes -/

/-- A pass gives some padding its length, or completes some entry. -/
def Progresses (l : Layout Work) : Prop :=
  l.table.settleSpaces.missing < l.table.missing ∨ l.pass.entries.length < l.entries.length

/-- A walk takes an entry away, or changes nothing. -/
theorem sweep_eq_or_length_lt (l : Layout Work) (rest : List (Entry Work)) :
    l.sweep rest = (rest, l) ∨ (l.sweep rest).1.length < rest.length := by
  induction rest generalizing l with
  | nil => exact .inl rfl
  | cons e rest ih =>
      rw [sweep]
      split
      · refine .inr ?_
        rcases ih (l.complete e) with heq | hlt
        · simp [heq]
        · exact Nat.lt_succ_of_lt hlt
      · rcases ih l with heq | hlt
        · exact .inl (by rw [heq])
        · exact .inr (Nat.succ_lt_succ hlt)

/-- A pass makes progress if less is left to settle, and only then. -/
theorem progresses_iff {l : Layout Work} : l.Progresses ↔ l.pass.unsettled < l.unsettled := by
  constructor
  · intro hprogress
    by_contra hnot
    obtain ⟨heq, -⟩ := pass_eq_self hnot
    rcases hprogress with hspaces | hentries
    · -- the walk behind the paddings gives no length back
      have hwalk := sweep_progress { l with table := l.table.settleSpaces } l.entries
      have htotal : l.pass.entries.length + l.pass.table.missing ≤
          l.entries.length + l.table.settleSpaces.missing := by
        rcases hwalk with ⟨hsame, -⟩ | hlt
        · simp [pass, hsame]
        · exact Nat.le_of_lt hlt
      rw [heq] at htotal
      omega
    · rw [heq] at hentries
      exact Nat.lt_irrefl _ hentries
  · intro hlt
    by_contra hnot
    obtain ⟨hspaces, hentries⟩ := not_or.1 hnot
    have htable : l.table.settleSpaces = l.table :=
      (l.table.foldl_settleSpace _).elim (·.1) fun hmissing => absurd hmissing hspaces
    have hwalk : l.sweep l.entries = (l.entries, l) := by
      refine (l.sweep_eq_or_length_lt l.entries).resolve_right fun hlength => hentries ?_
      simpa [pass, htable] using hlength
    have heq : l.pass = l := by simp [pass, htable, hwalk]
    rw [heq] at hlt
    exact Nat.lt_irrefl _ hlt

/-- Settling makes passes until one makes no progress, and no more passes than there are entries
and unknown lengths. -/
theorem exists_iterate_pass (l : Layout Work) :
    ∃ n ≤ l.unsettled, (∀ k < n, (pass^[k] l).Progresses) ∧ ¬ (pass^[n] l).Progresses ∧
      l.settle = pass^[n + 1] l := by
  induction l using settle.induct with
  | case1 l hlt ih =>
      obtain ⟨n, hn, hprogress, hend, hsettle⟩ := ih
      -- the first pass makes progress, so it leaves less to settle
      refine ⟨n + 1, Nat.lt_of_le_of_lt hn hlt, fun k hk => ?_, hend, ?_⟩
      · cases k with
        | zero => exact progresses_iff.2 hlt
        | succ k => exact hprogress k (Nat.lt_of_succ_lt_succ hk)
      · rw [settle, if_pos hlt, hsettle]
        rfl
  | case2 l hlt =>
      refine ⟨0, Nat.zero_le _, by simp, fun hprogress => hlt (progresses_iff.1 hprogress), ?_⟩
      rw [settle, if_neg hlt]
      rfl

end Layout

namespace SymbolTable

variable {t t' : SymbolTable}

/-- What spaces exist depends on their kinds. -/
theorem bounded_congr (hkind : t'.kind? = t.kind?) {a : Address} : t'.Bounded a ↔ t.Bounded a := by
  simp only [Bounded, ← kind?_isSome_iff, hkind]

end SymbolTable

namespace Layout

/-! ## Settled layouts -/

/-- A layout in which no step is left to do stays so when a padding is added behind spaces without
a length, or a space for a length. -/
theorem Quiescent.addSpace {l : Layout Work} (h : l.Quiescent) {k : SpaceKind} {counter : Address}
    (hanchor : ∀ anchor alignment, k = .alignment anchor alignment →
      (l.table.normalize anchor).spaces ≠ []) :
    Quiescent { l with table := (l.table.addSpace k).2, counter } := by
  have hlength := SymbolTable.length?_addSpace (t := l.table) k
  have hunknowns := SymbolTable.unknownsOfSource_congr hlength (SymbolTable.valueOf_addSpace k)
  refine ⟨fun e he => ?_, fun s anchor alignment hkind hnone => ?_⟩
  · rw [Entry.isSettled, Entry.unknowns]
    dsimp only
    rw [hunknowns]
    exact h.entries e he
  · dsimp only at hkind hnone ⊢
    rw [SymbolTable.normalize_congr hlength]
    rw [SymbolTable.kind?_addSpace] at hkind
    split at hkind
    · exact hanchor anchor alignment (Option.some.inj hkind)
    · exact h.paddings s anchor alignment hkind (hlength ▸ hnone)

/-- Aligning the counter leaves no step to do. -/
theorem Quiescent.align {l : Layout Work} (h : l.Quiescent) (alignment : Alignment) :
    (l.align alignment).2.Quiescent := by
  have haligns := align_aligns l alignment
  generalize (l.align alignment).1 = place at haligns
  generalize (l.align alignment).2 = aligned at haligns
  cases haligns with
  | stay => exact h
  | known => exact ⟨h.entries, h.paddings⟩
  | padded _ hspaces =>
      refine h.addSpace fun anchor _ hkind => ?_
      cases hkind
      rwa [Layout.place, SymbolTable.normalize_idem]

/-- Letting an entry wait leaves no step to do. -/
theorem Quiescent.await {l : Layout Work} (h : l.Quiescent) (e : Entry Work) :
    (l.await e).Quiescent := by
  by_cases hrejects : l.Rejects e
  · obtain ⟨event, hawait⟩ := await_of_rejects hrejects
    rw [hawait]
    exact ⟨h.entries, h.paddings⟩
  · rw [await_of_accepts hrejects]
    exact settle_quiescent _

/-- A request leaves no step to do. -/
theorem Quiescent.perform {l : Layout Work} (h : l.Quiescent) (r : Request Work) :
    (l.perform r).Quiescent := by
  cases r with
  | define symbol =>
      cases hdefined : l.table.defines symbol.name with
      | true => rwa [perform_define_of_defines hdefined]
      | false =>
          rw [perform_define hdefined]
          exact settle_quiescent _
  | align alignment => exact h.align alignment
  | reserve size alignment => exact ⟨(h.align alignment).entries, (h.align alignment).paddings⟩
  | reserveLater length alignment range =>
      rw [perform_reserveLater]
      exact ((h.align alignment).addSpace (by simp)).await _
  | await => exact h.await _
  | takeReady | takeDiagnostics | takeEvents => exact ⟨h.entries, h.paddings⟩
  | finish => exact ⟨by simp [Layout.perform, finish], (settle_quiescent l).paddings⟩

/-- A run of requests leaves no step to do. -/
theorem Quiescent.run {l : Layout Work} (h : l.Quiescent) (rs : List (Request Work)) :
    (l.run rs).Quiescent := by
  induction rs generalizing l with
  | nil => exact h
  | cons r rs ih => exact ih (h.perform r)

/-! ## Addresses of a layout -/

/-- The addresses in a request are places of the layout: all their spaces exist. -/
def Request.Knows (l : Layout Work) : Request Work → Prop
  | define symbol => ∀ a, symbol.value = .relocatable a → l.table.Bounded a
  | await _ sources _ _ => ∀ a, .address a ∈ sources → l.table.Bounded a
  | _ => True

/-- The addresses in the requests of a run are places of the layout at that time. -/
def Knows (l : Layout Work) : List (Request Work) → Prop
  | [] => True
  | r :: rs => r.Knows l ∧ Knows (l.perform r) rs

/-- All addresses that a layout tells of are its own places. -/
structure Placed (l : Layout Work) : Prop where
  counter : l.table.Bounded l.counter
  symbols : ∀ n a, l.table.valueOf n = .relocatable a → l.table.Bounded a
  anchors : ∀ s anchor alignment, l.table.kind? s = some (.alignment anchor alignment) →
    l.table.Bounded anchor
  sources : ∀ e ∈ l.entries, ∀ a, .address a ∈ e.sources → l.table.Bounded a

namespace Placed

variable {l l' : Layout Work}

/-- A step leads to no other places. -/
theorem step (hstep : Step l l') (h : l.Placed) : l'.Placed := by
  have hkind := hstep.kind?
  have hbounded {a : Address} := SymbolTable.bounded_congr (a := a) hkind
  refine ⟨hbounded.2 (hstep.counter ▸ h.counter), fun n a hval => ?_,
    fun s anchor alignment hs => hbounded.2 (h.anchors s anchor alignment (hkind ▸ hs)),
    fun e he a ha => hbounded.2 (h.sources e (hstep.mem_entries he) a ha)⟩
  cases hstep with
  | pad s =>
      refine hbounded.2 (h.symbols n a ?_)
      rcases SymbolTable.settleSpace_eq l.table s with heq | ⟨_, _, -, -, -, heq⟩ <;>
        simpa [heq] using hval
  | complete before e after hentries hsettled =>
      rcases relocatable_complete hsettled hval with hnil | ⟨hold, -⟩
      · exact SymbolTable.bounded_of_spaces_nil hnil
      · exact hbounded.2 (h.symbols n a hold)

theorem settle (h : l.Placed) : l.settle.Placed := settle_induction (fun _ _ => step) h

/-- A space is added, and the counter moves to a place of the layout. -/
theorem addSpace (h : l.Placed) {k : SpaceKind} {counter : Address}
    (hcounter : (l.table.addSpace k).2.Bounded counter)
    (hanchor : ∀ anchor alignment, k = .alignment anchor alignment → l.table.Bounded anchor) :
    Placed { l with table := (l.table.addSpace k).2, counter } := by
  have hext := SymbolTable.extends_addSpace (t := l.table) k
  refine ⟨hcounter, fun n a hval => (h.symbols n a hval).extends hext,
    fun s anchor alignment hs => ?_, fun e he a ha => (h.sources e he a ha).extends hext⟩
  dsimp only at hs
  rw [SymbolTable.kind?_addSpace] at hs
  split at hs
  · exact (hanchor anchor alignment (Option.some.inj hs)).extends hext
  · exact (h.anchors s anchor alignment hs).extends hext

theorem align (h : l.Placed) (alignment : Alignment) : (l.align alignment).2.Placed := by
  have haligns := align_aligns l alignment
  generalize (l.align alignment).1 = place at haligns
  generalize (l.align alignment).2 = aligned at haligns
  have hplace : l.table.Bounded l.place := h.counter.normalize
  cases haligns with
  | stay => exact h
  | known _ hnil =>
      exact ⟨SymbolTable.bounded_of_spaces_nil hnil, h.symbols, h.anchors, h.sources⟩
  | padded =>
      refine h.addSpace (hplace.behind _) fun anchor _ hkind => ?_
      cases hkind
      exact hplace

theorem openSpace (h : l.Placed) (alignment : Alignment) : (l.openSpace alignment).2.Placed :=
  (h.align alignment).addSpace ((h.align alignment).counter.behind _) (by simp)

theorem await (h : l.Placed) {e : Entry Work}
    (he : ∀ a, .address a ∈ e.sources → l.table.Bounded a) : (l.await e).Placed := by
  by_cases hrejects : l.Rejects e
  · obtain ⟨event, hawait⟩ := await_of_rejects hrejects
    rw [hawait]
    exact ⟨h.counter, h.symbols, h.anchors, h.sources⟩
  · rw [await_of_accepts hrejects]
    refine settle ⟨h.counter, h.symbols, h.anchors, fun e' he' => ?_⟩
    rcases List.mem_append.1 he' with he' | he'
    · exact h.sources e' he'
    · rwa [List.mem_singleton.1 he']

/-- A request with places of the layout leads to no other places. -/
theorem perform (h : l.Placed) {r : Request Work} (hknows : r.Knows l) : (l.perform r).Placed := by
  cases r with
  | define symbol =>
      cases hdefined : l.table.defines symbol.name with
      | true => rwa [perform_define_of_defines hdefined]
      | false =>
          rw [perform_define hdefined]
          refine settle ⟨h.counter, fun n a hval => ?_, h.anchors, h.sources⟩
          by_cases hn : n = symbol.name
          · subst hn
            exact hknows a ((SymbolTable.valueOf_addSymbol_self hdefined).symm.trans hval)
          · exact h.symbols n a ((SymbolTable.valueOf_addSymbol_of_ne hn).symm.trans hval)
  | align alignment => exact h.align alignment
  | reserve size alignment =>
      have haligned := h.align alignment
      exact ⟨haligned.counter, haligned.symbols, haligned.anchors, haligned.sources⟩
  | reserveLater length alignment range =>
      rw [perform_reserveLater]
      exact (h.openSpace alignment).await (by simp [lengthEntry])
  | await target sources work range => exact h.await hknows
  | takeReady | takeDiagnostics | takeEvents =>
      exact ⟨h.counter, h.symbols, h.anchors, h.sources⟩
  | finish =>
      have hsettled := h.settle
      exact ⟨hsettled.counter, hsettled.symbols, hsettled.anchors,
        by simp [Layout.perform, Layout.finish]⟩

/-- What the sources of an entry wait for are places of the layout. -/
theorem lt_size_of_mem_unknowns (h : l.Placed) {source : Source}
    (hsource : ∀ a, source = .address a → l.table.Bounded a) {s : SpaceId}
    (hs : .space s ∈ l.table.unknownsOfSource source) : s.index < l.table.spaces.size := by
  obtain ⟨u, hu, hs⟩ := SymbolTable.mem_unknownsOfSource.1 hs
  cases u with
  | space s' =>
      simp only [SymbolTable.unknownsOf] at hs
      split at hs
      · obtain rfl : s = s' := by simpa using hs
        cases source with
        | expr => simp [Source.mentions] at hu
        | address a => exact hsource a rfl s (by simpa [Source.mentions] using hu)
      · simp at hs
  | symbol n =>
      simp only [SymbolTable.unknownsOf, SymbolTable.unknownsOfSymbol] at hs
      split at hs
      · simp at hs
      · rename_i a hval
        obtain ⟨s', hs', -, heq⟩ := SymbolTable.mem_unknownsOfAddress.1 hs
        cases heq
        exact h.symbols n a hval s hs'
      · simp at hs

/-- What anything in the layout waits for directly are places of the layout. -/
theorem lt_size_of_waitsOn (h : l.Placed) {u : Unknown} {s : SpaceId}
    (hwaits : l.WaitsOn u (.space s)) : s.index < l.table.spaces.size := by
  cases hwaits with
  | entry he _ hs =>
      obtain ⟨source, hsource, hs⟩ := List.mem_flatMap.1 hs
      refine h.lt_size_of_mem_unknowns (fun a ha => ?_) hs
      exact h.sources _ he a (ha ▸ hsource)
  | anchor hkind hs => exact h.anchors _ _ _ hkind s (SymbolTable.mem_spaces_normalize.1 hs).1

/-- A storage area of unknown length is never turned away: nothing waits for its space yet. -/
theorem not_rejects_lengthEntry (h : l.Placed) (length : OrdinaryExpr NameId)
    (alignment : Alignment) (range : Range) :
    ¬ (l.openSpace alignment).2.Rejects
      (lengthEntry (l.openSpace alignment).1 length range) := by
  rintro ⟨u, hu, hmem⟩
  obtain rfl : .space (l.openSpace alignment).1 = u := by simpa [lengthEntry] using hu
  have haligned := h.align alignment
  have hunknowns := SymbolTable.unknownsOfSource_congr
    (SymbolTable.length?_addSpace (t := (l.align alignment).2.table) .length)
    (SymbolTable.valueOf_addSpace .length)
  -- the new space has the next number, and all that is waited for has smaller ones
  have hlt : (l.openSpace alignment).1.index < (l.align alignment).2.table.spaces.size := by
    obtain ⟨p, hp, hpath⟩ := exists_path_of_mem_reachable hmem
    rcases hpath.cases_tail with heq | ⟨u, -, hlast⟩
    · subst heq
      obtain ⟨source, hsource, hp⟩ := List.mem_flatMap.1 hp
      obtain rfl : source = .expr length := by simpa [lengthEntry] using hsource
      have hp : .space (l.openSpace alignment).1 ∈
          (l.align alignment).2.table.unknownsOfSource (.expr length) := hunknowns ▸ hp
      exact haligned.lt_size_of_mem_unknowns (by simp) hp
    · rcases waitsOn_addSpace.1 hlast with hlast | ⟨anchor, alignment', s', hlength, -⟩
      · exact haligned.lt_size_of_waitsOn hlast
      · simp at hlength
  exact Nat.lt_irrefl _ hlt

end Placed

/-! ## Lengths that are found later -/

/-- Completing an entry gives a length to the space that it waits for, and to no other. -/
theorem table_complete (l : Layout Work) (e : Entry Work) :
    (∀ s, e.target ≠ some (.space s)) ∧ (l.complete e).table.length? = l.table.length? ∨
      ∃ s n, e.target = some (.space s) ∧ (l.complete e).table = l.table.setLength s n := by
  obtain ⟨errors, -, h⟩ := l.complete_completes e
  generalize (l.complete e).table = t' at h
  cases h with
  | release htarget | clear htarget | value htarget | fault htarget =>
      exact .inl ⟨by simp [htarget], rfl⟩
  | length htarget | noLength htarget => exact .inr ⟨_, _, htarget, rfl⟩

/-- How many entries wait for the length of a space. -/
def waiters (l : Layout Work) (s : SpaceId) : Nat := l.entries.countP (·.target == some (.space s))

/-- A space stands for a length that is not known yet. -/
def Lacks (t : SymbolTable) (s : SpaceId) : Prop := t.kind? s = some .length ∧ t.length? s = none

/-- A space has one entry that waits for its length as long as this length is not known, and no
entry otherwise. -/
structure Owned (l : Layout Work) : Prop where
  one : ∀ s, Lacks l.table s → l.waiters s = 1
  none : ∀ s, ¬ Lacks l.table s → l.waiters s = 0

namespace Owned

variable {l l' : Layout Work}

/-- Neither the entries of spaces nor the lengths that are lacking have changed. -/
theorem congr (h : l.Owned) (hwaiters : l'.waiters = l.waiters)
    (hlacks : ∀ s, Lacks l'.table s ↔ Lacks l.table s) : l'.Owned :=
  ⟨fun s hs => hwaiters ▸ h.one s ((hlacks s).1 hs),
    fun s hs => hwaiters ▸ h.none s (mt (hlacks s).2 hs)⟩

/-- An entry is completed and taken away. -/
theorem complete (h : l.Owned) {before after : List (Entry Work)} {e : Entry Work}
    (hentries : l.entries = before ++ e :: after) :
    Owned { l.complete e with entries := before ++ after } := by
  have hcount (s : SpaceId) : l.waiters s =
      (before ++ after).countP (·.target == some (.space s)) +
        if e.target = some (.space s) then 1 else 0 := by
    unfold waiters
    rw [hentries]
    simp only [List.countP_append, List.countP_cons, beq_iff_eq]
    omega
  rcases l.table_complete e with ⟨hother, hlength⟩ | ⟨s, n, htarget, htable⟩
  · refine h.congr ?_ fun s => ?_
    · funext s
      rw [hcount, if_neg (hother s)]
      rfl
    · show Lacks (l.complete e).table s ↔ _
      simp only [Lacks, kind?_complete, hlength]
  · -- the entry was the only one of its space, which now has its length
    have hlacks : Lacks l.table s := by
      by_contra hlacks
      have hnone := h.none s hlacks
      rw [hcount, if_pos htarget] at hnone
      omega
    have hlt : s.index < l.table.spaces.size := SymbolTable.kind?_isSome_iff.1 (by simp [hlacks.1])
    have hlacks' (u : SpaceId) : Lacks (l.complete e).table u ↔ Lacks l.table u ∧ u ≠ s := by
      by_cases hus : u = s <;> simp [Lacks, htable, SymbolTable.length?_setLength, hus, hlt]
    refine ⟨fun u hu => ?_, fun u hu => ?_⟩ <;> show (before ++ after).countP _ = _
    · obtain ⟨hold, hne⟩ := (hlacks' u).1 hu
      have hone := h.one u hold
      rw [hcount, if_neg (by simp [htarget, Ne.symm hne])] at hone
      exact hone
    · by_cases hus : u = s
      · subst hus
        have hone := h.one u hlacks
        rw [hcount, if_pos htarget] at hone
        omega
      · have hnone := h.none u fun hold => hu ((hlacks' u).2 ⟨hold, hus⟩)
        rw [hcount] at hnone
        omega

/-- A step of settling. -/
theorem step (hstep : Step l l') (h : l.Owned) : l'.Owned := by
  cases hstep with
  | pad s =>
      refine h.congr rfl fun u => ?_
      rcases SymbolTable.settleSpace_eq l.table s with heq | ⟨_, _, hpadding, -, -, heq⟩
      · simp [heq]
      · simp only [Lacks, heq, SymbolTable.kind?_setLength, SymbolTable.length?_setLength]
        split
        · rename_i hus
          simp [hus.1, hpadding]
        · rfl
  | complete before e after hentries => exact h.complete hentries

theorem settle (h : l.Owned) : l.settle.Owned := settle_induction (fun _ _ => step) h

/-- An entry that waits for no space is queued. -/
theorem enqueue (h : l.Owned) {e : Entry Work} (he : ∀ s, e.target ≠ some (.space s)) :
    (l.enqueue e).Owned := by
  refine h.congr ?_ fun s => .rfl
  funext s
  simp [waiters, Layout.enqueue, he s]

theorem await (h : l.Owned) {e : Entry Work} (he : ∀ s, e.target ≠ some (.space s)) :
    (l.await e).Owned := by
  by_cases hrejects : l.Rejects e
  · obtain ⟨event, hawait⟩ := await_of_rejects hrejects
    rw [hawait]
    exact h.congr rfl fun s => .rfl
  · rw [await_of_accepts hrejects]
    exact (h.enqueue he).settle

/-- Aligning the counter adds a padding at most. -/
theorem align (h : l.Owned) (alignment : Alignment) : (l.align alignment).2.Owned := by
  have haligns := align_aligns l alignment
  generalize (l.align alignment).1 = place at haligns
  generalize (l.align alignment).2 = aligned at haligns
  cases haligns with
  | stay => exact h
  | known => exact h.congr rfl fun s => .rfl
  | padded =>
      refine h.congr rfl fun s => ?_
      simp only [Lacks, SymbolTable.length?_addSpace, SymbolTable.kind?_addSpace]
      split
      · rename_i hs
        simp [hs, SymbolTable.kind?_fst_addSpace]
      · rfl

/-- A space for a length is opened together with its entry. -/
theorem openSpace (h : l.Owned) (length : OrdinaryExpr NameId) (alignment : Alignment)
    (range : Range) :
    ((l.openSpace alignment).2.enqueue
      (lengthEntry (l.openSpace alignment).1 length range)).Owned := by
  have haligned := h.align alignment
  generalize hnew : (l.openSpace alignment).1 = new
  have hfresh : ¬ Lacks (l.align alignment).2.table new := by
    rw [← hnew]
    simp [Lacks, Layout.openSpace, SymbolTable.kind?_fst_addSpace]
  have hlacks (s : SpaceId) : Lacks (l.openSpace alignment).2.table s ↔
      Lacks (l.align alignment).2.table s ∨ s = new := by
    rw [← hnew]
    simp only [Lacks, Layout.openSpace, SymbolTable.length?_addSpace, SymbolTable.kind?_addSpace]
    split
    · rename_i hs
      simp [hs, SymbolTable.length?_fst_addSpace]
    · rename_i hs
      simp [hs]
  have hcount (s : SpaceId) :
      ((l.openSpace alignment).2.enqueue (lengthEntry new length range)).waiters s =
        (l.align alignment).2.waiters s + if s = new then 1 else 0 := by
    unfold waiters
    rw [Layout.enqueue, List.countP_append]
    by_cases hs : s = new
    · simp [lengthEntry, Layout.openSpace, hs]
    · simp [lengthEntry, Layout.openSpace, hs, Ne.symm hs]
  refine ⟨fun s hs => ?_, fun s hs => ?_⟩ <;> rw [hcount]
  · by_cases hsn : s = new
    · rw [hsn, if_pos rfl, haligned.none new hfresh]
    · rw [if_neg hsn, haligned.one s (((hlacks s).1 hs).resolve_right hsn)]
  · obtain ⟨hold, hsn⟩ := not_or.1 (mt (hlacks s).2 hs)
    rw [if_neg hsn, haligned.none s hold]

/-- A request other than the end keeps the entries of spaces. -/
theorem perform (h : l.Owned) (hplaced : l.Placed) {r : Request Work} (hopen : r ≠ .finish) :
    (l.perform r).Owned := by
  cases r with
  | define symbol =>
      cases hdefined : l.table.defines symbol.name with
      | true => rwa [perform_define_of_defines hdefined]
      | false =>
          rw [perform_define hdefined]
          exact settle (h.congr rfl fun s => .rfl)
  | align alignment => exact h.align alignment
  | reserve size alignment => exact (h.align alignment).congr rfl fun s => .rfl
  | reserveLater length alignment range =>
      rw [perform_reserveLater,
        await_of_accepts (hplaced.not_rejects_lengthEntry length alignment range)]
      exact (h.openSpace length alignment range).settle
  | await target sources work range => exact h.await (by cases target <;> simp)
  | takeReady | takeDiagnostics | takeEvents => exact h.congr rfl fun s => .rfl
  | finish => exact absurd rfl hopen

end Owned

/-! ## Runs -/

/-- A run with places of the layout leads to no other places, and keeps the entries of spaces as
long as it does not end. -/
theorem Placed.run {l : Layout Work} (hplaced : l.Placed) {rs : List (Request Work)}
    (hknows : l.Knows rs) :
    (l.run rs).Placed ∧ (l.Owned → Request.finish ∉ rs → (l.run rs).Owned) := by
  induction rs generalizing l with
  | nil => exact ⟨hplaced, fun h _ => h⟩
  | cons r rs ih =>
      obtain ⟨hall, howned⟩ := ih (hplaced.perform hknows.1) hknows.2
      refine ⟨hall, fun h hopen => howned (h.perform hplaced fun hr => hopen ?_) fun hrs =>
        hopen ?_⟩
      · simp [hr]
      · simp [hrs]

/-- An empty layout is settled, tells of no places, and has no spaces. -/
theorem settled_empty : ({} : Layout Work).Quiescent ∧ ({} : Layout Work).Placed ∧
    ({} : Layout Work).Owned := by
  have hkind (s : SpaceId) : SymbolTable.kind? {} s = none := by simp [SymbolTable.kind?]
  refine ⟨⟨by simp, ?_⟩, ⟨by simp [SymbolTable.Bounded], ?_, ?_, by simp⟩, ⟨?_, fun s _ => rfl⟩⟩
  · simp [hkind]
  · simp [SymbolTable.valueOf, SymbolTable.symbol?]
  · simp [hkind]
  · simp [Lacks, hkind]

/-- Settling ends in every layout, after a pass without progress. In a layout that comes from
requests with its own places no entry could be completed and no padding could get its length, and
storage of unknown length is never turned away. Before the end each space whose length is not known
has exactly one entry that waits for it. -/
theorem run_settled :
    (∀ l : Layout Work, ∃ n ≤ l.unsettled, (∀ k < n, (pass^[k] l).Progresses) ∧
      ¬ (pass^[n] l).Progresses ∧ l.settle = pass^[n + 1] l) ∧
    ∀ rs : List (Request Work), Knows {} rs →
      let l := run {} rs
      (∀ e ∈ l.entries, e.unknowns l.table ≠ []) ∧
      (∀ s anchor alignment, l.table.kind? s = some (.alignment anchor alignment) →
        l.table.length? s = none → (l.table.normalize anchor).spaces ≠ []) ∧
      (∀ length alignment range, ¬ (l.openSpace alignment).2.Rejects
        (lengthEntry (l.openSpace alignment).1 length range)) ∧
      (Request.finish ∉ rs → ∀ s, l.table.kind? s = some .length → l.table.length? s = none →
        l.entries.countP (·.target == some (.space s)) = 1) := by
  refine ⟨exists_iterate_pass, fun rs hknows => ?_⟩
  obtain ⟨hquiescent, hplaced, howned⟩ :
      ({} : Layout Work).Quiescent ∧ ({} : Layout Work).Placed ∧ ({} : Layout Work).Owned :=
    settled_empty
  obtain ⟨hplaced', howned'⟩ := hplaced.run hknows
  have hquiescent' := hquiescent.run rs
  refine ⟨fun e he hnil => ?_, hquiescent'.paddings, hplaced'.not_rejects_lengthEntry,
    fun hopen s hkind hnone => (howned' howned hopen).one s ⟨hkind, hnone⟩⟩
  -- an entry for which nothing is unknown would have been completed
  have hwaits := hquiescent'.entries e he
  simp [Entry.isSettled, hnil] at hwaits

/-- Storage of unknown length, and work that waits for the place behind it. -/
def spacedRun : List (Request String) :=
  [.reserveLater (.symbol ⟨0⟩ {}) .none {}, .align .fullword,
    .await none [.address ⟨0, [⟨0⟩]⟩] (some "check") {}]

/-- One entry waits for the length of that storage. -/
theorem spacedRun_settled : Knows {} spacedRun ∧ Request.finish ∉ spacedRun ∧
    let l := run {} spacedRun
    l.table.kind? ⟨0⟩ = some .length ∧ l.table.length? ⟨0⟩ = none ∧
      l.entries.countP (·.target == some (.space ⟨0⟩)) = 1 := by
  have hsize : (run {} (spacedRun.take 2)).table.spaces.size = 2 := by cbv
  have hknows : Knows {} spacedRun := by
    refine ⟨trivial, trivial, fun a ha s hs => ?_, trivial⟩
    obtain rfl : a = ⟨0, [⟨0⟩]⟩ := by simpa using ha
    obtain rfl : s = ⟨0⟩ := by simpa using hs
    exact hsize ▸ (by decide : 0 < 2)
  have hopen : Request.finish ∉ spacedRun := by simp [spacedRun]
  have hkind : (run {} spacedRun).table.kind? ⟨0⟩ = some .length := by cbv
  have hnone : (run {} spacedRun).table.length? ⟨0⟩ = none := by cbv
  exact ⟨hknows, hopen, hkind, hnone,
    (run_settled.2 spacedRun hknows).2.2.2 hopen ⟨0⟩ hkind hnone⟩

end Layout

end MacroAssembler
