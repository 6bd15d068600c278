import MacroAssembler.Proofs.Layout.Waiting
import MacroAssembler.Proofs.Layout.WaitFor

/-!
# Tracked runs

Every legal move keeps a history tracked (`Tracked.make`), and so the history of a legal run that
starts from nothing is tracked (`tracked_makeAll`). A move adds a symbol or a space together with
the registration that accounts for it, sets the entry aside, settles, and then queues the entry or
turns it away; an entry is turned away only if its target waits for itself (`circle_of_rejects`).
-/

namespace MacroAssembler

open Relation (TransGen ReflTransGen)

variable {Work : Type}

/-! ## Sound additions -/

namespace Entry.Fits

variable {t : SymbolTable} {e : Entry Work}

/-- An entry goes on to fit when another symbol is added. -/
theorem addSymbol {sym : OrdinarySymbol} (h : e.Fits t) (hfresh : t.defines sym.name = false) :
    e.Fits (t.addSymbol sym) := by
  have hne {n : NameId} (hdef : t.defines n = true) : n ≠ sym.name := by
    rintro rfl
    simp [hfresh] at hdef
  cases h with
  | work => exact .work
  | value hdef hundef =>
      refine .value (by simp [SymbolTable.defines_addSymbol, hdef]) ?_
      rwa [SymbolTable.valueOf_addSymbol_of_ne (hne hdef)]
  | place ha hval hnorm =>
      refine .place ha ?_ hnorm
      rwa [SymbolTable.valueOf_addSymbol_of_ne (hne (SymbolTable.defines_of_relocatable hval))]
  | length hkind hnone => exact .length hkind hnone

/-- An entry goes on to fit when a space is added. -/
theorem addSpace (h : e.Fits t) (k : SpaceKind) : e.Fits (t.addSpace k).2 := by
  have hext := SymbolTable.extends_addSpace (t := t) k
  cases h with
  | work => exact .work
  | value hdef hundef => exact .value hdef hundef
  | place ha hval hnorm =>
      refine .place (ha.extends hext) hval ?_
      rwa [SymbolTable.normalize_congr (SymbolTable.length?_addSpace k),
        SymbolTable.normalize_congr (SymbolTable.length?_addSpace k)]
  | length hkind hnone =>
      exact .length (hext.kind _ _ hkind) (by rwa [SymbolTable.length?_addSpace])

/-- A symbol that an entry determines is defined. -/
theorem defines {n : NameId} (h : e.Fits t) (htarget : e.target = some (.symbol n)) :
    t.defines n = true := by
  cases h with
  | work => simp at htarget
  | value hdef => cases htarget; exact hdef
  | place _ hval => cases htarget; exact SymbolTable.defines_of_relocatable hval
  | length => simp at htarget

/-- A space that an entry determines exists. -/
theorem kind {s : SpaceId} (h : e.Fits t) (htarget : e.target = some (.space s)) :
    t.kind? s = some .length := by
  cases h with
  | work => simp at htarget
  | value => simp at htarget
  | place => simp at htarget
  | length hkind => cases htarget; exact hkind

end Entry.Fits

/-- Entries for a target that no other entry has are told apart from the others. -/
theorem nodup_targets_append {es new : List (Entry Work)} {u : Unknown}
    (hes : (es.filterMap (·.target)).Nodup) (hnew : ∀ e ∈ new, e.target = some u)
    (hdistinct : (new.filterMap (·.target)).Nodup) (hfree : ∀ e ∈ es, e.target ≠ some u) :
    ((es ++ new).filterMap (·.target)).Nodup := by
  rw [List.filterMap_append]
  refine List.nodup_append.2 ⟨hes, hdistinct, fun v hv v' hv' => ?_⟩
  obtain ⟨e, he, htarget⟩ := List.mem_filterMap.1 hv
  obtain ⟨e', he', htarget'⟩ := List.mem_filterMap.1 hv'
  rw [hnew e' he'] at htarget'
  cases htarget'
  rintro rfl
  exact hfree e he htarget

namespace Layout

namespace Sound

variable {l l' : Layout Work} {aside aside' : List (Entry Work)}

/-- Only the table, the counter and the entries as a whole matter. -/
theorem regroup (h : l.Sound aside) (htable : l'.table = l.table)
    (hcounter : l.table.Bounded l'.counter)
    (hperm : (l'.entries ++ aside').Perm (l.entries ++ aside)) : l'.Sound aside' where
  counter := htable ▸ hcounter
  symbols := htable ▸ h.symbols
  anchors := htable ▸ h.anchors
  distinct := (hperm.filterMap _).nodup_iff.2 h.distinct
  fits := fun e he => htable ▸ h.fits e (hperm.subset he)

/-- A symbol is added, together with the entry that waits for its value. -/
theorem addSymbol {sym : OrdinarySymbol} (h : l.Sound aside)
    (hfresh : l.table.defines sym.name = false)
    (hbounded : ∀ a, sym.value = .relocatable a → l.table.Bounded a) (new : List (Entry Work))
    (hnew : ∀ e ∈ new, e.target = some (.symbol sym.name))
    (hdistinct : (new.filterMap (·.target)).Nodup)
    (hfits : ∀ e ∈ new, e.Fits (l.table.addSymbol sym)) :
    (l.addSymbol sym).Sound (aside ++ new) := by
  refine ⟨h.counter, fun n a hval => ?_, h.anchors, ?_, fun e he => ?_⟩
  · by_cases hn : n = sym.name
    · subst hn
      exact hbounded a ((SymbolTable.valueOf_addSymbol_self hfresh).symm.trans hval)
    · exact h.symbols n a ((SymbolTable.valueOf_addSymbol_of_ne hn).symm.trans hval)
  · show ((l.entries ++ (aside ++ new)).filterMap (·.target)).Nodup
    rw [← List.append_assoc]
    refine nodup_targets_append h.distinct hnew hdistinct fun e he htarget => ?_
    simp [(h.fits e he).defines htarget] at hfresh
  · simp only [← List.append_assoc, List.mem_append] at he
    rcases he with he | he
    · exact (h.fits e (List.mem_append.2 he)).addSymbol hfresh
    · exact hfits e he

/-- A space is added, together with the entry that waits for its length, and the counter moves to
a place with spaces that exist. -/
theorem addSpace {k : SpaceKind} {counter : Address} (h : l.Sound aside)
    (hcounter : (l.table.addSpace k).2.Bounded counter)
    (hanchor : ∀ anchor alignment, k = .alignment anchor alignment → l.table.Bounded anchor)
    {new : List (Entry Work)} (hnew : ∀ e ∈ new, e.target = some (.space (l.table.addSpace k).1))
    (hdistinct : (new.filterMap (·.target)).Nodup)
    (hfits : ∀ e ∈ new, e.Fits (l.table.addSpace k).2) :
    Sound { l with table := (l.table.addSpace k).2, counter } (aside ++ new) := by
  have hext := SymbolTable.extends_addSpace (t := l.table) k
  refine ⟨hcounter, fun n a hval => (h.symbols n a hval).extends hext,
    fun s anchor alignment hs => ?_, ?_, fun e he => ?_⟩
  · rw [SymbolTable.kind?_addSpace] at hs
    split at hs
    · rename_i hs'
      subst hs'
      exact hanchor anchor alignment (Option.some.inj hs)
    · exact h.anchors s anchor alignment hs
  · show ((l.entries ++ (aside ++ new)).filterMap (·.target)).Nodup
    rw [← List.append_assoc]
    refine nodup_targets_append h.distinct hnew hdistinct fun e he htarget => ?_
    have hkind := (h.fits e he).kind htarget
    simp [SymbolTable.kind?_fst_addSpace] at hkind
  · simp only [← List.append_assoc, List.mem_append] at he
    rcases he with he | he
    · exact (h.fits e (List.mem_append.2 he)).addSpace k
    · exact hfits e he

end Sound

/-! ## Tracked additions -/

namespace History.Tracked

variable {h h' : History Work}

/-- Only the table, the counter, the entries as a whole and the errors matter. -/
theorem regroup (ht : h.Tracked) (htable : h'.layout.table = h.layout.table)
    (hcounter : h.layout.table.Bounded h'.layout.counter)
    (hperm : (h'.layout.entries ++ h'.aside).Perm (h.layout.entries ++ h.aside))
    (hregistered : h'.registered = h.registered) (herrors : h.errors ≠ [] → h'.errors ≠ []) :
    h'.Tracked where
  sound := ht.sound.regroup htable hcounter hperm
  unique := hregistered ▸ ht.unique
  queued := fun e he => hregistered ▸ ht.queued e (hperm.subset he)
  shaped := by rw [hregistered, htable]; exact ht.shaped
  standing := fun r hr u hu => by
    rw [hregistered] at hr ⊢
    rw [htable]
    refine (ht.standing r hr u hu).imp (fun hmem => hperm.symm.subset hmem) fun hrest => ?_
    exact hrest.imp_right fun ⟨hbad, herr⟩ => ⟨hbad, herrors herr⟩
  undefined := by rw [hregistered, htable]; exact ht.undefined
  relocatable := fun n b hval => by
    rw [htable] at hval ⊢
    rw [hregistered]
    refine (ht.relocatable n b hval).imp_right fun ⟨r, hr, a, htr, hsources, hnorm, hmem⟩ => ?_
    exact ⟨r, hr, a, htr, hsources, hnorm, hmem.imp (fun hmem => hperm.symm.subset hmem) herrors⟩
  lengths := by rw [hregistered, htable]; exact ht.lengths
  paddings := htable ▸ ht.paddings
  grounded := by rw [hregistered, htable]; exact ht.grounded

end History.Tracked

/-- The table has grown by symbols and spaces for which the new registrations account, and no space
has got a length. -/
structure History.Grows (h : History Work) (new : List (Entry Work)) (h' : History Work) :
    Prop where
  entries : h'.layout.entries = h.layout.entries
  aside : h'.aside = h.aside ++ new
  registered : h'.registered = h.registered ++ new
  errors : h.errors ≠ [] → h'.errors ≠ []
  table : h.layout.table.Extends h'.layout.table
  length : h'.layout.table.length? = h.layout.table.length?
  sound : h'.layout.Sound h'.aside
  unique : (h'.registered.filterMap (·.target)).Nodup
  shaped : ∀ r ∈ new, r.Shaped h'.layout.table
  fresh : ∀ r ∈ new, ∀ u, r.target = some u → ¬ h.layout.table.Known u
  undefined : ∀ n, h'.layout.table.defines n = true → h'.layout.table.valueOf n = .undefined →
    h.layout.table.defines n = true ∧ h.layout.table.valueOf n = .undefined ∨
      ∃ r ∈ new, r.target = some (.symbol n)
  relocatable : ∀ n b, h'.layout.table.valueOf n = .relocatable b →
    h.layout.table.valueOf n = .relocatable b ∨ b.spaces = [] ∨
      ∃ r ∈ new, r.target = some (.symbol n) ∧ r.sources = [.address b]
  lengths : ∀ s, h'.layout.table.kind? s = some .length →
    h.layout.table.kind? s = some .length ∨ ∃ r ∈ new, r.target = some (.space s)
  /-- A symbol that is added with its value waits for known things only. -/
  known : ∀ n, h'.layout.table.Known (.symbol n) → ¬ h.layout.table.Known (.symbol n) →
    ∀ r ∈ h'.registered, r.target = some (.symbol n) → ∀ v ∈ r.mentions, h.layout.table.Known v

namespace History.Grows

variable {h h' : History Work} {new : List (Entry Work)}

/-- The new registrations stand beside the others. -/
theorem mem_registered (hg : h.Grows new h') {r : Entry Work} :
    r ∈ h'.registered ↔ r ∈ h.registered ∨ r ∈ new := by
  rw [hg.registered, List.mem_append]

/-- The new registrations are set aside, and the other entries stay where they are. -/
theorem mem_queued (hg : h.Grows new h') {e : Entry Work} :
    e ∈ h'.layout.entries ++ h'.aside ↔ e ∈ h.layout.entries ++ h.aside ∨ e ∈ new := by
  rw [hg.entries, hg.aside, ← List.append_assoc, List.mem_append]

/-- A space with a length has been there before. -/
theorem kind_of_length (hg : h.Grows new h') {s : SpaceId} {n : Int32} {k : SpaceKind}
    (hs : h.layout.table.length? s = some n) (hk : h'.layout.table.kind? s = some k) :
    h.layout.table.kind? s = some k := by
  obtain ⟨k', hk'⟩ := Option.isSome_iff_exists.1
    (SymbolTable.kind?_isSome_iff.2 (SymbolTable.lt_size_of_length? hs))
  rw [hk', ← hg.table.kind s k' hk', hk]

/-- What was known is as grounded as before: no new registration determines it. -/
theorem grounded_of_known (hg : h.Grows new h') (ht : h.Tracked) {u : Unknown}
    (hu : h.layout.table.Known u) : Grounded h'.registered h'.layout.table u := by
  refine (ht.grounded u hu).extends hg.table fun u v hu hw => ?_
  cases hw with
  | source hr htr hv =>
      rcases hg.mem_registered.1 hr with hr | hr
      · exact .source hr htr hv
      · exact absurd hu (hg.fresh _ hr _ htr)
  | anchor hk hs' =>
      obtain ⟨n, hn⟩ := Option.ne_none_iff_exists'.1 (SymbolTable.known_space_iff.1 hu)
      exact .anchor (hg.kind_of_length hn hk) hs'

/-- What is known now is grounded. -/
theorem grounded (hg : h.Grows new h') (ht : h.Tracked) {u : Unknown}
    (hu : h'.layout.table.Known u) : Grounded h'.registered h'.layout.table u := by
  by_cases hbefore : h.layout.table.Known u
  · exact hg.grounded_of_known ht hbefore
  · cases u with
    | space s =>
        rw [SymbolTable.known_space_iff] at hu hbefore
        exact absurd (hg.length ▸ hu) hbefore
    | symbol n =>
        refine .intro hu fun v hv => ?_
        cases hv with
        | source hr htr hv => exact hg.grounded_of_known ht (hg.known n hu hbefore _ hr htr v hv)

/-- A registration waits, has an answer, has failed, or belongs to a circle. -/
theorem standing (hg : h.Grows new h') (ht : h.Tracked) {r : Entry Work} (hr : r ∈ h'.registered)
    {u : Unknown} (hu : r.target = some u) :
    r ∈ h'.layout.entries ++ h'.aside ∨ r.Answered h'.layout.table ∨
      (r.Failed h'.layout.table ∨ TransGen (Waits h'.registered h'.layout.table) u u) ∧
        h'.errors ≠ [] := by
  rcases hg.mem_registered.1 hr with hr | hr
  · rcases ht.standing r hr u hu with hmem | hanswered | ⟨hbad, herr⟩
    · exact .inl (hg.mem_queued.2 (.inl hmem))
    · exact .inr (.inl (hanswered.extends hg.table))
    · refine .inr (.inr ⟨hbad.imp (·.extends hg.table) fun hcircle => ?_, hg.errors herr⟩)
      exact transGen_waits_mono hcircle (fun r hr => hg.mem_registered.2 (.inl hr)) hg.table
  · exact .inl (hg.mem_queued.2 (.inr hr))

end History.Grows

namespace History.Tracked

variable {h h' : History Work}

/-- A history that has grown from a tracked one is tracked. -/
theorem grow (ht : h.Tracked) (new : List (Entry Work)) (hg : h.Grows new h') : h'.Tracked := by
  have hnormalize := SymbolTable.normalize_congr hg.length
  refine
    { sound := hg.sound
      unique := hg.unique
      queued := fun e he =>
        hg.mem_registered.2 ((hg.mem_queued.1 he).imp_left (ht.queued e))
      shaped := fun r hr =>
        (hg.mem_registered.1 hr).elim (fun hr => (ht.shaped r hr).extends hg.table) (hg.shaped r)
      standing := fun r hr u => hg.standing ht hr
      undefined := fun n hdef hval => ?_
      relocatable := fun n b hval => ?_
      lengths := fun s hs => ?_
      paddings := fun s anchor alignment n hs hn => ?_
      grounded := fun u => hg.grounded ht }
  · rcases hg.undefined n hdef hval with ⟨hdef, hval⟩ | ⟨r, hr, htr⟩
    · obtain ⟨r, hr, htr⟩ := ht.undefined n hdef hval
      exact ⟨r, hg.mem_registered.2 (.inl hr), htr⟩
    · exact ⟨r, hg.mem_registered.2 (.inr hr), htr⟩
  · rcases hg.relocatable n b hval with hval | hnil | ⟨r, hr, htr, hsources⟩
    · refine (ht.relocatable n b hval).imp_right
        fun ⟨r, hr, a, htr, hsources, hnorm, hmem⟩ => ?_
      exact ⟨r, hg.mem_registered.2 (.inl hr), a, htr, hsources,
        by rw [hnormalize, hnormalize, hnorm],
        hmem.imp (fun hmem => hg.mem_queued.2 (.inl hmem)) hg.errors⟩
    · exact .inl hnil
    · exact .inr ⟨r, hg.mem_registered.2 (.inr hr), b, htr, hsources, rfl,
        .inl (hg.mem_queued.2 (.inr hr))⟩
  · rcases hg.lengths s hs with hs | ⟨r, hr, htr⟩
    · obtain ⟨r, hr, htr⟩ := ht.lengths s hs
      exact ⟨r, hg.mem_registered.2 (.inl hr), htr⟩
    · exact ⟨r, hg.mem_registered.2 (.inr hr), htr⟩
  · rw [hg.length] at hn
    rw [hnormalize]
    exact ht.paddings s anchor alignment n (hg.kind_of_length hn hs) hn

/-! ## Circles -/

/-- What is unknown of something is that thing, or something that it waits for. -/
theorem reflTransGen_of_mem_unknownsOf (ht : h.Tracked) {u v : Unknown}
    (hv : v ∈ h.layout.table.unknownsOf u) :
    ReflTransGen (Waits h.registered h.layout.table) u v := by
  cases u with
  | space s =>
      simp only [SymbolTable.unknownsOf] at hv
      split at hv
      · rw [List.mem_singleton.1 hv]
      · simp at hv
  | symbol n =>
      simp only [SymbolTable.unknownsOf, SymbolTable.unknownsOfSymbol] at hv
      split at hv
      · simp at hv
      · rename_i b hval
        obtain ⟨s, hs, hnone, rfl⟩ := SymbolTable.mem_unknownsOfAddress.1 hv
        obtain ⟨r, hr, a, htr, hsources, hnorm, -⟩ :=
          (ht.relocatable n b hval).resolve_left (fun hnil => by simp [hnil] at hs)
        have hmem := SymbolTable.mem_spaces_normalize.2 ⟨hs, hnone⟩
        rw [hnorm] at hmem
        refine .single (.source hr htr ?_)
        simp only [Entry.mentions, hsources, List.flatMap_cons, List.flatMap_nil, List.append_nil,
          Source.mentions]
        exact List.mem_map_of_mem (SymbolTable.mem_spaces_normalize.1 hmem).1
      · rw [List.mem_singleton.1 hv]

/-- The target of a registration waits for what the registration lacks. -/
theorem transGen_of_mem_unknowns (ht : h.Tracked) {r : Entry Work} {u v : Unknown}
    (hr : r ∈ h.registered) (htr : r.target = some u) (hv : v ∈ r.unknowns h.layout.table) :
    TransGen (Waits h.registered h.layout.table) u v := by
  obtain ⟨source, hsource, hv⟩ := List.mem_flatMap.1 hv
  obtain ⟨w, hw, hv⟩ := SymbolTable.mem_unknownsOfSource.1 hv
  have hmention : w ∈ r.mentions := List.mem_flatMap.2 ⟨source, hsource, hw⟩
  exact .head' (.source hr htr hmention) (ht.reflTransGen_of_mem_unknownsOf hv)

/-- The layout's own relation of waiting is contained in that of the registrations. -/
theorem transGen_of_waitsOn (ht : h.Tracked) {u v : Unknown} (hwaits : h.layout.WaitsOn u v) :
    TransGen (Waits h.registered h.layout.table) u v := by
  cases hwaits with
  | entry he htarget hv =>
      exact ht.transGen_of_mem_unknowns (ht.queued _ (List.mem_append_left _ he)) htarget hv
  | anchor hkind hs => exact .single (.anchor hkind (SymbolTable.mem_spaces_normalize.1 hs).1)

/-- An entry is turned away only if its target waits for itself. -/
theorem circle_of_rejects (ht : h.Tracked) {e : Entry Work} {u : Unknown}
    (he : e ∈ h.registered) (htarget : e.target = some u) (hrejects : h.layout.Rejects e) :
    TransGen (Waits h.registered h.layout.table) u u := by
  obtain ⟨u', hu', hmem⟩ := hrejects
  rw [htarget] at hu'
  cases hu'
  obtain ⟨v, hv, hpath⟩ := exists_path_of_mem_reachable hmem
  have hlift : ∀ w, ReflTransGen h.layout.WaitsOn v w →
      ReflTransGen (Waits h.registered h.layout.table) v w := by
    intro w hpath
    induction hpath with
    | refl => exact .refl
    | tail _ hstep ih => exact ih.trans (ht.transGen_of_waitsOn hstep).to_reflTransGen
  exact (ht.transGen_of_mem_unknowns he htarget hv).trans_left (hlift u hpath)

/-! ## Moves -/

/-- An entry that was set aside is turned away because its target waits for itself. -/
theorem reject (ht : h.Tracked) {e : Entry Work} {aside : List (Entry Work)}
    (haside : h.aside = aside ++ [e]) (hrejects : h.layout.Rejects e) :
    { h with layout := h.layout.await e, aside }.Tracked := by
  have he : e ∈ h.registered := ht.queued e (by simp [haside])
  obtain ⟨u, htarget, -⟩ := id hrejects
  have hcircle := ht.circle_of_rejects he htarget hrejects
  obtain ⟨event, hawait⟩ := await_of_rejects hrejects
  rw [hawait]
  have herrors : ∀ (errors : List (Range × LayoutError)) error,
      h.fetched ++ (errors ++ [error]) ≠ [] := by simp
  have hsublist : (h.layout.entries ++ aside).Sublist (h.layout.entries ++ h.aside) := by
    rw [haside]
    exact (List.sublist_append_left _ _).append_left _
  exact
    { sound :=
        { counter := ht.sound.counter
          symbols := ht.sound.symbols
          anchors := ht.sound.anchors
          distinct := ht.sound.distinct.sublist (hsublist.filterMap _)
          fits := fun e' he' => ht.sound.fits e' (hsublist.subset he') }
      unique := ht.unique
      queued := fun e' he' => ht.queued e' (hsublist.subset he')
      shaped := ht.shaped
      standing := fun r hr v hv => by
        rcases ht.standing r hr v hv with hmem | hanswered | ⟨hbad, -⟩
        · by_cases hre : r = e
          · subst hre
            rw [htarget] at hv
            cases hv
            exact .inr (.inr ⟨.inr hcircle, herrors _ _⟩)
          · refine .inl ?_
            simp only [haside, List.mem_append, List.mem_singleton] at hmem
            exact List.mem_append.2 (hmem.imp_right (·.resolve_right hre))
        · exact .inr (.inl hanswered)
        · exact .inr (.inr ⟨hbad, herrors _ _⟩)
      undefined := ht.undefined
      relocatable := fun n b hval => by
        refine (ht.relocatable n b hval).imp_right
          fun ⟨r, hr, a, htr, hsources, hnorm, _⟩ => ?_
        exact ⟨r, hr, a, htr, hsources, hnorm, .inr (herrors _ _)⟩
      lengths := ht.lengths
      paddings := ht.paddings
      grounded := ht.grounded }

/-- An entry that was set aside is queued, or turned away. -/
theorem await (ht : h.Tracked) {e : Entry Work} {aside : List (Entry Work)}
    (haside : h.aside = aside ++ [e]) :
    { h with layout := h.layout.await e, aside }.Tracked := by
  by_cases hrejects : h.layout.Rejects e
  · exact ht.reject haside hrejects
  · rw [await_of_accepts hrejects]
    have hqueued : { h with layout := h.layout.enqueue e, aside }.Tracked := by
      refine ht.regroup rfl ht.sound.counter ?_ rfl (fun herr => herr)
      rw [haside]
      simp only [enqueue, List.append_assoc]
      exact List.perm_append_comm.append_left _
    exact hqueued.settle

/-- Nothing is registered for a symbol that is not defined. -/
theorem target_ne_of_not_defines (ht : h.Tracked) {n : NameId}
    (hfresh : h.layout.table.defines n = false) {r : Entry Work} (hr : r ∈ h.registered) :
    r.target ≠ some (.symbol n) := by
  intro htr
  simp [(ht.shaped r hr).defines htr] at hfresh

/-- A symbol is added, together with the registrations that wait for its value. -/
theorem addSymbol (ht : h.Tracked) {sym : OrdinarySymbol}
    (hfresh : h.layout.table.defines sym.name = false) (new : List (Entry Work))
    (hnew : ∀ e ∈ new, e.target = some (.symbol sym.name))
    (hdistinct : (new.filterMap (·.target)).Nodup)
    (hfits : ∀ e ∈ new, e.Fits (h.layout.table.addSymbol sym))
    (hshaped : ∀ e ∈ new, e.Shaped (h.layout.table.addSymbol sym))
    (hundefined : sym.value = .undefined → ∃ e, e ∈ new)
    (hrelocatable : ∀ a, sym.value = .relocatable a → h.layout.table.Bounded a ∧
      (a.spaces = [] ∨ ∃ e ∈ new, e.sources = [.address a]))
    (hknown : (h.layout.table.addSymbol sym).Known (.symbol sym.name) →
      ∀ e ∈ new, ∀ v ∈ e.mentions, h.layout.table.Known v) :
    { h with
      layout := h.layout.addSymbol sym
      registered := h.registered ++ new
      aside := h.aside ++ new }.Tracked := by
  have hother {n : NameId} (hn : n ≠ sym.name) :
      (h.layout.table.addSymbol sym).valueOf n = h.layout.table.valueOf n :=
    SymbolTable.valueOf_addSymbol_of_ne hn
  have hself : (h.layout.table.addSymbol sym).valueOf sym.name = sym.value :=
    SymbolTable.valueOf_addSymbol_self hfresh
  refine ht.grow new
    { entries := rfl
      aside := rfl
      registered := rfl
      errors := fun herr => herr
      table := SymbolTable.extends_addSymbol sym
      length := rfl
      sound := ht.sound.addSymbol hfresh (fun a ha => (hrelocatable a ha).1) new hnew hdistinct
        hfits
      unique := nodup_targets_append ht.unique hnew hdistinct fun r =>
        ht.target_ne_of_not_defines hfresh
      shaped := hshaped
      fresh := fun r hr u hu hknown => ?_
      undefined := fun n hdef hval => ?_
      relocatable := fun n b hval => ?_
      lengths := fun s hs => .inl hs
      known := fun n hn hbefore r hr htr => ?_ }
  · rw [hnew r hr] at hu
    cases hu
    exact (SymbolTable.known_symbol_iff.1 hknown).1 (SymbolTable.valueOf_of_not_defines hfresh)
  · by_cases hn : n = sym.name
    · subst hn
      obtain ⟨e, he⟩ := hundefined (hself.symm.trans hval)
      exact .inr ⟨e, he, hnew e he⟩
    · refine .inl ⟨?_, (hother hn).symm.trans hval⟩
      have hdef' : (h.layout.table.addSymbol sym).defines n = true := hdef
      simpa [SymbolTable.defines_addSymbol, Ne.symm hn] using hdef'
  · by_cases hn : n = sym.name
    · subst hn
      refine .inr ((hrelocatable b (hself.symm.trans hval)).2.imp_right fun ⟨e, he, hsources⟩ => ?_)
      exact ⟨e, he, hnew e he, hsources⟩
    · exact .inl ((hother hn).symm.trans hval)
  · by_cases hsame : n = sym.name
    · subst hsame
      refine (List.mem_append.1 hr).elim (fun hr => ?_) (hknown hn r)
      exact absurd htr (ht.target_ne_of_not_defines hfresh hr)
    · have hlength := SymbolTable.length?_addSymbol (t := h.layout.table) sym
      exact absurd ((SymbolTable.known_symbol_congr hlength (hother hsame)).1 hn) hbefore

/-- A symbol with a value that waits for nothing is added. -/
theorem define (ht : h.Tracked) {sym : OrdinarySymbol}
    (hfresh : h.layout.table.defines sym.name = false) (hvalue : sym.value ≠ .undefined)
    (hspaces : ∀ a, sym.value = .relocatable a → a.spaces = []) :
    { h with layout := h.layout.addSymbol sym }.Tracked := by
  have hadded := ht.addSymbol hfresh [] (by simp) (by simp) (by simp) (by simp)
    (fun hundef => absurd hundef hvalue)
    (fun a ha => ⟨SymbolTable.bounded_of_spaces_nil (hspaces a ha), .inl (hspaces a ha)⟩) (by simp)
  simpa using hadded

/-- A symbol whose value waits is added, together with the entry that waits for it. -/
theorem declare (ht : h.Tracked) {sym : OrdinarySymbol} {source : Source} (range : Range)
    (hfresh : h.layout.table.defines sym.name = false)
    (hsource : (∃ e, source = .expr e ∧ sym.value = .undefined) ∨
      ∃ a, source = .address a ∧ sym.value = .relocatable a ∧ h.layout.table.Bounded a) :
    let e : Entry Work := ⟨some (.symbol sym.name), [source], none, range⟩
    { h with
      layout := h.layout.addSymbol sym
      registered := h.registered ++ [e]
      aside := h.aside ++ [e] }.Tracked := by
  intro e
  have hself : (h.layout.table.addSymbol sym).valueOf sym.name = sym.value :=
    SymbolTable.valueOf_addSymbol_self hfresh
  have hdefined : (h.layout.table.addSymbol sym).defines sym.name = true := by
    simp [SymbolTable.defines_addSymbol]
  have hfits : e.Fits (h.layout.table.addSymbol sym) := by
    rcases hsource with ⟨x, rfl, hval⟩ | ⟨b, rfl, hval, hb⟩
    · exact .value hdefined (hself.trans hval)
    · exact .place hb (hself.trans hval) rfl
  refine ht.addSymbol hfresh [e] (by simp [e]) (by simp [e]) (by simpa using hfits)
    (by simpa using .symbol hdefined) (fun _ => ⟨e, List.mem_singleton_self e⟩)
    (fun a ha => ?_) (fun hknown r hr v hv => ?_)
  · rcases hsource with ⟨x, -, hval⟩ | ⟨b, rfl, hval, hb⟩
    · simp [hval] at ha
    · rw [hval] at ha
      cases ha
      exact ⟨hb, .inr ⟨e, List.mem_singleton_self e, rfl⟩⟩
  · obtain rfl := List.mem_singleton.1 hr
    obtain ⟨hvalue, hspaces⟩ := SymbolTable.known_symbol_iff.1 hknown
    rcases hsource with ⟨x, -, hundef⟩ | ⟨a, rfl, haddress, -⟩
    · exact absurd (hself.trans hundef) hvalue
    · simp only [e, Entry.mentions, List.flatMap_cons, List.flatMap_nil, List.append_nil,
        Source.mentions, List.mem_map] at hv
      obtain ⟨s, hs, rfl⟩ := hv
      exact known_of_normalize_spaces (hspaces a (hself.trans haddress)) s hs

/-- Nothing is registered for a space that does not exist. -/
theorem target_ne_of_not_kind (ht : h.Tracked) {s : SpaceId} (hnone : h.layout.table.kind? s = none)
    {r : Entry Work} (hr : r ∈ h.registered) : r.target ≠ some (.space s) := by
  intro htr
  simp [(ht.shaped r hr).kind htr] at hnone

/-- A space is added, together with the entry that waits for its length, should it be one. -/
theorem addSpace (ht : h.Tracked) {k : SpaceKind} {counter : Address}
    (hcounter : (h.layout.table.addSpace k).2.Bounded counter)
    (hanchor : ∀ anchor alignment, k = .alignment anchor alignment →
      h.layout.table.Bounded anchor) (new : List (Entry Work))
    (hnew : k = .length ∧ (∃ e range, new = [lengthEntry (h.layout.table.addSpace k).1 e range]) ∨
      k ≠ .length ∧ new = []) :
    { h with
      layout := { h.layout with table := (h.layout.table.addSpace k).2, counter }
      registered := h.registered ++ new
      aside := h.aside ++ new }.Tracked := by
  have htarget : ∀ e ∈ new, e.target = some (.space (h.layout.table.addSpace k).1) := by
    rcases hnew with ⟨-, e, range, rfl⟩ | ⟨-, rfl⟩ <;> simp [lengthEntry]
  have hkind : (h.layout.table.addSpace k).2.kind? (h.layout.table.addSpace k).1 = some k := by
    rw [SymbolTable.kind?_addSpace, if_pos rfl]
  have hdistinct : (new.filterMap (·.target)).Nodup := by
    rcases hnew with ⟨-, e, range, rfl⟩ | ⟨-, rfl⟩ <;> simp [lengthEntry]
  refine ht.grow new
    { entries := rfl
      aside := rfl
      registered := rfl
      errors := fun herr => herr
      table := SymbolTable.extends_addSpace k
      length := SymbolTable.length?_addSpace k
      sound := ht.sound.addSpace hcounter hanchor htarget hdistinct ?_
      unique := nodup_targets_append ht.unique htarget hdistinct fun r =>
        ht.target_ne_of_not_kind (SymbolTable.kind?_fst_addSpace k)
      shaped := fun r hr => ?_
      fresh := fun r hr u hu hknown => ?_
      undefined := fun n hdef hval => .inl ⟨hdef, hval⟩
      relocatable := fun n b hval => .inl hval
      lengths := fun s hs => ?_
      known := fun n hn hbefore => ?_ }
  · rcases hnew with ⟨rfl, e, range, rfl⟩ | ⟨-, rfl⟩
    · intro e' he'
      rw [List.mem_singleton.1 he']
      refine .length hkind ?_
      rw [SymbolTable.length?_addSpace, SymbolTable.length?_fst_addSpace]
    · simp
  · rcases hnew with ⟨rfl, e, range, rfl⟩ | ⟨-, rfl⟩
    · rw [List.mem_singleton.1 hr]
      exact .space hkind
    · simp at hr
  · rw [htarget r hr] at hu
    cases hu
    exact SymbolTable.known_space_iff.1 hknown (SymbolTable.length?_fst_addSpace k)
  · have hs' : (h.layout.table.addSpace k).2.kind? s = some .length := hs
    rw [SymbolTable.kind?_addSpace] at hs'
    split at hs'
    · rename_i hs
      subst hs
      rcases hnew with ⟨-, e, range, rfl⟩ | ⟨hk, -⟩
      · exact .inr ⟨_, List.mem_singleton_self _, rfl⟩
      · exact absurd (Option.some.inj hs') hk
    · exact .inl hs'
  · have hvalue : (h.layout.table.addSpace k).2.valueOf n = h.layout.table.valueOf n := rfl
    exact absurd ((SymbolTable.known_symbol_congr (SymbolTable.length?_addSpace k) hvalue).1 hn)
      hbefore

/-- The counter is aligned. -/
theorem align (ht : h.Tracked) (alignment : Alignment) :
    { h with layout := (h.layout.align alignment).2 }.Tracked := by
  have haligns := align_aligns h.layout alignment
  generalize (h.layout.align alignment).1 = place at haligns
  generalize (h.layout.align alignment).2 = aligned at haligns
  have hplace : h.layout.table.Bounded h.layout.place := ht.sound.counter.normalize
  cases haligns with
  | stay => exact ht
  | known hboundary hnil =>
      refine ht.regroup rfl ?_ (.refl _) rfl (fun herr => herr)
      exact SymbolTable.bounded_of_spaces_nil hnil
  | padded hboundary hspaces =>
      have hpadded := ht.addSpace (hplace.behind (.alignment h.layout.place alignment))
        (fun anchor _ heq => by cases heq; exact hplace) [] (.inr ⟨by simp, rfl⟩)
      simpa using hpadded

/-- A storage area of unknown length is opened. -/
theorem openSpace (ht : h.Tracked) (alignment : Alignment) (length : OrdinaryExpr NameId)
    (range : Range) :
    let e : Entry Work := lengthEntry (h.layout.openSpace alignment).1 length range
    { h with
      layout := (h.layout.openSpace alignment).2
      registered := h.registered ++ [e]
      aside := h.aside ++ [e] }.Tracked := by
  have haligned := ht.align alignment
  exact haligned.addSpace (haligned.sound.counter.behind .length) (by simp) [_]
    (.inl ⟨rfl, length, range, rfl⟩)

/-- Work is registered and set aside. -/
theorem register (ht : h.Tracked) {e : Entry Work} (htarget : e.target = none)
    (hsources : ∀ source ∈ e.sources, ∃ x, source = .expr x) :
    { h with registered := h.registered ++ [e], aside := h.aside ++ [e] }.Tracked := by
  obtain ⟨target, sources, work, range⟩ := e
  cases htarget
  refine ht.grow [_]
    { entries := rfl
      aside := rfl
      registered := rfl
      errors := fun herr => herr
      table := .refl _
      length := rfl
      sound := ⟨ht.sound.counter, ht.sound.symbols, ht.sound.anchors, ?_, fun e he => ?_⟩
      unique := by simpa using ht.unique
      shaped := fun r hr => ?_
      fresh := by simp
      undefined := fun n hdef hval => .inl ⟨hdef, hval⟩
      relocatable := fun n b hval => .inl hval
      lengths := fun s hs => .inl hs
      known := fun n hknown hbefore => absurd hknown hbefore }
  · have hdistinct := ht.sound.distinct
    simpa using hdistinct
  · rw [← List.append_assoc, List.mem_append, List.mem_singleton] at he
    rcases he with he | rfl
    · exact ht.sound.fits e he
    · exact .work
  · rw [List.mem_singleton.1 hr]
    exact .work hsources

/-- The blame and the work released do not matter. -/
theorem congr (ht : h.Tracked) (hlayout : h'.layout = h.layout)
    (hregistered : h'.registered = h.registered) (haside : h'.aside = h.aside)
    (hfetched : h'.fetched = h.fetched) : h'.Tracked := by
  refine ht.regroup (by rw [hlayout]) (by rw [hlayout]; exact ht.sound.counter)
    (by rw [hlayout, haside]) hregistered ?_
  simp [errors, hlayout, hfetched]

/-- An entry that a legal move registers is set aside. -/
theorem setAside (ht : h.Tracked) {m : Move Work} (hlegal : m.Legal h.layout)
    {opened : Layout Work} {e : Entry Work} (hreg : m.registration? h.layout = some (opened, e)) :
    { h with
      layout := opened
      registered := h.registered ++ [e]
      aside := h.aside ++ [e] }.Tracked := by
  cases m with
  | declare sym source range =>
      obtain ⟨rfl, rfl⟩ := Prod.mk.inj (Option.some.inj hreg)
      obtain ⟨hfresh, hsource⟩ := hlegal
      have hsettled := (ht.declare range hfresh hsource).settle
      refine hsettled.regroup ?_ ?_ ?_ rfl (fun herr => ?_)
      all_goals
        simp only [run_cons, run_nil, perform_define hfresh]
      · rfl
      · exact hsettled.sound.counter
      · exact .refl _
      · exact herr
  | postpone sources work range =>
      obtain ⟨rfl, rfl⟩ := Prod.mk.inj (Option.some.inj hreg)
      exact ht.register rfl hlegal
  | reserveLater length alignment range =>
      obtain ⟨rfl, rfl⟩ := Prod.mk.inj (Option.some.inj hreg)
      exact ht.openSpace alignment length range
  | _ => simp [Move.registration?] at hreg

/-- A legal move keeps a history tracked. -/
theorem make (ht : h.Tracked) {m : Move Work} (hlegal : m.Legal h.layout) : (h.make m).Tracked := by
  cases hreg : m.registration? h.layout with
  | some found =>
      obtain ⟨opened, e⟩ := found
      refine ((ht.setAside hlegal hreg).await rfl).congr ?_ ?_ ?_ ?_
      · exact make_of_registration hreg
      · simp [History.make, hreg]
      · cases m <;> simp_all [History.make, Move.registration?, abandons]
      · cases m <;> simp_all [History.make, Move.registration?, fetches]
  | none =>
      have hregistered : (h.make m).registered = h.registered := by simp [History.make, hreg]
      cases m with
      | define sym =>
          obtain ⟨hfresh, hvalue, hspaces⟩ := hlegal
          refine (ht.define hfresh hvalue hspaces).settle.congr (perform_define hfresh)
            hregistered ?_ ?_
          all_goals simp [History.make, abandons, fetches]
      | align alignment =>
          refine (ht.align alignment).congr rfl hregistered ?_ ?_
          all_goals simp [History.make, abandons, fetches]
      | reserve size alignment =>
          have haligned := ht.align alignment
          refine haligned.regroup rfl haligned.sound.counter ?_ hregistered ?_
          all_goals simp [History.make, abandons, fetches, errors, Layout.make, Move.requests,
            perform_reserve]
      | takeReady =>
          refine ht.regroup rfl ht.sound.counter ?_ hregistered ?_
          all_goals simp [History.make, abandons, fetches, errors, Layout.make, Move.requests,
            perform, takeReady]
      | takeDiagnostics names =>
          refine ht.regroup rfl ht.sound.counter ?_ hregistered ?_
          all_goals simp [History.make, abandons, fetches, errors, Layout.make, Move.requests,
            perform, takeDiagnostics]
      | takeEvents =>
          refine ht.regroup rfl ht.sound.counter ?_ hregistered ?_
          all_goals simp [History.make, abandons, fetches, errors, Layout.make, Move.requests,
            perform, takeEvents]
      | finish =>
          have hsettled := ht.settle
          refine hsettled.regroup rfl hsettled.sound.counter ?_ hregistered fun herr => ?_
          · show ([] ++ (h.aside ++ h.layout.settle.entries)).Perm
              (h.layout.settle.entries ++ h.aside)
            rw [List.nil_append]
            exact List.perm_append_comm
          · simp only [errors, History.make, fetches, Layout.make, Move.requests, run_cons, run_nil,
              perform, Layout.finish, ne_eq, List.append_eq_nil_iff] at herr ⊢
            tauto
      | declare | postpone | reserveLater => simp [Move.registration?] at hreg

/-- The history of a legal run that goes on from a tracked one is tracked. -/
theorem makeAll (ht : h.Tracked) {ms : List (Move Work)} (hlegal : h.layout.Legal ms) :
    (h.makeAll ms).Tracked := by
  induction ms generalizing h with
  | nil => exact ht
  | cons m ms ih => exact ih (ht.make hlegal.1) hlegal.2

/-! ## Growth -/

/-- An entry that was set aside is put into the queue. -/
theorem enqueue (ht : h.Tracked) {e : Entry Work} {aside : List (Entry Work)}
    (haside : h.aside = aside ++ [e]) : (h.layout.enqueue e).Sound aside := by
  refine ht.sound.regroup rfl ht.sound.counter ?_
  rw [haside]
  simp only [Layout.enqueue, List.append_assoc]
  exact List.perm_append_comm.append_left _

/-- Letting an entry wait adds knowledge. -/
theorem extends_await (ht : h.Tracked) {e : Entry Work} {aside : List (Entry Work)}
    (haside : h.aside = aside ++ [e]) : h.layout.table.Extends (h.layout.await e).table := by
  by_cases hrejects : h.layout.Rejects e
  · obtain ⟨event, hawait⟩ := await_of_rejects hrejects
    rw [hawait]
    exact .refl _
  · rw [await_of_accepts hrejects]
    -- putting the entry into the queue changes no table, and settling the queue extends it
    exact (ht.enqueue haside).settle.2

/-- Defining a symbol adds knowledge to the table with that symbol. -/
theorem extends_make_define (ht : h.Tracked) {sym : OrdinarySymbol}
    (hlegal : (Move.define sym : Move Work).Legal h.layout) :
    (h.layout.table.addSymbol sym).Extends (h.layout.make (.define sym)).table := by
  obtain ⟨hfresh, hvalue, hspaces⟩ := hlegal
  simp only [Layout.make, Move.requests, run_cons, run_nil, perform_define hfresh]
  exact (ht.define hfresh hvalue hspaces).sound.settle.2

/-- Declaring a symbol adds knowledge to the table with that symbol. -/
theorem extends_make_declare (ht : h.Tracked) {sym : OrdinarySymbol} {source : Source}
    {range : Range} (hlegal : (Move.declare sym source range : Move Work).Legal h.layout) :
    (h.layout.table.addSymbol sym).Extends (h.layout.make (.declare sym source range)).table := by
  rw [make_of_registration rfl]
  refine .trans ?_ ((ht.setAside hlegal rfl).extends_await rfl)
  simp only [run_cons, run_nil, perform_define hlegal.1]
  exact (ht.declare range hlegal.1 hlegal.2).sound.settle.2

/-- A legal move adds knowledge. -/
theorem extends_make (ht : h.Tracked) {m : Move Work} (hlegal : m.Legal h.layout) :
    h.layout.table.Extends (h.layout.make m).table := by
  cases m with
  | define sym => exact (SymbolTable.extends_addSymbol sym).trans (ht.extends_make_define hlegal)
  | declare sym source range =>
      exact (SymbolTable.extends_addSymbol sym).trans (ht.extends_make_declare hlegal)
  | postpone sources work range =>
      rw [make_of_registration rfl]
      exact (ht.setAside hlegal rfl).extends_await rfl
  | reserveLater length alignment range =>
      rw [make_of_registration rfl]
      exact (extends_openSpace _ alignment).trans ((ht.setAside hlegal rfl).extends_await rfl)
  | align alignment => exact extends_align _ alignment
  | reserve size alignment => exact extends_align _ alignment
  | takeReady | takeDiagnostics | takeEvents => exact .refl _
  | finish => exact ht.sound.settle.2

/-- A legal run adds knowledge. -/
theorem extends_makeAll (ht : h.Tracked) {ms : List (Move Work)} (hlegal : h.layout.Legal ms) :
    h.layout.table.Extends (h.layout.makeAll ms).table := by
  induction ms generalizing h with
  | nil => exact .refl _
  | cons m ms ih => exact (ht.extends_make hlegal.1).trans (ih (ht.make hlegal.1) hlegal.2)

end History.Tracked

/-- What is registered stays registered. -/
theorem History.registered_subset (h : History Work) (ms : List (Move Work)) :
    h.registered ⊆ (h.makeAll ms).registered := by
  induction ms generalizing h with
  | nil => exact List.Subset.refl _
  | cons m ms ih => exact List.Subset.trans (List.subset_append_left _ _) (ih (h.make m))

/-- An empty history is tracked. -/
theorem tracked_empty : ({} : History Work).Tracked := by
  have hvalue (n : NameId) : SymbolTable.valueOf {} n = .undefined := rfl
  have hkind (s : SpaceId) : SymbolTable.kind? {} s = none := by simp [SymbolTable.kind?]
  refine ⟨⟨?_, ?_, ?_, ?_, ?_⟩, ?_, ?_, ?_, ?_, ?_, ?_, ?_, ?_, ?_⟩
  · simp [SymbolTable.Bounded]
  · simp [hvalue]
  · simp [hkind]
  · simp
  · simp
  · simp
  · simp
  · simp
  · simp
  · simp [SymbolTable.defines, SymbolTable.symbol?]
  · simp [hvalue]
  · simp [hkind]
  · simp [hkind]
  · intro u hu
    cases u with
    | symbol n => exact absurd (hvalue n) (SymbolTable.known_symbol_iff.1 hu).1
    | space s => exact absurd (by simp [SymbolTable.length?]) (SymbolTable.known_space_iff.1 hu)

/-- The history of a legal run is tracked. -/
theorem tracked_makeAll {ms : List (Move Work)} (hlegal : Legal ({} : Layout Work) ms) :
    (History.makeAll {} ms).Tracked :=
  tracked_empty.makeAll hlegal

end Layout

end MacroAssembler
