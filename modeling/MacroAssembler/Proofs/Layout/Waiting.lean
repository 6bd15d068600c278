import Mathlib.Data.List.Pairwise
import Mathlib.Tactic.Tauto
import MacroAssembler.Proofs.Layout.Moves

/-!
# What waits for what

A registration makes its target wait for the symbols and spaces that its sources mention, and a
padding waits for the spaces in front of it. A history is tracked if nothing is without a value
unless a registration accounts for it: every registration still waits, has given its target a
value, has failed with an error, or was turned away because its target waits for itself. What is
known waits for known things only, and there is no circle among them. Settling keeps a history
tracked (`Tracked.settle`).
-/

namespace MacroAssembler

open Relation (TransGen)

variable {Work : Type}

/-- The symbols and spaces that an entry mentions. -/
def Entry.mentions (e : Entry Work) : List Unknown := e.sources.flatMap Source.mentions

/-- An entry waits for nothing if all it mentions is known. -/
theorem Entry.isSettled_iff_known {e : Entry Work} {t : SymbolTable} :
    e.isSettled t = true ↔ ∀ u ∈ e.mentions, t.Known u := by
  simp only [Entry.isSettled, Entry.unknowns, List.isEmpty_iff, List.flatMap_eq_nil_iff,
    SymbolTable.unknownsOfSource_eq_nil_iff, Entry.mentions, List.mem_flatMap]
  constructor
  · rintro h u ⟨source, hsource, hu⟩
    exact h source hsource u hu
  · exact fun h source hsource u hu => h u ⟨source, hsource, hu⟩

namespace Entry

variable {t t' : SymbolTable} {e : Entry Work}

/-- An entry with a target has one source, and the target exists. -/
inductive Shaped (t : SymbolTable) : Entry Work → Prop where
  | work {sources work range} : (∀ source ∈ sources, ∃ e, source = .expr e) →
      Shaped t ⟨none, sources, work, range⟩
  | symbol {n source work range} : t.defines n = true →
      Shaped t ⟨some (.symbol n), [source], work, range⟩
  | space {s e work range} : t.kind? s = some .length →
      Shaped t ⟨some (.space s), [.expr e], work, range⟩

/-- The target of an entry has the value of its source. -/
inductive Answered (t : SymbolTable) : Entry Work → Prop where
  | symbol {n source v work range} : t.unknownsOfSource source = [] →
      t.evaluateSource source = .ok v → v.Becomes t (t.valueOf n) →
      Answered t ⟨some (.symbol n), [source], work, range⟩
  | space {s source n work range} : t.unknownsOfSource source = [] →
      t.evaluateSource source = .ok (.absolute n) → 0 ≤ n → t.length? s = some n →
      Answered t ⟨some (.space s), [source], work, range⟩

/-- The source of an entry waits for nothing and yet has no value for its target. -/
inductive Failed (t : SymbolTable) : Entry Work → Prop where
  | symbol {n source error work range} : t.unknownsOfSource source = [] →
      t.evaluateSource source = .error error →
      Failed t ⟨some (.symbol n), [source], work, range⟩
  | space {s source work range} : t.unknownsOfSource source = [] → t.length? s = some 0 →
      (∀ n, t.evaluateSource source = .ok (.absolute n) → ¬ 0 ≤ n) →
      Failed t ⟨some (.space s), [source], work, range⟩

/-- An entry keeps its shape. -/
theorem Shaped.extends (h : e.Shaped t) (hext : t.Extends t') : e.Shaped t' := by
  cases h with
  | work hexpr => exact .work hexpr
  | symbol hdef => exact .symbol (hext.defines hdef)
  | space hkind => exact .space (hext.kind _ _ hkind)

/-- A symbol that an entry determines is defined. -/
theorem Shaped.defines (h : e.Shaped t) {n : NameId} (htarget : e.target = some (.symbol n)) :
    t.defines n = true := by
  cases h with
  | work => simp at htarget
  | symbol hdef => cases htarget; exact hdef
  | space => simp at htarget

/-- A space that an entry determines stands for a length. -/
theorem Shaped.kind (h : e.Shaped t) {s : SpaceId} (htarget : e.target = some (.space s)) :
    t.kind? s = some .length := by
  cases h with
  | work => simp at htarget
  | symbol => simp at htarget
  | space hkind => cases htarget; exact hkind

/-- An answer stays. -/
theorem Answered.extends (h : e.Answered t) (hext : t.Extends t') : e.Answered t' := by
  cases h with
  | symbol hnil hv hbecomes =>
      refine .symbol (hext.unknownsOfSource_eq_nil hnil) ((hext.evaluateSource_eq hnil).trans hv) ?_
      exact hbecomes.trans (hext.valueOf _) hext
  | space hnil hv hle hlength =>
      exact .space (hext.unknownsOfSource_eq_nil hnil) ((hext.evaluateSource_eq hnil).trans hv) hle
        (hext.length _ _ hlength)

/-- A failure stays. -/
theorem Failed.extends (h : e.Failed t) (hext : t.Extends t') : e.Failed t' := by
  cases h with
  | symbol hnil hv =>
      exact .symbol (hext.unknownsOfSource_eq_nil hnil) ((hext.evaluateSource_eq hnil).trans hv)
  | space hnil hlength hbad =>
      refine .space (hext.unknownsOfSource_eq_nil hnil) (hext.length _ _ hlength) ?_
      rwa [hext.evaluateSource_eq hnil]

end Entry

/-! ## The relation -/

/-- The registrations `rs` and the paddings of a table make the first wait for the second. -/
inductive Waits (rs : List (Entry Work)) (t : SymbolTable) : Unknown → Unknown → Prop where
  | source {r u v} : r ∈ rs → r.target = some u → v ∈ r.mentions → Waits rs t u v
  | anchor {s anchor alignment s'} : t.kind? s = some (.alignment anchor alignment) →
      s' ∈ anchor.spaces → Waits rs t (.space s) (.space s')

/-- Something known that waits for such things only, and not for itself. -/
inductive Grounded (rs : List (Entry Work)) (t : SymbolTable) : Unknown → Prop where
  | intro {u} : t.Known u → (∀ v, Waits rs t u v → Grounded rs t v) → Grounded rs t u

section Waits

variable {rs rs' : List (Entry Work)} {t t' : SymbolTable} {u v : Unknown}

/-- More registrations and more spaces only add to what waits. -/
theorem Waits.mono (h : Waits rs t u v) (hsubset : rs ⊆ rs') (hext : t.Extends t') :
    Waits rs' t' u v := by
  cases h with
  | source hr ht hv => exact .source (hsubset hr) ht hv
  | anchor hkind hs => exact .anchor (hext.kind _ _ hkind) hs

/-- A circle stays a circle. -/
theorem transGen_waits_mono (h : TransGen (Waits rs t) u v) (hsubset : rs ⊆ rs')
    (hext : t.Extends t') : TransGen (Waits rs' t') u v :=
  TransGen.mono (fun _ _ hw => Waits.mono hw hsubset hext) _ _ h

/-- What is grounded waits for no circle. -/
theorem Grounded.acc (h : Grounded rs t u) : Acc (flip (Waits rs t)) u := by
  induction h with
  | intro _ _ ih => exact ⟨_, ih⟩

/-- What is grounded stays so if nothing known waits for more. -/
theorem Grounded.extends (h : Grounded rs t u) (hext : t.Extends t')
    (hwaits : ∀ u v, t.Known u → Waits rs' t' u v → Waits rs t u v) : Grounded rs' t' u := by
  induction h with
  | intro hknown _ ih =>
      exact .intro (hext.known hknown) fun v hv => ih v (hwaits _ _ hknown hv)

end Waits

/-! ## Tracked histories -/

namespace Layout

/-- A history in which a registration accounts for everything that is not known. -/
structure History.Tracked (h : History Work) : Prop where
  sound : h.layout.Sound h.aside
  unique : (h.registered.filterMap (·.target)).Nodup
  queued : ∀ e ∈ h.layout.entries ++ h.aside, e ∈ h.registered
  shaped : ∀ r ∈ h.registered, r.Shaped h.layout.table
  /-- A registration waits, has an answer, has failed, or belongs to a circle. -/
  standing : ∀ r ∈ h.registered, ∀ u, r.target = some u →
    r ∈ h.layout.entries ++ h.aside ∨ r.Answered h.layout.table ∨
      (r.Failed h.layout.table ∨ TransGen (Waits h.registered h.layout.table) u u) ∧ h.errors ≠ []
  undefined : ∀ n, h.layout.table.defines n = true → h.layout.table.valueOf n = .undefined →
    ∃ r ∈ h.registered, r.target = some (.symbol n)
  /-- An address with spaces is the place of a label that waits, or was turned away. -/
  relocatable : ∀ n b, h.layout.table.valueOf n = .relocatable b → b.spaces = [] ∨
    ∃ r ∈ h.registered, ∃ a, r.target = some (.symbol n) ∧ r.sources = [.address a] ∧
      h.layout.table.normalize b = h.layout.table.normalize a ∧
      (r ∈ h.layout.entries ++ h.aside ∨ h.errors ≠ [])
  lengths : ∀ s, h.layout.table.kind? s = some .length →
    ∃ r ∈ h.registered, r.target = some (.space s)
  /-- A padding with a length reaches from its anchor to the next aligned place. -/
  paddings : ∀ s anchor alignment n, h.layout.table.kind? s = some (.alignment anchor alignment) →
    h.layout.table.length? s = some n → (h.layout.table.normalize anchor).spaces = [] ∧
      n = alignment.padding (h.layout.table.normalize anchor).offset
  grounded : ∀ u, h.layout.table.Known u → Grounded h.registered h.layout.table u

variable {h : History Work} {l' : Layout Work}

/-- A step only adds errors. -/
theorem Step.errors {l l' : Layout Work} (h : Step l l') : l.errors <+: l'.errors := by
  cases h with
  | pad => exact List.prefix_rfl
  | complete before e after =>
      obtain ⟨errors, herrors, -⟩ := l.complete_completes e
      exact ⟨errors, herrors.symm⟩

/-- A step completes at most one entry. -/
theorem Step.mem_entries {l l' : Layout Work} (h : Step l l') {e : Entry Work}
    (he : e ∈ l'.entries) : e ∈ l.entries :=
  h.entries_sublist.subset he

section Completes

variable {t t' : SymbolTable} {errors : List (Range × LayoutError)} {work : Option Work}
variable {range : Range}

/-- A symbol gets the value of its source, unless the source has none. -/
theorem answered_or_failed_symbol {n : NameId} {source : Source}
    (h : Completes t ⟨some (.symbol n), [source], work, range⟩ t' errors) (hext : t.Extends t')
    (hdefined : t.defines n = true) (hnil : t.unknownsOfSource source = []) :
    Entry.Answered t' ⟨some (.symbol n), [source], work, range⟩ ∨
      Entry.Failed t' ⟨some (.symbol n), [source], work, range⟩ ∧ errors ≠ [] := by
  cases h with
  | value htarget hs hv =>
      cases htarget
      cases hs
      refine .inl (.symbol (hext.unknownsOfSource_eq_nil hnil)
        ((hext.evaluateSource_eq hnil).trans hv) ?_)
      rw [SymbolTable.valueOf_setValue_self hdefined]
      exact .refl _ _
  | fault _ hs hv =>
      cases hs
      exact .inr ⟨.symbol hnil hv, by simp⟩
  | release htarget => simp at htarget
  | clear _ hs => simp at hs
  | length htarget | noLength htarget => simp at htarget

/-- A space gets the value of its source as its length, unless the source has no such value. -/
theorem answered_or_failed_space {s : SpaceId} {e : OrdinaryExpr NameId}
    (h : Completes t ⟨some (.space s), [.expr e], work, range⟩ t' errors) (hext : t.Extends t')
    (hkind : t.kind? s = some .length) (hnil : t.unknownsOfSource (.expr e) = []) :
    Entry.Answered t' ⟨some (.space s), [.expr e], work, range⟩ ∨
      Entry.Failed t' ⟨some (.space s), [.expr e], work, range⟩ ∧ errors ≠ [] := by
  have hlength (n : Int32) : (t.setLength s n).length? s = some n := by
    rw [SymbolTable.length?_setLength,
      if_pos ⟨rfl, SymbolTable.kind?_isSome_iff.1 (by simp [hkind])⟩]
  cases h with
  | length htarget hs hv hle =>
      cases htarget
      cases hs
      exact .inl (.space (hext.unknownsOfSource_eq_nil hnil)
        ((hext.evaluateSource_eq hnil).trans hv) hle (hlength _))
  | noLength htarget hbad =>
      cases htarget
      refine .inr ⟨.space (hext.unknownsOfSource_eq_nil hnil) (hlength _) ?_, by simp⟩
      intro n hn
      exact hbad _ _ n rfl ((hext.evaluateSource_eq hnil).symm.trans hn)
  | release htarget | clear htarget | value htarget | fault htarget => simp at htarget

end Completes

/-- Completing an entry that fits answers it, or fails with an error. -/
theorem answered_or_failed_complete {l : Layout Work} {e : Entry Work} {u : Unknown}
    (hfits : e.Fits l.table) (hsettled : e.isSettled l.table = true) (htarget : e.target = some u) :
    e.Answered (l.complete e).table ∨
      e.Failed (l.complete e).table ∧ (l.complete e).errors ≠ [] := by
  have hext := extends_complete hfits
  obtain ⟨errors, herrors, h⟩ := l.complete_completes e
  have herr : errors ≠ [] → (l.complete e).errors ≠ [] := fun hne => by simp [herrors, hne]
  cases hfits with
  | work => simp at htarget
  | value hdefined =>
      exact (answered_or_failed_symbol h hext hdefined
        (by simpa [Entry.isSettled, Entry.unknowns] using hsettled)).imp_right (.imp_right herr)
  | place _ hval =>
      exact (answered_or_failed_symbol h hext (SymbolTable.defines_of_relocatable hval)
        (by simpa [Entry.isSettled, Entry.unknowns] using hsettled)).imp_right (.imp_right herr)
  | length hkind =>
      exact (answered_or_failed_space h hext hkind
        (by simpa [Entry.isSettled, Entry.unknowns] using hsettled)).imp_right (.imp_right herr)

/-- Two registrations with one target are one. -/
theorem eq_of_target {rs : List (Entry Work)} (hunique : (rs.filterMap (·.target)).Nodup)
    {r r' : Entry Work} {u : Unknown} (hr : r ∈ rs) (hr' : r' ∈ rs) (ht : r.target = some u)
    (ht' : r'.target = some u) : r = r' := by
  by_contra hne
  have hpairs := List.pairwise_filterMap.1 hunique
  have hsymm : Std.Symm fun e e' : Entry Work =>
      ∀ b, e.target = some b → ∀ b', e'.target = some b' → b ≠ b' :=
    ⟨fun e e' h b hb b' hb' => (h b' hb' b hb).symm⟩
  exact hpairs.forall hr hr' hne u ht u ht' rfl

/-- The target of a registration is grounded once it is known and all that the registration
mentions is grounded. -/
theorem grounded_of_mentions {rs : List (Entry Work)} {t : SymbolTable}
    (hunique : (rs.filterMap (·.target)).Nodup) (hshaped : ∀ r ∈ rs, r.Shaped t)
    {r : Entry Work} {u : Unknown} (hr : r ∈ rs) (ht : r.target = some u) (hknown : t.Known u)
    (hmentions : ∀ v ∈ r.mentions, Grounded rs t v) : Grounded rs t u := by
  refine .intro hknown fun v hv => ?_
  cases hv with
  | source hr' ht' hv => exact hmentions v (eq_of_target hunique hr' hr ht' ht ▸ hv)
  | anchor hkind => simp [(hshaped r hr).kind ht] at hkind

/-- A padding is grounded once it is known and the spaces in front of it are grounded. -/
theorem grounded_of_anchor {rs : List (Entry Work)} {t : SymbolTable}
    (hshaped : ∀ r ∈ rs, r.Shaped t) {s : SpaceId} {anchor : Address} {alignment : Alignment}
    (hkind : t.kind? s = some (.alignment anchor alignment)) (hknown : t.Known (.space s))
    (hanchor : ∀ s' ∈ anchor.spaces, Grounded rs t (.space s')) : Grounded rs t (.space s) := by
  refine .intro hknown fun v hv => ?_
  cases hv with
  | source hr ht => simp [(hshaped _ hr).kind ht] at hkind
  | anchor hkind' hs' =>
      rw [hkind] at hkind'
      cases hkind'
      exact hanchor _ hs'

/-- In front of a known place all spaces are known. -/
theorem known_of_normalize_spaces {t : SymbolTable} {a : Address}
    (h : (t.normalize a).spaces = []) : ∀ s ∈ a.spaces, t.Known (.space s) := by
  intro s hs
  rw [SymbolTable.known_space_iff]
  intro hnone
  have := SymbolTable.mem_spaces_normalize.2 ⟨hs, hnone⟩
  simp [h] at this

/-- What a step makes known is the target of an entry that it completes, or a padding behind known
spaces, or a symbol with the same address as before. -/
theorem Step.known {l l' : Layout Work} (h : Step l l') {u : Unknown} (hu : l'.table.Known u) :
    l.table.Known u ∨
      (∃ e ∈ l.entries, e.target = some u ∧ ∀ v ∈ e.mentions, l.table.Known v) ∨
      (∃ s anchor alignment, u = .space s ∧
        l.table.kind? s = some (.alignment anchor alignment) ∧
        ∀ s' ∈ anchor.spaces, l.table.Known (.space s')) ∨
      ∃ n b, u = .symbol n ∧ l.table.valueOf n = .relocatable b ∧ b.spaces ≠ [] ∧
        l'.table.valueOf n = .relocatable b := by
  have hsame {n : NameId} (hvalue : l'.table.valueOf n = l.table.valueOf n)
      (hu : l'.table.Known (.symbol n)) := SymbolTable.known_symbol_or_spaces hvalue hu
  cases h with
  | pad s =>
      rcases SymbolTable.settleSpace_eq l.table s with
        heq | ⟨anchor, alignment, hkind, hnone, hnil, heq⟩
      · exact .inl (by simpa only [heq] using hu)
      · cases u with
        | symbol n =>
            refine (hsame (by simp [heq]) hu).imp_right fun ⟨b, hb⟩ => .inr (.inr ⟨n, b, rfl, hb⟩)
        | space s' =>
            by_cases hs : s' = s
            · subst hs
              exact .inr (.inr (.inl ⟨s', anchor, alignment, rfl, hkind,
                known_of_normalize_spaces hnil⟩))
            · refine .inl ?_
              rw [SymbolTable.known_space_iff] at hu ⊢
              simpa [heq, SymbolTable.length?_setLength, hs] using hu
  | complete before e after hentries hsettled =>
      have hmem : e ∈ l.entries := by simp [hentries]
      by_cases htarget : e.target = some u
      · exact .inr (.inl ⟨e, hmem, htarget, Entry.isSettled_iff_known.1 hsettled⟩)
      · obtain ⟨errors, -, hcompletes⟩ := l.complete_completes e
        simp only at hu hsame ⊢
        generalize (l.complete e).table = t' at hcompletes hu hsame
        cases hcompletes with
        | release | fault => exact .inl hu
        | clear ht | value ht =>
            cases u with
            | space s' => exact .inl hu
            | symbol n =>
                refine (hsame ?_ hu).imp_right fun ⟨b, hb⟩ => .inr (.inr ⟨n, b, rfl, hb⟩)
                exact SymbolTable.valueOf_setValue_of_ne
                  (fun hne => htarget (by rw [ht, hne])) _
        | length ht | noLength ht =>
            cases u with
            | symbol n =>
                exact (hsame (by simp) hu).imp_right fun ⟨b, hb⟩ => .inr (.inr ⟨n, b, rfl, hb⟩)
            | space s' =>
                refine .inl ?_
                rw [SymbolTable.known_space_iff] at hu ⊢
                rw [SymbolTable.length?_setLength, if_neg] at hu
                · exact hu
                · rintro ⟨rfl, -⟩
                  exact htarget ht

namespace History.Tracked

/-- A step forgets no error. -/
theorem errors_step (hstep : Step h.layout l') (herr : h.errors ≠ []) :
    History.errors { h with layout := l' } ≠ [] := by
  obtain ⟨more, hmore⟩ := hstep.errors
  intro hnil
  simp only [History.errors, ← hmore, List.append_eq_nil_iff] at hnil
  exact herr (List.append_eq_nil_iff.2 ⟨hnil.1, hnil.2.1⟩)

/-- Behind a step an entry with a target is still there, or it was completed. -/
theorem queued_step (ht : h.Tracked) (hstep : Step h.layout l') {r : Entry Work}
    (hr : r ∈ h.layout.entries ++ h.aside) {u : Unknown} (hu : r.target = some u) :
    r ∈ l'.entries ++ h.aside ∨ r.Answered l'.table ∨ r.Failed l'.table ∧
      History.errors { h with layout := l' } ≠ [] := by
  cases hstep with
  | pad => exact .inl hr
  | complete before e after hentries hsettled =>
      by_cases hre : r = e
      · subst hre
        refine .inr ((answered_or_failed_complete (ht.sound.fits r hr) hsettled hu).imp_right ?_)
        exact fun ⟨hfailed, herr⟩ => ⟨hfailed, by simp [History.errors, herr]⟩
      · refine .inl ?_
        simp only [hentries, List.mem_append, List.mem_cons] at hr ⊢
        tauto

/-- A symbol that has no value behind a step was defined before, without a value. -/
theorem undefined_step (ht : h.Tracked) (hstep : Step h.layout l') {n : NameId}
    (hdef : l'.table.defines n = true) (hval : l'.table.valueOf n = .undefined) :
    h.layout.table.defines n = true ∧ h.layout.table.valueOf n = .undefined := by
  refine ⟨?_, ?_⟩
  · cases hstep with
    | pad s =>
        rcases SymbolTable.settleSpace_eq h.layout.table s with heq | ⟨_, _, -, -, -, heq⟩ <;>
          simpa [heq] using hdef
    | complete before e after =>
        obtain ⟨errors, -, hcompletes⟩ := h.layout.complete_completes e
        simp only at hdef
        generalize (h.layout.complete e).table = t' at hcompletes hdef
        cases hcompletes <;> simpa using hdef
  · have hbecomes := (ht.sound.extends_step hstep).valueOf n
    rw [hval] at hbecomes
    generalize h.layout.table.valueOf n = v at hbecomes
    cases hbecomes
    rfl

/-- An address with spaces that a symbol has behind a step it had before, and the entry for its
label still waits, unless there was an error. -/
theorem relocatable_step (hstep : Step h.layout l') {n : NameId} {b : Address}
    (hval : l'.table.valueOf n = .relocatable b) :
    b.spaces = [] ∨ h.layout.table.valueOf n = .relocatable b ∧
      ((∀ r ∈ h.layout.entries ++ h.aside, r.target = some (.symbol n) →
        r ∈ l'.entries ++ h.aside) ∨ History.errors { h with layout := l' } ≠ []) := by
  cases hstep with
  | pad s =>
      refine .inr ⟨?_, .inl fun r hr _ => hr⟩
      rcases SymbolTable.settleSpace_eq h.layout.table s with heq | ⟨_, _, -, -, -, heq⟩ <;>
        simpa [heq] using hval
  | complete before e after hentries hsettled =>
      refine (relocatable_complete hsettled hval).imp_right fun ⟨hold, hother⟩ => ⟨hold, ?_⟩
      refine hother.imp (fun hne r hr htr => ?_) fun herr => by simp [History.errors, herr]
      have hre : r ≠ e := fun hre => hne (hre ▸ htr)
      simp only [hentries, List.mem_append, List.mem_cons] at hr ⊢
      tauto

/-- A padding has a length behind a step if it had one before, or if its place was known. -/
theorem padding_step (ht : h.Tracked) (hstep : Step h.layout l') {s : SpaceId} {anchor : Address}
    {alignment : Alignment} {n : Int32}
    (hs : h.layout.table.kind? s = some (.alignment anchor alignment))
    (hlength : l'.table.length? s = some n) :
    h.layout.table.length? s = some n ∨ (h.layout.table.normalize anchor).spaces = [] ∧
      n = alignment.padding (h.layout.table.normalize anchor).offset := by
  cases hstep with
  | pad s' =>
      rcases SymbolTable.settleSpace_eq h.layout.table s' with
        heq | ⟨anchor', alignment', hkind', hnone, hnil, heq⟩
      · exact .inl (by simpa only [heq] using hlength)
      · simp only [heq, SymbolTable.length?_setLength] at hlength
        split at hlength
        · rename_i hcond
          obtain rfl := hcond.1
          rw [hkind'] at hs
          cases hs
          exact .inr ⟨hnil, (Option.some.inj hlength).symm⟩
        · exact .inl hlength
  | complete before e after hentries hsettled =>
      have hfits := ht.sound.fits e (by simp [hentries])
      obtain ⟨errors, -, hcompletes⟩ := h.layout.complete_completes e
      simp only at hlength
      generalize (h.layout.complete e).table = t' at hcompletes hlength
      refine .inl ?_
      cases hcompletes with
      | release | clear | value | fault => exact hlength
      | length htarget | noLength htarget =>
          -- an entry never waits for the length of a padding
          rw [SymbolTable.length?_setLength, if_neg] at hlength
          · exact hlength
          · rintro ⟨rfl, -⟩
            cases hfits <;> simp_all

/-- What is known behind a step waits only for what is known, and is grounded. -/
theorem grounded_step (ht : h.Tracked) (hstep : Step h.layout l') {u : Unknown}
    (hu : l'.table.Known u) : Grounded h.registered l'.table u := by
  have hext := ht.sound.extends_step hstep
  have hkind := hstep.kind?
  have hshaped : ∀ r ∈ h.registered, r.Shaped l'.table := fun r hr => (ht.shaped r hr).extends hext
  have hold : ∀ u, h.layout.table.Known u → Grounded h.registered l'.table u := by
    refine fun u hu => (ht.grounded u hu).extends hext fun u v _ hw => ?_
    cases hw with
    | source hr htr hv => exact .source hr htr hv
    | anchor hs hs' => exact .anchor (by rwa [← hkind]) hs'
  -- first what the step itself makes known, then the symbols that only lacked a space
  have hspace : ∀ s, l'.table.Known (.space s) → Grounded h.registered l'.table (.space s) := by
    intro s hs
    rcases hstep.known hs with hknown | ⟨e, he, htarget, hmentions⟩ | hpad | ⟨n, b, hn, -⟩
    · exact hold _ hknown
    · exact grounded_of_mentions ht.unique hshaped
        (ht.queued e (List.mem_append_left _ he)) htarget hs fun v hv => hold v (hmentions v hv)
    · obtain ⟨s', anchor, alignment, hs', hkind', hanchor⟩ := hpad
      cases hs'
      exact grounded_of_anchor hshaped (by rwa [hkind]) hs fun s' hs' => hold _ (hanchor s' hs')
    · cases hn
  rcases hstep.known hu with hknown | ⟨e, he, htarget, hmentions⟩ | hpad | hlabel
  · exact hold _ hknown
  · exact grounded_of_mentions ht.unique hshaped
      (ht.queued e (List.mem_append_left _ he)) htarget hu fun v hv => hold v (hmentions v hv)
  · obtain ⟨s', _, _, rfl, -⟩ := hpad
    exact hspace s' hu
  · obtain ⟨n, b, rfl, hval, hspaces, hval'⟩ := hlabel
    obtain ⟨r, hr, a, htr, hsources, hnorm, -⟩ := (ht.relocatable n b hval).resolve_left hspaces
    refine grounded_of_mentions ht.unique hshaped hr htr hu fun v hv => ?_
    simp only [Entry.mentions, hsources, List.flatMap_cons, List.flatMap_nil, List.append_nil,
      Source.mentions, List.mem_map] at hv
    obtain ⟨s, hs, rfl⟩ := hv
    refine hspace s (known_of_normalize_spaces ?_ s hs)
    have hnil := (SymbolTable.known_symbol_iff.1 hu).2 b hval'
    rwa [← hext.normalize_normalize, ← hnorm, hext.normalize_normalize]

/-- A step keeps a history tracked. -/
theorem step (ht : h.Tracked) (hstep : Step h.layout l') : { h with layout := l' }.Tracked := by
  have hext := ht.sound.extends_step hstep
  have hkind := hstep.kind?
  refine
    { sound := ht.sound.step hstep
      unique := ht.unique
      queued := fun e he => ?_
      shaped := fun r hr => (ht.shaped r hr).extends hext
      standing := fun r hr u hu => ?_
      undefined := fun n hdef hval => ?_
      relocatable := fun n b hval => ?_
      lengths := fun s hs => ht.lengths s (by rwa [← hkind])
      paddings := fun s anchor alignment n hs hlength => ?_
      grounded := fun u => ht.grounded_step hstep }
  · rcases List.mem_append.1 he with he | he
    · exact ht.queued e (List.mem_append_left _ (hstep.mem_entries he))
    · exact ht.queued e (List.mem_append_right _ he)
  · rcases ht.standing r hr u hu with hmem | hanswered | ⟨hbad, herr⟩
    · rcases ht.queued_step hstep hmem hu with hmem | hanswered | ⟨hfailed, herr⟩
      · exact .inl hmem
      · exact .inr (.inl hanswered)
      · exact .inr (.inr ⟨.inl hfailed, herr⟩)
    · exact .inr (.inl (hanswered.extends hext))
    · refine .inr (.inr ⟨hbad.imp (·.extends hext) fun hcircle => ?_, errors_step hstep herr⟩)
      exact transGen_waits_mono hcircle (List.Subset.refl _) hext
  · obtain ⟨hdef, hval⟩ := ht.undefined_step hstep hdef hval
    exact ht.undefined n hdef hval
  · rcases relocatable_step hstep hval with hnil | ⟨hold, hwaits⟩
    · exact .inl hnil
    · refine (ht.relocatable n b hold).imp_right fun ⟨r, hr, a, htr, hsources, hnorm, hmem⟩ => ?_
      refine ⟨r, hr, a, htr, hsources, ?_, ?_⟩
      · rw [← hext.normalize_normalize b, hnorm, hext.normalize_normalize]
      · rcases hmem with hmem | herr
        · exact hwaits.imp_left fun hwaits => hwaits r hmem htr
        · exact .inr (errors_step hstep herr)
  · rw [hkind] at hs
    obtain ⟨hnil, hn⟩ : (h.layout.table.normalize anchor).spaces = [] ∧
        n = alignment.padding (h.layout.table.normalize anchor).offset :=
      (ht.padding_step hstep hs hlength).elim (ht.paddings s anchor alignment n hs) id
    have hsame : l'.table.normalize anchor = h.layout.table.normalize anchor := by
      rw [← hext.normalize_normalize, SymbolTable.normalize_of_spaces_nil hnil]
    rw [hsame]
    exact ⟨hnil, hn⟩

/-- Settling keeps a history tracked. -/
theorem settle (ht : h.Tracked) : { h with layout := h.layout.settle }.Tracked := by
  have hsteps := h.layout.settle_steps
  generalize h.layout.settle = final at hsteps
  induction hsteps with
  | refl => exact ht
  | tail _ hlast ih => exact ih.step hlast

end History.Tracked

end Layout

end MacroAssembler
