import MacroAssembler.Proofs.Layout.Steps
import MacroAssembler.Proofs.Symbol.Evaluation

/-!
# Sound layouts

A layout is sound if every space that it speaks of exists, no two entries have the same target,
and each target is still without the value or the length that its entry will give it. Entries that
are set aside, because they are about to be queued or were given up, count as well. Settling keeps
a layout sound and adds to the knowledge of its table (`Sound.settle`).
-/

namespace MacroAssembler

/-- Every space of an address exists. -/
def SymbolTable.Bounded (t : SymbolTable) (a : Address) : Prop :=
  ∀ s ∈ a.spaces, s.index < t.spaces.size

/-- The target of an entry is ready for its value: a symbol without a value, a symbol with the
address that the entry waits for, or a space without a length. -/
inductive Entry.Fits {Work : Type} (t : SymbolTable) : Entry Work → Prop where
  | work {sources work range} : Fits t ⟨none, sources, work, range⟩
  | value {n e work range} : t.defines n = true → t.valueOf n = .undefined →
      Fits t ⟨some (.symbol n), [.expr e], work, range⟩
  | place {n a b work range} : t.Bounded a → t.valueOf n = .relocatable b →
      t.normalize b = t.normalize a → Fits t ⟨some (.symbol n), [.address a], work, range⟩
  | length {s e work range} : t.kind? s = some .length → t.length? s = none →
      Fits t ⟨some (.space s), [.expr e], work, range⟩

namespace SymbolTable

variable {t t' : SymbolTable}

/-- Spaces go on to exist. -/
theorem Bounded.extends {a : Address} (h : t.Bounded a) (hext : Extends t t') : t'.Bounded a :=
  fun s hs => hext.lt_size (h s hs)

/-- A normalized address has no other spaces. -/
theorem Bounded.normalize {a : Address} (h : t.Bounded a) : t.Bounded (t'.normalize a) :=
  fun s hs => h s (mem_spaces_normalize.1 hs).1

/-- The place behind a new space is bounded. -/
theorem Bounded.behind {a : Address} (h : t.Bounded a) (k : SpaceKind) :
    (t.addSpace k).2.Bounded (a.behind (t.addSpace k).1) := by
  intro s hs
  rcases List.mem_append.1 hs with hs | hs
  · exact (h.extends (extends_addSpace k)) s hs
  · rw [List.mem_singleton.1 hs, size_addSpace]
    exact Nat.lt_succ_self _

/-- An address without spaces is bounded. -/
theorem bounded_of_spaces_nil {a : Address} (h : a.spaces = []) : t.Bounded a := by
  simp [Bounded, h]

/-- The address of a defined symbol tells that it is defined. -/
theorem defines_of_relocatable {n : NameId} {a : Address} (h : t.valueOf n = .relocatable a) :
    t.defines n = true := by
  unfold valueOf at h
  unfold defines
  cases hs : t.symbol? n with
  | none => simp [hs] at h
  | some sym => rfl

/-- A source never has the value of a symbol without one. -/
theorem evaluateSource_ne_undefined (source : Source) :
    t.evaluateSource source ≠ .ok .undefined := by
  cases source with
  | expr e => exact evaluate_ne_undefined e
  | address a => simp [evaluateSource]

/-- If a source waits for nothing, its value has no spaces. -/
theorem spaces_of_evaluateSource {source : Source} {a : Address}
    (hnil : t.unknownsOfSource source = [])
    (h : t.evaluateSource source = .ok (.relocatable a)) : a.spaces = [] := by
  cases source with
  | expr e => exact spaces_of_evaluate hnil h
  | address b =>
      obtain rfl : t.normalize b = a := by simpa [evaluateSource] using h
      exact unknownsOfAddress_eq_nil_iff.1 hnil

end SymbolTable

namespace Layout

variable {Work : Type}

/-- A layout whose entries, those set aside included, fit the table. -/
structure Sound (l : Layout Work) (aside : List (Entry Work)) : Prop where
  counter : l.table.Bounded l.counter
  symbols : ∀ n a, l.table.valueOf n = .relocatable a → l.table.Bounded a
  /-- A padding stands behind its anchor. -/
  anchors : ∀ s anchor alignment, l.table.kind? s = some (.alignment anchor alignment) →
    ∀ s' ∈ anchor.spaces, s'.index < s.index
  distinct : ((l.entries ++ aside).filterMap (·.target)).Nodup
  fits : ∀ e ∈ l.entries ++ aside, e.Fits l.table

end Layout

namespace Entry.Fits

variable {Work : Type} {t : SymbolTable} {e : Entry Work}

/-- An entry with another target goes on to fit when a symbol gets its value. -/
theorem setValue {n : NameId} {v : SymbolValue} (h : e.Fits t)
    (hne : e.target ≠ some (.symbol n)) : e.Fits (t.setValue n v) := by
  have hother {m : NameId} (hm : some (Unknown.symbol m) ≠ some (.symbol n)) : m ≠ n :=
    fun hmn => hm (by rw [hmn])
  cases h with
  | work => exact .work
  | value hdef hundef =>
      exact .value (by simpa using hdef) (by rwa [SymbolTable.valueOf_setValue_of_ne (hother hne)])
  | place ha hval hnorm =>
      exact .place ha (by rwa [SymbolTable.valueOf_setValue_of_ne (hother hne)]) hnorm
  | length hkind hnone => exact .length hkind hnone

/-- An entry with another target goes on to fit when a space gets its length. -/
theorem setLength {s : SpaceId} {n : Int32} (h : e.Fits t) (hnone : t.length? s = none)
    (hne : e.target ≠ some (.space s)) : e.Fits (t.setLength s n) := by
  have hext : SymbolTable.Extends t (t.setLength s n) := SymbolTable.extends_setLength hnone n
  cases h with
  | work => exact .work
  | value hdef hundef => exact .value (by simpa using hdef) (by simpa using hundef)
  | @place m a b _ _ ha hval hnorm =>
      refine .place (ha.extends hext) (by simpa using hval) ?_
      rw [← hext.normalize_normalize b, hnorm, hext.normalize_normalize]
  | @length u _ _ _ hkind hnone' =>
      refine .length (hext.kind _ _ hkind) ?_
      rw [SymbolTable.length?_setLength, if_neg]
      · exact hnone'
      · rintro ⟨rfl, -⟩
        exact hne rfl

end Entry.Fits

namespace Layout

variable {Work : Type} {l l' : Layout Work} {aside : List (Entry Work)}

/-- The kinds of spaces do not change when an entry is completed. -/
theorem kind?_complete (l : Layout Work) (e : Entry Work) :
    (l.complete e).table.kind? = l.table.kind? := by
  obtain ⟨errors, -, h⟩ := l.complete_completes e
  generalize (l.complete e).table = t' at h
  cases h <;> simp

/-- No step changes the kind of a space. -/
theorem Step.kind? (h : Step l l') : l'.table.kind? = l.table.kind? := by
  cases h with
  | pad s =>
      rcases SymbolTable.settleSpace_eq l.table s with heq | ⟨_, _, -, -, -, heq⟩ <;> simp [heq]
  | complete before e after => exact l.kind?_complete e

/-- A step does not move the counter. -/
theorem Step.counter (h : Step l l') : l'.counter = l.counter := by
  cases h with
  | pad => rfl
  | complete before e after => exact l.counter_complete e

/-- Completing an entry that fits adds knowledge. -/
theorem extends_complete {e : Entry Work} (hfits : e.Fits l.table) :
    SymbolTable.Extends l.table (l.complete e).table := by
  obtain ⟨errors, -, h⟩ := l.complete_completes e
  generalize (l.complete e).table = t' at h
  cases hfits with
  | work => cases h <;> simp_all [SymbolTable.Extends.refl]
  | value hdef hundef =>
      cases h with
      | value ht hs hv =>
          cases ht
          exact SymbolTable.extends_setValue (by rw [hundef]; exact .undefined _)
      | fault => exact .refl _
      | release ht => exact .refl _
      | clear _ hs => simp at hs
      | length ht | noLength ht => simp at ht
  | @place n a b _ _ ha hval hnorm =>
      cases h with
      | value ht hs hv =>
          cases ht
          cases hs
          obtain rfl := Except.ok.inj hv
          refine SymbolTable.extends_setValue ?_
          rw [hval]
          exact .relocatable (by rw [SymbolTable.normalize_idem, hnorm])
      | fault => exact .refl _
      | release ht => exact .refl _
      | clear _ hs => simp at hs
      | length ht | noLength ht => simp at ht
  | length hkind hnone =>
      cases h with
      | length ht | noLength ht =>
          cases ht
          exact SymbolTable.extends_setLength hnone _
      | release | fault => exact .refl _
      | clear ht | value ht => simp at ht

/-- An address that a symbol has after an entry was completed has no spaces, or the symbol had it
before and did not get a value. -/
theorem relocatable_complete {e : Entry Work} {n : NameId} {a : Address}
    (hsettled : e.isSettled l.table = true)
    (hval : (l.complete e).table.valueOf n = .relocatable a) :
    a.spaces = [] ∨ l.table.valueOf n = .relocatable a ∧
      (e.target ≠ some (.symbol n) ∨ (l.complete e).errors ≠ []) := by
  obtain ⟨errors, herrors, h⟩ := l.complete_completes e
  rw [herrors]
  generalize (l.complete e).table = t' at h hval
  have hset {m : NameId} {v : SymbolValue}
      (hval : (l.table.setValue m v).valueOf n = .relocatable a) :
      v = .relocatable a ∨ l.table.valueOf n = .relocatable a ∧ m ≠ n := by
    by_cases hmn : n = m
    · subst hmn
      have hdef : l.table.defines n = true := by
        simpa using SymbolTable.defines_of_relocatable hval
      exact .inl (by rwa [SymbolTable.valueOf_setValue_self hdef] at hval)
    · exact .inr ⟨by rwa [SymbolTable.valueOf_setValue_of_ne hmn] at hval, Ne.symm hmn⟩
  cases h with
  | release ht => exact .inr ⟨hval, .inl (by simp [ht])⟩
  | fault => exact .inr ⟨hval, .inr (by simp)⟩
  | length ht | noLength ht => exact .inr ⟨by simpa using hval, .inl (by simp [ht])⟩
  | clear ht =>
      obtain ⟨hold, hne⟩ := (hset hval).resolve_left (by simp)
      exact .inr ⟨hold, .inl (by simpa [ht] using hne)⟩
  | value ht hsources hv =>
      rcases hset hval with rfl | ⟨hold, hne⟩
      · refine .inl (SymbolTable.spaces_of_evaluateSource ?_ hv)
        simp only [Entry.isSettled, Entry.unknowns, hsources, List.flatMap_cons,
          List.isEmpty_iff, List.append_eq_nil_iff] at hsettled
        exact hsettled.1
      · exact .inr ⟨hold, .inl (by simpa [ht] using hne)⟩

namespace Sound

/-- A step of a sound layout adds knowledge. -/
theorem extends_step (h : l.Sound aside) (hstep : Step l l') :
    SymbolTable.Extends l.table l'.table := by
  cases hstep with
  | pad s => exact SymbolTable.extends_settleSpace _ s
  | complete before e after hentries =>
      exact extends_complete (h.fits e (by simp [hentries]))

/-- An entry goes on to fit when another one is completed. -/
theorem fits_complete {e e' : Entry Work} (he : e.Fits l.table) (he' : e'.Fits l.table)
    (hne : e'.target = none ∨ e'.target ≠ e.target) : e'.Fits (l.complete e).table := by
  obtain ⟨errors, -, h⟩ := l.complete_completes e
  generalize (l.complete e).table = t' at h
  have hother {u : Unknown} (hu : e.target = some u) : e'.target ≠ some u := by
    rcases hne with hnone | hne
    · simp [hnone]
    · rwa [hu] at hne
  cases h with
  | release | fault => exact he'
  | clear ht => exact he'.setValue (hother ht)
  | value ht => exact he'.setValue (hother ht)
  | length ht | noLength ht =>
      refine he'.setLength ?_ (hother ht)
      cases he <;> simp_all

/-- The entries beside one that is completed have other targets. -/
theorem target_ne_of_mem (h : l.Sound aside) {before after : List (Entry Work)} {e e' : Entry Work}
    (hentries : l.entries = before ++ e :: after) (he' : e' ∈ before ++ after ++ aside) :
    e'.target = none ∨ e'.target ≠ e.target := by
  have hdistinct := h.distinct
  rw [hentries, List.append_assoc, List.filterMap_append, List.cons_append,
    List.filterMap_cons] at hdistinct
  cases htarget : e'.target with
  | none => exact .inl rfl
  | some u =>
      refine .inr fun heq => ?_
      rw [← heq] at hdistinct
      simp only [List.nodup_append, List.nodup_cons, List.mem_filterMap, List.mem_cons] at hdistinct
      obtain ⟨-, ⟨hbehind, -⟩, hacross⟩ := hdistinct
      simp only [List.append_assoc, List.mem_append] at he'
      rcases he' with he' | he'
      · exact hacross u ⟨e', he', htarget⟩ u (.inl rfl) rfl
      · exact hbehind ⟨e', by simpa using he', htarget⟩

/-- A step of a sound layout leads to a sound layout. -/
theorem step (h : l.Sound aside) (hstep : Step l l') : l'.Sound aside := by
  have hext := h.extends_step hstep
  have hkind := hstep.kind?
  have hcounter := hstep.counter
  have hanchors : ∀ s anchor alignment, l'.table.kind? s = some (.alignment anchor alignment) →
      ∀ s' ∈ anchor.spaces, s'.index < s.index := by
    rw [hkind]
    exact h.anchors
  cases hstep with
  | pad s =>
      refine ⟨h.counter.extends hext, fun n a hval => ?_, hanchors, h.distinct, fun e he => ?_⟩
      · refine (h.symbols n a ?_).extends hext
        rcases SymbolTable.settleSpace_eq l.table s with heq | ⟨_, _, -, -, -, heq⟩ <;>
          simpa [heq] using hval
      · have hfits := h.fits e he
        rcases SymbolTable.settleSpace_eq l.table s with heq | ⟨_, _, hpad, hnone, -, heq⟩
        · simpa only [heq] using hfits
        · simp only [heq]
          refine hfits.setLength hnone fun ht => ?_
          -- an entry waits for lengths only, never for a padding
          cases hfits <;> simp_all
  | complete before e after hentries hsettled =>
      have hmem : e ∈ l.entries ++ aside := by simp [hentries]
      have hrest : (before ++ after ++ aside).Sublist (l.entries ++ aside) := by
        rw [hentries]
        exact ((List.sublist_cons_self e after).append_left before).append_right aside
      refine ⟨?_, fun n a hval => ?_, hanchors, ?_, fun e' he' => ?_⟩
      · exact hcounter ▸ h.counter.extends hext
      · rcases relocatable_complete hsettled hval with hnil | ⟨hold, -⟩
        · exact SymbolTable.bounded_of_spaces_nil hnil
        · exact (h.symbols n a hold).extends hext
      · exact h.distinct.sublist (hrest.filterMap _)
      · exact fits_complete (h.fits e hmem) (h.fits e' (hrest.subset he'))
          (h.target_ne_of_mem hentries he')

/-- Any number of steps keeps a layout sound and adds knowledge. -/
theorem steps (h : l.Sound aside) (hsteps : Steps l l') :
    l'.Sound aside ∧ SymbolTable.Extends l.table l'.table := by
  induction hsteps with
  | refl => exact ⟨h, .refl _⟩
  | tail _ hlast ih => exact ⟨ih.1.step hlast, ih.2.trans (ih.1.extends_step hlast)⟩

/-- Settling keeps a layout sound and adds knowledge. -/
theorem settle (h : l.Sound aside) :
    l.settle.Sound aside ∧ SymbolTable.Extends l.table l.settle.table :=
  h.steps l.settle_steps

end Sound

end Layout

end MacroAssembler
