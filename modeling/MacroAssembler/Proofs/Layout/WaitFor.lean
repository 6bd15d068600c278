import MacroAssembler.Proofs.Layout.Run
import MacroAssembler.Proofs.Layout.Soundness
import MacroAssembler.Proofs.Reachability

/-!
# The wait-for relation

What waits for what in a layout at one moment (`WaitsOn`): the target of an entry waits for all
that the entry waits for, and a padding waits for the spaces in front of it. The relation is not
stored. It is read off the entries, the expressions in them and the anchors of paddings, and it
changes whenever something becomes known. The search for circles and for undefined names finds what
the relation reaches, and nothing else (`mem_reachable_iff`).
-/

namespace MacroAssembler

open Relation (ReflTransGen)

variable {Work : Type}

namespace SymbolTable

variable {t : SymbolTable} {u v : Unknown}

/-- Nothing is known yet: the symbol has no value, or the space no length. -/
def Unset (t : SymbolTable) : Unknown → Prop
  | .symbol name => t.valueOf name = .undefined
  | .space s => t.length? s = none

/-- What is unknown of a symbol or space is itself without a value or a length. -/
theorem unset_of_mem_unknownsOf (hv : v ∈ t.unknownsOf u) : t.Unset v := by
  cases u with
  | space s =>
      simp only [unknownsOf] at hv
      split at hv
      · rename_i hnone
        rw [List.mem_singleton.1 hv]
        exact hnone
      · simp at hv
  | symbol n =>
      simp only [unknownsOf, unknownsOfSymbol] at hv
      split at hv
      · simp at hv
      · obtain ⟨s, -, hnone, rfl⟩ := mem_unknownsOfAddress.1 hv
        exact hnone
      · rename_i hval
        rw [List.mem_singleton.1 hv]
        exact hval

end SymbolTable

/-- The names among unknowns. -/
theorem mem_names {us : List Unknown} {n : NameId} : n ∈ Unknown.names us ↔ .symbol n ∈ us := by
  simp only [Unknown.names, List.mem_mergeSort, List.mem_eraseDups, List.mem_filterMap]
  constructor
  · rintro ⟨u, hu, heq⟩
    cases u with
    | symbol m =>
        cases heq
        exact hu
    | space => simp at heq
  · exact fun h => ⟨_, h, rfl⟩

/-- What an entry waits for is without a value or a length. -/
theorem Entry.unset_of_mem_unknowns {t : SymbolTable} {e : Entry Work} {v : Unknown}
    (hv : v ∈ e.unknowns t) : t.Unset v := by
  obtain ⟨source, -, hv⟩ := List.mem_flatMap.1 hv
  obtain ⟨u, -, hv⟩ := SymbolTable.mem_unknownsOfSource.1 hv
  exact SymbolTable.unset_of_mem_unknownsOf hv

namespace Layout

variable {l : Layout Work} {u v : Unknown}

/-- The first waits for the second. -/
inductive WaitsOn (l : Layout Work) : Unknown → Unknown → Prop where
  /-- What an entry determines waits for all that the entry waits for. -/
  | entry {e u v} : e ∈ l.entries → e.target = some u → v ∈ e.unknowns l.table → WaitsOn l u v
  /-- A padding waits for the spaces in front of it. -/
  | anchor {s anchor alignment s'} : l.table.kind? s = some (.alignment anchor alignment) →
      s' ∈ (l.table.normalize anchor).spaces → WaitsOn l (.space s) (.space s')

/-- Nothing waits for what is known. -/
theorem WaitsOn.unset (h : l.WaitsOn u v) : l.table.Unset v := by
  cases h with
  | entry _ _ hv => exact Entry.unset_of_mem_unknowns hv
  | anchor _ hs => exact (SymbolTable.mem_spaces_normalize.1 hs).2

/-- The edges that the search follows are those of the relation. -/
theorem mem_waitsFor_iff : v ∈ l.waitsFor u ↔ l.WaitsOn u v := by
  unfold waitsFor
  rw [List.mem_append, List.mem_flatMap]
  constructor
  · rintro (⟨e, he, hv⟩ | hv)
    · obtain ⟨he, htarget⟩ := List.mem_filter.1 he
      exact .entry he (by simpa using htarget) hv
    · cases u with
      | symbol => simp at hv
      | space s =>
          dsimp only at hv
          split at hv
          · rename_i anchor alignment length hspace
            obtain ⟨s', hs', rfl⟩ := List.mem_map.1 hv
            have hkind : l.table.kind? s = some (.alignment anchor alignment) := by
              simp [SymbolTable.kind?, hspace]
            exact .anchor hkind hs'
          · simp at hv
  · intro h
    cases h with
    | entry he htarget hv =>
        exact .inl ⟨_, List.mem_filter.2 ⟨he, by simpa using htarget⟩, hv⟩
    | anchor hkind hs' =>
        obtain ⟨⟨kind, length⟩, hspace, rfl⟩ := Option.map_eq_some_iff.1 hkind
        refine .inr ?_
        simp only [hspace]
        exact List.mem_map_of_mem hs'

/-- A space that is added waits for the spaces in front of it if it is a padding, and nothing else
changes. -/
theorem waitsOn_addSpace {k : SpaceKind} {counter : Address} :
    WaitsOn { l with table := (l.table.addSpace k).2, counter } u v ↔
      l.WaitsOn u v ∨ ∃ anchor alignment s', k = .alignment anchor alignment ∧
        u = .space (l.table.addSpace k).1 ∧ s' ∈ (l.table.normalize anchor).spaces ∧
        v = .space s' := by
  have hlength := SymbolTable.length?_addSpace (t := l.table) k
  have hunknowns (e : Entry Work) : e.unknowns (l.table.addSpace k).2 = e.unknowns l.table := by
    unfold Entry.unknowns
    rw [SymbolTable.unknownsOfSource_congr hlength (SymbolTable.valueOf_addSpace k)]
  constructor
  · intro h
    cases h with
    | entry he htarget hv => exact .inl (.entry he htarget (hunknowns _ ▸ hv))
    | @anchor s anchor alignment s' hkind hs' =>
        dsimp only at hkind hs'
        rw [SymbolTable.normalize_congr hlength] at hs'
        rw [SymbolTable.kind?_addSpace] at hkind
        split at hkind
        · rename_i hs
          exact .inr ⟨anchor, alignment, s', Option.some.inj hkind, by rw [hs], hs', rfl⟩
        · exact .inl (.anchor hkind hs')
  · rintro (h | ⟨anchor, alignment, s', rfl, rfl, hs', rfl⟩)
    · cases h with
      | entry he htarget hv => exact .entry he htarget ((hunknowns _).symm ▸ hv)
      | anchor hkind hs' =>
          refine .anchor ((SymbolTable.extends_addSpace k).kind _ _ hkind) ?_
          rwa [SymbolTable.normalize_congr hlength]
    · refine .anchor ((SymbolTable.kind?_addSpace _ _).trans (if_pos rfl)) ?_
      rwa [SymbolTable.normalize_congr hlength]

/-! ## The search -/

/-- A symbol, or a space that exists. -/
def Present (l : Layout Work) : Unknown → Prop
  | .symbol _ => True
  | .space s => s.index < l.table.spaces.size

/-- What something waits for is looked for, unless it is a space that does not exist. -/
theorem mem_awaited (h : l.WaitsOn u v) (hv : l.Present v) : v ∈ l.awaited := by
  have hspace {s : SpaceId} (hs : s.index < l.table.spaces.size) : Unknown.space s ∈ l.awaited :=
    List.mem_append_right _ (List.mem_map.2 ⟨s.index, List.mem_range.2 hs, rfl⟩)
  cases h with
  | anchor => exact hspace hv
  | entry he _ hmem =>
      cases v with
      | space => exact hspace hv
      | symbol n =>
          refine List.mem_append_left _ (List.mem_map.2 ⟨n, mem_names.2 ?_, rfl⟩)
          exact List.mem_flatMap.2 ⟨_, he, hmem⟩

/-- The search finds all that it starts from. -/
theorem subset_reachable (l : Layout Work) (us : List Unknown) : us ⊆ l.reachable us := by
  intro u hu
  refine subset_reachFrom hu (List.mem_eraseDups.2 ?_)
  exact List.mem_append_left _ hu

/-- The search goes on from all it finds. -/
theorem reachable_closed {us : List Unknown} (hu : u ∈ l.reachable us) (h : l.WaitsOn u v)
    (hv : l.Present v) : v ∈ l.reachable us := by
  refine reachFrom_closed hu (mem_waitsFor_iff.2 h) (List.mem_eraseDups.2 ?_)
  exact List.mem_append_right _ (mem_awaited h hv)

/-- What the search finds can be reached from where it starts. -/
theorem exists_path_of_mem_reachable {us : List Unknown} (hu : u ∈ l.reachable us) :
    ∃ p ∈ us, ReflTransGen l.WaitsOn p u := by
  obtain ⟨-, p, hp, hpath⟩ := mem_reachFrom hu
  exact ⟨p, hp, ReflTransGen.mono (fun a b hb => mem_waitsFor_iff.1 hb) _ _ hpath⟩

/-- Only spaces that exist are targets of entries. -/
def Targeted (l : Layout Work) : Prop := ∀ e ∈ l.entries, ∀ u, e.target = some u → l.Present u

/-- Whatever waits for something exists. -/
theorem Targeted.present (h : l.Targeted) (hwaits : l.WaitsOn u v) : l.Present u := by
  cases hwaits with
  | entry he htarget _ => exact h _ he u htarget
  | anchor hkind _ => exact SymbolTable.kind?_isSome_iff.1 (by simp [hkind])

/-- The search finds exactly what can be reached, as far as it exists. -/
theorem Targeted.mem_reachable_iff (h : l.Targeted) {us : List Unknown} (hu : l.Present u) :
    u ∈ l.reachable us ↔ ∃ p ∈ us, ReflTransGen l.WaitsOn p u := by
  refine ⟨exists_path_of_mem_reachable, fun ⟨p, hp, hpath⟩ => ?_⟩
  have hmem := l.subset_reachable us hp
  clear hp
  induction hpath using ReflTransGen.head_induction_on with
  | refl => exact hmem
  | @head a b hab hbu ih =>
      -- the next node exists, because it is the last one or waits for another
      have hb : l.Present b := by
        rcases hbu.cases_head with rfl | ⟨c, hbc, -⟩
        · exact hu
        · exact h.present hbc
      exact ih (reachable_closed hmem hab hb)

/-! ## Targets exist in every run -/

variable {l' : Layout Work} {e : Entry Work}

/-- What exists depends on the spaces of a layout only. -/
theorem present_congr (hkind : l'.table.kind? = l.table.kind?) : l'.Present u ↔ l.Present u := by
  cases u with
  | symbol => exact .rfl
  | space s => simp only [Present, ← SymbolTable.kind?_isSome_iff, hkind]

/-- Settling opens no space. -/
theorem kind?_settle (l : Layout Work) : l.settle.table.kind? = l.table.kind? :=
  settle_induction (P := fun l' => l'.table.kind? = l.table.kind?)
    (fun _ _ hstep hold => hstep.kind?.trans hold) rfl

/-- Letting an entry wait opens no space. -/
theorem kind?_await (l : Layout Work) (e : Entry Work) :
    (l.await e).table.kind? = l.table.kind? := by
  by_cases hrejects : l.Rejects e
  · obtain ⟨event, hawait⟩ := await_of_rejects hrejects
    rw [hawait]
    rfl
  · rw [await_of_accepts hrejects, kind?_settle]
    rfl

/-- What exists goes on to exist when the table learns more. -/
theorem Present.extends (h : l.Present u) (hext : l.table.Extends l'.table) : l'.Present u := by
  cases u with
  | symbol => trivial
  | space s => exact hext.lt_size h

/-- What exists goes on to exist. -/
theorem Present.perform (h : l.Present u) (r : Request Work) : (l.perform r).Present u := by
  cases r with
  | define symbol =>
      cases hdefined : l.table.defines symbol.name with
      | true => rwa [perform_define_of_defines hdefined]
      | false =>
          rw [perform_define hdefined, present_congr (kind?_settle _)]
          exact h
  | align alignment | reserve _ alignment => exact h.extends (extends_align l alignment)
  | reserveLater length alignment range =>
      rw [perform_reserveLater, present_congr (kind?_await _ _)]
      exact h.extends (extends_openSpace l alignment)
  | await target sources work range => exact (present_congr (kind?_await l _)).2 h
  | takeReady | takeDiagnostics | takeEvents => exact h
  | finish => exact (present_congr (kind?_settle l)).2 h

/-- The target that a request asks for exists behind the request. -/
theorem present_of_registers {r : Request Work} (he : e ∈ l.registers r)
    (htarget : e.target = some u) : (l.perform r).Present u := by
  cases r with
  | reserveLater length alignment range =>
      obtain rfl := List.mem_singleton.1 he
      obtain rfl : .space (l.openSpace alignment).1 = u := by simpa [lengthEntry] using htarget
      rw [perform_reserveLater, present_congr (kind?_await _ _)]
      show (l.align alignment).2.table.spaces.size <
        ((l.align alignment).2.table.addSpace .length).2.spaces.size
      rw [SymbolTable.size_addSpace]
      exact Nat.lt_succ_self _
  | await target sources work range =>
      obtain rfl := List.mem_singleton.1 he
      obtain ⟨n, -, rfl⟩ := Option.map_eq_some_iff.1 htarget
      trivial
  | define | align | reserve | takeReady | takeDiagnostics | takeEvents | finish =>
      simp [registers] at he

/-- A request lets only entries wait whose targets exist. -/
theorem Targeted.perform (h : l.Targeted) (r : Request Work) : (l.perform r).Targeted := by
  intro e he u htarget
  rcases List.mem_append.1 ((entries_perform_sublist l r).subset he) with he | he
  · exact (h e he u htarget).perform r
  · exact present_of_registers he htarget

/-- A run lets only entries wait whose targets exist. -/
theorem Targeted.run (h : l.Targeted) (rs : List (Request Work)) : (l.run rs).Targeted := by
  induction rs generalizing l with
  | nil => exact h
  | cons r rs ih => exact ih (h.perform r)

/-- Settling leaves only entries whose targets exist. -/
theorem Targeted.settle (h : l.Targeted) : l.settle.Targeted := by
  intro e he u htarget
  rw [present_congr (kind?_settle l)]
  exact h e ((entries_settle_sublist l).subset he) u htarget

end Layout

end MacroAssembler
