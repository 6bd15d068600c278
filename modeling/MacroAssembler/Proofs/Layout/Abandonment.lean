import MacroAssembler.Proofs.Layout.Circularity

/-!
# What is given up

At the end of the source every entry that still waits is given up. Its report names what was never
defined among all that it waits for, directly or not, and calls the entry circular only if there is
no such name (`finish_reports`). For that the search for undefined names has to find all of them,
on whatever circles it runs and however many spaces they lie behind.
-/

namespace MacroAssembler

open Relation (ReflTransGen)

variable {Work : Type}

/-- Elements that are told apart are all different. -/
theorem nodup_eraseDups {α : Type} [DecidableEq α] (as : List α) : as.eraseDups.Nodup := by
  match as with
  | [] => exact .nil
  | a :: as =>
      rw [List.eraseDups_cons, List.nodup_cons]
      exact ⟨by simp, nodup_eraseDups _⟩
  termination_by as.length
  decreasing_by exact Nat.lt_succ_of_le (List.length_filter_le _ _)

/-- Names that are told apart and put in order have increasing numbers. -/
theorem pairwise_names (us : List Unknown) :
    (Unknown.names us).Pairwise fun a b => a.index < b.index := by
  unfold Unknown.names
  generalize us.filterMap _ = ids
  let before (a b : NameId) : Bool := a.index ≤ b.index
  have hsorted : (ids.eraseDups.mergeSort before).Pairwise fun a b => before a b = true :=
    List.pairwise_mergeSort (fun a b c hab hbc => by simp [before] at *; omega)
      (fun a b => by simp [before]; omega) ids.eraseDups
  have hnodup : (ids.eraseDups.mergeSort before).Nodup :=
    (List.mergeSort_perm ids.eraseDups before).nodup_iff.2 (nodup_eraseDups ids)
  refine (hsorted.and hnodup).imp fun {a b} ⟨hle, hne⟩ => ?_
  refine Nat.lt_of_le_of_ne (of_decide_eq_true hle) fun heq => hne ?_
  cases a
  cases b
  exact congrArg NameId.mk heq

namespace Layout

variable {l : Layout Work} {e : Entry Work} {u : Unknown}

/-! ## Reports -/

/-- An entry waits, directly or not, for a name that no symbol has. -/
def Misses (l : Layout Work) (e : Entry Work) (n : NameId) : Prop :=
  l.table.defines n = false ∧ ∃ u ∈ e.unknowns l.table, ReflTransGen l.WaitsOn u (.symbol n)

/-- The errors that an entry is reported with when it is given up: one for each name that it
misses, in the order of the names, or a single one that calls it circular if it misses none. -/
inductive Reported (l : Layout Work) (e : Entry Work) : List (Range × LayoutError) → Prop where
  | undefined {names : List NameId} : names ≠ [] →
      names.Pairwise (fun a b => a.index < b.index) → (∀ n, n ∈ names ↔ l.Misses e n) →
      Reported l e (names.map fun n => (e.range, .undefinedSymbol n))
  | circular : (∀ n, ¬ l.Misses e n) →
      Reported l e [(e.range, .circularDependency e.targetName?)]

/-- The search for undefined names finds those that an entry misses. -/
theorem Targeted.mem_undefinedNames_iff (h : l.Targeted) {n : NameId} :
    n ∈ l.undefinedNames e ↔ l.Misses e n := by
  have hpresent : l.Present (.symbol n) := trivial
  unfold undefinedNames Misses
  rw [List.mem_filter, mem_names, h.mem_reachable_iff hpresent, and_comm, Bool.not_eq_true']

/-- An entry is reported with what it misses. -/
theorem Targeted.reported (h : l.Targeted) (e : Entry Work) :
    l.Reported e ((l.complaints e).map (e.range, ·)) := by
  by_cases hnames : l.undefinedNames e = []
  · rw [complaints_of_nil hnames]
    refine .circular fun n hmisses => ?_
    rw [← h.mem_undefinedNames_iff, hnames] at hmisses
    exact List.not_mem_nil hmisses
  · rw [complaints_of_ne_nil hnames, List.map_map]
    exact .undefined hnames ((pairwise_names _).filter _) fun n => h.mem_undefinedNames_iff

/-- What an entry waits for, directly or not, has no value. -/
theorem unset_of_path {v : Unknown} (hu : u ∈ e.unknowns l.table)
    (hpath : ReflTransGen l.WaitsOn u v) : l.table.Unset v := by
  rcases hpath.cases_tail with rfl | ⟨w, -, hlast⟩
  · exact Entry.unset_of_mem_unknowns hu
  · exact hlast.unset

/-- The end of the source settles the layout, and then takes away every entry that is left and
reports it, one after the other in the order of registration. All that an entry is traced through
has no value or no length. Nothing else changes. -/
theorem finish_reports (rs : List (Request Work)) :
    let left := (run {} rs).settle
    let final := (run {} rs).perform .finish
    left.entries.Sublist (registrations {} rs) ∧
    (∀ e ∈ left.entries, ∀ u ∈ e.unknowns left.table, ∀ v, ReflTransGen left.WaitsOn u v →
      left.table.Unset v) ∧
    (∃ reports, List.Forall₂ left.Reported left.entries reports ∧
      final.errors = left.errors ++ reports.flatten) ∧
    final.entries = [] ∧ final.table = left.table ∧ final.counter = left.counter ∧
      final.ready = left.ready := by
  intro left final
  have htargeted : left.Targeted := (Targeted.run (fun e he => by simp at he) rs).settle
  refine ⟨?_, fun e _ u hu v hpath => unset_of_path hu hpath, ?_, rfl, rfl, rfl, rfl⟩
  · exact (entries_settle_sublist _).trans (entries_run_sublist {} rs)
  · refine ⟨left.entries.map fun e => (left.complaints e).map (e.range, ·), ?_, ?_⟩
    · rw [List.forall₂_map_right_iff, List.forall₂_same]
      exact fun e _ => htargeted.reported e
    · rw [← List.flatMap_def]
      rfl

/-- Storage has an undefined length, and work waits for the place behind it and its padding, and for
another undefined symbol. -/
example :
    let l : Layout String := run {} [.reserveLater (.symbol ⟨0⟩ {}) .none {}, .align .fullword,
      .define ⟨⟨1⟩, .absolute 4, .equate none, {}⟩,
      .await none [.expr (.binary .add (.symbol ⟨2⟩ {}) (.symbol ⟨1⟩ {}) {}),
        .address ⟨0, [⟨0⟩, ⟨1⟩]⟩] (some "check") {}]
    (l.perform .finish).errors = [({}, .undefinedSymbol ⟨0⟩), ({}, .undefinedSymbol ⟨0⟩),
      ({}, .undefinedSymbol ⟨2⟩)] := by
  cbv

end Layout

end MacroAssembler
