import Mathlib
import MacroAssembler.Proofs.Layout.Relabel

/-!
# The order of release

Work that waits for the same sources is not always released in the order in which it came. Read
`sublist_releaseOrder_iff` first: of two registrations with the same sources the earlier one is
fetched first exactly if no walk over the entries finds the sources unknown at the earlier
registration and known at the later one, because it has completed an entry between the two.

Works are told apart by the places of their registrations in the run: `number` pairs each work with
its place, and `map_snd_fetched_number` says that this changes nothing else.
-/

namespace MacroAssembler.Layout

variable {Work : Type}

/-! ## Walks -/

/-- The layouts from which settling walks over the entries, in order. -/
def walks (l : Layout Work) : List (Layout Work) :=
  { l with table := l.table.settleSpaces } ::
    if l.pass.unsettled < l.unsettled then l.pass.walks else []
  termination_by l.unsettled

/-- The layout that a request settles, if it settles any. -/
def settled? (l : Layout Work) : Request Work → Option (Layout Work)
  | .define symbol => if l.table.defines symbol.name then none else some (l.addSymbol symbol)
  | .await target sources work range =>
      let e : Entry Work := ⟨target.map .symbol, sources, work, range⟩
      if l.Rejects e then none else some (l.enqueue e)
  | .reserveLater length alignment range =>
      let (s, opened) := l.openSpace alignment
      let e := lengthEntry s length range
      if opened.Rejects e then none else some (opened.enqueue e)
  | .finish => some l
  | _ => none

/-- All walks of a run, in order. -/
def walksOf : Layout Work → List (Request Work) → List (Layout Work)
  | _, [] => []
  | l, r :: rs => ((l.settled? r).elim [] walks) ++ walksOf (l.perform r) rs

/-- The entries that a walk completes, in order. -/
def completedBy (l : Layout Work) : List (Entry Work) → List (Entry Work)
  | [] => []
  | e :: rest =>
      if e.isSettled l.table then e :: completedBy (l.complete e) rest else completedBy l rest

/-- A walk in two parts. -/
theorem sweep_append (l : Layout Work) (es es' : List (Entry Work)) :
    l.sweep (es ++ es') =
      ((l.sweep es).1 ++ ((l.sweep es).2.sweep es').1, ((l.sweep es).2.sweep es').2) := by
  induction es generalizing l with
  | nil => rfl
  | cons e es ih =>
      rw [List.cons_append, sweep, sweep]
      split
      · exact ih (l.complete e)
      · rw [ih l]
        rfl

/-- The entries completed by a walk in two parts. -/
theorem completedBy_append (l : Layout Work) (es es' : List (Entry Work)) :
    l.completedBy (es ++ es') = l.completedBy es ++ (l.sweep es).2.completedBy es' := by
  induction es generalizing l with
  | nil => rfl
  | cons e es ih =>
      rw [List.cons_append, completedBy, completedBy, sweep]
      split
      · rw [ih (l.complete e), List.cons_append]
      · exact ih l

/-- A walk releases the work of the entries it completes. -/
theorem ready_sweep (l : Layout Work) (es : List (Entry Work)) :
    (l.sweep es).2.ready = l.ready ++ (l.completedBy es).filterMap (·.work) := by
  induction es generalizing l with
  | nil => simp [sweep, completedBy]
  | cons e es ih =>
      rw [completedBy, sweep]
      split
      · rw [ih, ready_complete, List.append_assoc]
        cases hw : e.work <;> simp [hw]
      · exact ih l

/-- A walk keeps or completes each entry. -/
theorem sweep_perm (l : Layout Work) (es : List (Entry Work)) :
    es.Perm ((l.sweep es).1 ++ l.completedBy es) := by
  induction es generalizing l with
  | nil => exact .nil
  | cons e es ih =>
      rw [completedBy, sweep]
      split
      · exact ((ih (l.complete e)).cons e).trans List.perm_middle.symm
      · exact (ih l).cons e

/-- The entries that a walk keeps stay in order. -/
theorem kept_sublist (l : Layout Work) (es : List (Entry Work)) : (l.sweep es).1.Sublist es := by
  induction es generalizing l with
  | nil => exact .slnil
  | cons e es ih =>
      rw [sweep]
      split
      · exact (ih (l.complete e)).cons e
      · exact (ih l).cons_cons e

/-- The entries that a walk completes are completed in order. -/
theorem completedBy_sublist (l : Layout Work) (es : List (Entry Work)) :
    (l.completedBy es).Sublist es := by
  induction es generalizing l with
  | nil => exact .slnil
  | cons e es ih =>
      rw [completedBy]
      split
      · exact (ih (l.complete e)).cons_cons e
      · exact (ih l).cons e

/-! ## Places of registrations -/

/-- A request with its work paired with a number. -/
def Request.tag (n : Nat) : Request Work → Request (Nat × Work)
  | .define symbol => .define symbol
  | .align alignment => .align alignment
  | .reserve size alignment => .reserve size alignment
  | .reserveLater length alignment range => .reserveLater length alignment range
  | .await target sources work range => .await target sources (work.map (n, ·)) range
  | .takeReady => .takeReady
  | .takeDiagnostics names => .takeDiagnostics names
  | .takeEvents => .takeEvents
  | .finish => .finish

/-- Requests with each work paired with its place, counted from `n`. -/
def number (n : Nat) : List (Request Work) → List (Request (Nat × Work))
  | [] => []
  | r :: rs => r.tag n :: number (n + 1) rs

/-- Forgetting the places gives the requests back. -/
theorem map_number (n : Nat) (rs : List (Request Work)) :
    (number n rs).map (·.map Prod.snd) = rs := by
  have htag (n : Nat) (r : Request Work) : (r.tag n).map Prod.snd = r := by
    cases r with
    | await target sources work range => cases work <;> rfl
    | _ => rfl
  induction rs generalizing n with
  | nil => rfl
  | cons r rs ih => rw [number, List.map_cons, htag, ih]

/-- The places change nothing about the works that are fetched. -/
theorem map_snd_fetched_number (n : Nat) (rs : List (Request Work)) :
    (fetched {} (number n rs)).map Prod.snd = fetched {} rs := by
  rw [← fetched_map, map_number]
  rfl

/-- The places of the registrations whose work a run fetches, in the order of fetching. -/
def releaseOrder (rs : List (Request Work)) : List Nat :=
  (fetched {} (number 0 rs)).map Prod.fst

/-- The place of the registration that an entry comes from, if it carries work. -/
def place? (e : Entry (Nat × Work)) : Option Nat := e.work.map Prod.fst

/-- The places of the entries that carry work. -/
def places (es : List (Entry (Nat × Work))) : List Nat := es.filterMap place?

/-- The places of released work that was not fetched. -/
def readyPlaces (l : Layout (Nat × Work)) : List Nat := l.ready.map Prod.fst

/-- All sources are known. -/
def Settles (t : SymbolTable) (sources : List Source) : Prop :=
  sources.flatMap t.unknownsOfSource = []

/-- A walk reaches the entry from place `i` before its sources are known, goes on, and reaches the
entry from place `j` when they are known. -/
def Overtakes (walk : Layout (Nat × Work)) (i j : Nat) (sources : List Source) : Prop :=
  ∃ before first between second after,
    walk.entries = before ++ first :: (between ++ second :: after) ∧
    place? first = some i ∧ place? second = some j ∧
    ¬ Settles (walk.sweep before).2.table sources ∧
    Settles (walk.sweep (before ++ first :: between)).2.table sources

theorem mem_places {es : List (Entry (Nat × Work))} {n : Nat} :
    n ∈ places es ↔ ∃ e ∈ es, place? e = some n :=
  List.mem_filterMap

/-- An entry is settled if its sources are known. -/
theorem isSettled_iff {e : Entry Work} {t : SymbolTable} :
    e.isSettled t = true ↔ Settles t e.sources := by
  simp [Entry.isSettled, Entry.unknowns, Settles]

/-- A walk that overtakes keeps the earlier entry and completes the later one. -/
theorem Overtakes.mem_places {walk : Layout (Nat × Work)} {i j : Nat} {sources : List Source}
    (h : Overtakes walk i j sources)
    (hshared : ∀ e ∈ walk.entries, place? e = some i ∨ place? e = some j → e.sources = sources) :
    i ∈ places (walk.sweep walk.entries).1 ∧ j ∈ places (walk.completedBy walk.entries) := by
  obtain ⟨before, first, between, second, after, hentries, hi, hj, hunknown, hknown⟩ := h
  have hfirst : first.isSettled (walk.sweep before).2.table = false := by
    rw [← Bool.not_eq_true, isSettled_iff, hshared first (by simp [hentries]) (.inl hi)]
    exact hunknown
  have hsecond : second.isSettled (walk.sweep (before ++ first :: between)).2.table = true := by
    rw [isSettled_iff, hshared second (by simp [hentries]) (.inr hj)]
    exact hknown
  constructor
  · refine Layout.mem_places.2 ⟨first, ?_, hi⟩
    rw [hentries, sweep_append, sweep, if_neg (by simp [hfirst])]
    simp
  · refine Layout.mem_places.2 ⟨second, ?_, hj⟩
    have hsplit : walk.entries = (before ++ first :: between) ++ second :: after := by
      simp [hentries]
    rw [hsplit, completedBy_append, completedBy, if_pos hsecond]
    simp

/-- A walk keeps no place that it completes. -/
theorem not_mem_completedBy {walk : Layout (Nat × Work)}
    (hsorted : (places walk.entries).Pairwise (· < ·)) {k : Nat}
    (hk : k ∈ places (walk.sweep walk.entries).1) : k ∉ places (walk.completedBy walk.entries) := by
  have hperm := (walk.sweep_perm walk.entries).filterMap place?
  rw [List.filterMap_append] at hperm
  have hnodup :
      (places (walk.sweep walk.entries).1 ++ places (walk.completedBy walk.entries)).Nodup :=
    hperm.nodup_iff.1 (hsorted.imp (fun h => Nat.ne_of_lt h))
  exact fun hk' => (List.nodup_append.1 hnodup).2.2 k hk k hk' rfl

/-- Entries stand in the order of their places. -/
theorem exists_between {es : List (Entry (Nat × Work))} (hsorted : (places es).Pairwise (· < ·))
    {first second : Entry (Nat × Work)} (hfirst : first ∈ es) (hsecond : second ∈ es) {i j : Nat}
    (hi : place? first = some i) (hj : place? second = some j) (hij : i < j) :
    ∃ before between after, es = before ++ first :: (between ++ second :: after) := by
  obtain ⟨before, tail, rfl⟩ := List.append_of_mem hfirst
  have hbehind : second ∈ tail := by
    rcases List.mem_append.1 hsecond with hbefore | hrest
    · simp only [places, List.filterMap_append, List.filterMap_cons, hi,
        List.pairwise_append] at hsorted
      have := hsorted.2.2 j (mem_places.2 ⟨second, hbefore, hj⟩) i (by simp)
      omega
    · rcases List.mem_cons.1 hrest with rfl | htail
      · rw [hi] at hj
        exact absurd (Option.some.inj hj) (Nat.ne_of_lt hij)
      · exact htail
  obtain ⟨between, after, rfl⟩ := List.append_of_mem hbehind
  exact ⟨before, between, after, rfl⟩

/-- A walk overtakes exactly if it keeps the earlier entry and completes the later one. -/
theorem overtakes_iff (walk : Layout (Nat × Work)) {i j : Nat} {sources : List Source}
    (hij : i < j) (hsorted : (places walk.entries).Pairwise (· < ·))
    (hshared : ∀ e ∈ walk.entries, place? e = some i ∨ place? e = some j → e.sources = sources) :
    Overtakes walk i j sources ↔
      i ∈ places (walk.sweep walk.entries).1 ∧ j ∈ places (walk.completedBy walk.entries) := by
  refine ⟨fun h => h.mem_places hshared, ?_⟩
  rintro ⟨hi, hj⟩
  obtain ⟨first, hfirst, hfi⟩ := mem_places.1 hi
  obtain ⟨second, hsecond, hsj⟩ := mem_places.1 hj
  have hfirst' := (walk.kept_sublist walk.entries).subset hfirst
  have hsecond' := (walk.completedBy_sublist walk.entries).subset hsecond
  obtain ⟨before, between, after, hentries⟩ :=
    exists_between hsorted hfirst' hsecond' hfi hsj hij
  refine ⟨before, first, between, second, after, hentries, hfi, hsj, ?_, ?_⟩
  · rw [← hshared first hfirst' (.inl hfi), ← isSettled_iff]
    intro hsettled
    refine not_mem_completedBy hsorted hi (mem_places.2 ⟨first, ?_, hfi⟩)
    rw [hentries, completedBy_append, completedBy, if_pos hsettled]
    simp
  · rw [← hshared second hsecond' (.inr hsj), ← isSettled_iff]
    by_contra hunsettled
    refine not_mem_completedBy hsorted (mem_places.2 ⟨second, ?_, hsj⟩) hj
    have hsplit : walk.entries = (before ++ first :: between) ++ second :: after := by
      simp [hentries]
    rw [hsplit, sweep_append, sweep, if_neg hunsettled]
    simp

/-! ## The ledger of releases -/

/-- In a list without repetitions, the order of two members does not depend on what follows. -/
theorem pair_sublist_append_iff {i j : Nat} {log more : List Nat} (hnodup : (log ++ more).Nodup)
    (hi : i ∈ log) (hj : j ∈ log) : [i, j].Sublist (log ++ more) ↔ [i, j].Sublist log := by
  refine ⟨fun h => ?_, fun h => h.trans (List.sublist_append_left _ _)⟩
  have hmore {k : Nat} (hk : k ∈ log) : k ∉ more := fun hk' =>
    (List.nodup_append.1 hnodup).2.2 k hk k hk' rfl
  obtain ⟨front, back, hsplit, hfront, hback⟩ := List.sublist_append_iff.1 h
  have hnil : back = [] := List.eq_nil_iff_forall_not_mem.2 fun k hk => by
    have hmem : k ∈ [i, j] := by simp [hsplit, hk]
    rcases List.mem_cons.1 hmem with rfl | hmem
    · exact hmore hi (hback.subset hk)
    · exact hmore hj (List.mem_singleton.1 hmem ▸ hback.subset hk)
  rw [hsplit, hnil, List.append_nil]
  exact hfront

/-- In a list without repetitions, no member of a later part comes before one of an earlier part. -/
theorem not_pair_sublist_append {i j : Nat} {log more : List Nat} (hnodup : (log ++ more).Nodup)
    (hi : i ∈ more) (hj : j ∈ log) : ¬ [i, j].Sublist (log ++ more) := by
  have hlog {k : Nat} (hk : k ∈ log) : k ∉ more := fun hk' =>
    (List.nodup_append.1 hnodup).2.2 k hk k hk' rfl
  intro hsub
  obtain ⟨front, back, hsplit, hfront, hback⟩ := List.sublist_append_iff.1 hsub
  rcases front with _ | ⟨a, front⟩
  · obtain rfl : back = [i, j] := hsplit.symm
    exact hlog hj (hback.subset (by simp))
  · obtain ⟨rfl, -⟩ := List.cons.inj hsplit
    exact hlog (hfront.subset (by simp)) hi

/-- In a sorted list the lower one of two members comes first. -/
theorem pair_sublist_of_pairwise {i j : Nat} {l : List Nat} (hsorted : l.Pairwise (· < ·))
    (hi : i ∈ l) (hj : j ∈ l) (hij : i < j) : [i, j].Sublist l := by
  obtain ⟨front, back, rfl⟩ := List.append_of_mem hi
  rcases List.mem_append.1 hj with hfront | hback
  · have := (List.pairwise_append.1 hsorted).2.2 j hfront i (by simp)
    omega
  · rcases List.mem_cons.1 hback with rfl | hback
    · omega
    · exact ((List.singleton_sublist.2 hback).cons_cons i).trans (List.sublist_append_right _ _)

/-- What is known of the places `i < j` while `log` has been released and `pending` still waits.
The flag says whether a walk has overtaken `i` with `j`. -/
structure Ledger (i j : Nat) (log pending : List Nat) (overtaken : Prop) : Prop where
  sorted : pending.Pairwise (· < ·)
  nodup : (log ++ pending).Nodup
  /-- Only a released place has overtaken. -/
  early : j ∉ log → ¬ overtaken
  /-- If the later place is released and the earlier one is not, it was overtaken. -/
  late : j ∈ log → i ∈ pending → overtaken
  ordered : i ∈ log → j ∈ log → ([i, j].Sublist log ↔ ¬ overtaken)

namespace Ledger

variable {i j : Nat} {log pending : List Nat} {overtaken : Prop}

/-- A walk moves some places from the waiting ones to the released ones. -/
theorem walk {kept completed : List Nat} (hij : i < j) (h : Ledger i j log pending overtaken)
    (hkept : kept.Sublist pending) (hcompleted : completed.Sublist pending)
    (hperm : pending.Perm (kept ++ completed)) :
    Ledger i j (log ++ completed) kept (overtaken ∨ i ∈ kept ∧ j ∈ completed) := by
  have hnodup : (log ++ completed ++ kept).Nodup := by
    have hmoved : (log ++ completed ++ kept).Perm (log ++ pending) := by
      rw [List.append_assoc]
      exact (List.perm_append_comm.trans hperm.symm).append_left log
    exact hmoved.nodup_iff.2 h.nodup
  have hlog {k : Nat} (hk : k ∈ log) : k ∉ completed := fun hk' =>
    (List.nodup_append.1 h.nodup).2.2 k hk k (hcompleted.subset hk') rfl
  have hgone {k : Nat} (hk : k ∈ log ++ completed) : k ∉ kept := fun hk' =>
    (List.nodup_append.1 hnodup).2.2 k hk k hk' rfl
  refine ⟨h.sorted.sublist hkept, hnodup, ?_, ?_, ?_⟩
  · rintro hj (hold | ⟨-, hnew⟩)
    · exact h.early (fun hj' => hj (List.mem_append_left _ hj')) hold
    · exact hj (List.mem_append_right _ hnew)
  · intro hj hi
    rcases List.mem_append.1 hj with hj | hj
    · exact .inl (h.late hj (hkept.subset hi))
    · exact .inr ⟨hi, hj⟩
  · intro hi hj
    have hkeep : (overtaken ∨ i ∈ kept ∧ j ∈ completed) ↔ overtaken := by simp [hgone hi]
    rw [hkeep]
    rcases List.mem_append.1 hj with hj | hj
    · rcases List.mem_append.1 hi with hi | hi
      · rw [pair_sublist_append_iff (List.nodup_append.1 hnodup).1 hi hj]
        exact h.ordered hi hj
      · -- the later place came first
        exact iff_of_false (not_pair_sublist_append (List.nodup_append.1 hnodup).1 hi hj)
          (not_not.2 (h.late hj (hcompleted.subset hi)))
    · have hnot : ¬ overtaken := h.early fun hj' => hlog hj' hj
      refine iff_of_true ?_ hnot
      rcases List.mem_append.1 hi with hi | hi
      · exact (List.singleton_sublist.2 hi).append (List.singleton_sublist.2 hj)
      · exact (pair_sublist_of_pairwise (h.sorted.sublist hcompleted) hi hj hij).trans
          (List.sublist_append_right _ _)

/-- A new place waits behind all others. -/
theorem enqueue {n : Nat} (hij : i < j) (h : Ledger i j log pending overtaken)
    (hlog : ∀ k ∈ log, k < n) (hpending : ∀ k ∈ pending, k < n) :
    Ledger i j log (pending ++ [n]) overtaken := by
  refine ⟨?_, ?_, h.early, fun hj' hi => ?_, h.ordered⟩
  · exact List.pairwise_append.2 ⟨h.sorted, List.pairwise_singleton _ _, by simpa using hpending⟩
  · rw [← List.append_assoc]
    refine List.nodup_append.2 ⟨h.nodup, by simp, fun k hk m hm => ?_⟩
    obtain rfl := List.mem_singleton.1 hm
    rcases List.mem_append.1 hk with hk | hk
    · exact Nat.ne_of_lt (hlog k hk)
    · exact Nat.ne_of_lt (hpending k hk)
  · rcases List.mem_append.1 hi with hi | hi
    · exact h.late hj' hi
    · have := hlog j hj'
      have := List.mem_singleton.1 hi
      omega

/-- The places that wait are given up. -/
theorem abandon (h : Ledger i j log pending overtaken) : Ledger i j log [] overtaken where
  sorted := .nil
  nodup := by simpa using (List.nodup_append.1 h.nodup).1
  early := h.early
  late := by simp
  ordered := h.ordered

end Ledger

/-! ## Watching two places during a run -/

/-- The ledger of a layout whose next request has place `n`, after the works of the places
`before` were fetched. -/
structure Watch (i j n : Nat) (sources : List Source) (before : List Nat)
    (l : Layout (Nat × Work)) (overtaken : Prop) : Prop where
  ledger : Ledger i j (before ++ readyPlaces l) (places l.entries) overtaken
  released_lt : ∀ k ∈ before ++ readyPlaces l, k < n
  pending_lt : ∀ k ∈ places l.entries, k < n
  shared : ∀ e ∈ l.entries, place? e = some i ∨ place? e = some j → e.sources = sources

namespace Watch

variable {i j n : Nat} {sources : List Source} {before : List Nat} {l : Layout (Nat × Work)}
  {overtaken overtaken' : Prop}

/-- The flag matters only up to equivalence. -/
theorem congr (h : Watch i j n sources before l overtaken) (hiff : overtaken ↔ overtaken') :
    Watch i j n sources before l overtaken' := by
  rwa [← propext hiff]

/-- Only the entries and the released works matter, and there may be fewer entries. -/
theorem frame (h : Watch i j n sources before l overtaken) (l' : Layout (Nat × Work))
    (hentries : l'.entries = l.entries) (hready : l'.ready = l.ready) :
    Watch i j (n + 1) sources before l' overtaken where
  ledger := by rw [readyPlaces, hready, hentries]; exact h.ledger
  released_lt := fun k hk => by
    rw [readyPlaces, hready] at hk
    exact Nat.lt_succ_of_lt (h.released_lt k hk)
  pending_lt := fun k hk => Nat.lt_succ_of_lt (h.pending_lt k (by rwa [hentries] at hk))
  shared := fun e he => h.shared e (by rwa [hentries] at he)

/-- One pass is watched. -/
theorem pass (hij : i < j) (h : Watch i j n sources before l overtaken) :
    Watch i j n sources before l.pass
      (overtaken ∨ Overtakes { l with table := l.table.settleSpaces } i j sources) := by
  let walk : Layout (Nat × Work) := { l with table := l.table.settleSpaces }
  have hready : readyPlaces l.pass = readyPlaces l ++ places (walk.completedBy walk.entries) := by
    change ((walk.sweep walk.entries).2.ready).map Prod.fst = _
    rw [ready_sweep, List.map_append, List.map_filterMap]
    rfl
  have hkept := (walk.kept_sublist walk.entries).filterMap place?
  have hcompleted := (walk.completedBy_sublist walk.entries).filterMap place?
  have hperm := (walk.sweep_perm walk.entries).filterMap place?
  rw [List.filterMap_append] at hperm
  have hledger := h.ledger.walk hij hkept hcompleted hperm
  have hovertakes := overtakes_iff walk hij h.ledger.sorted h.shared
  refine ⟨?_, ?_, ?_, ?_⟩
  · rw [hready, ← List.append_assoc, propext hovertakes]
    exact hledger
  · intro k hk
    rw [hready, ← List.append_assoc] at hk
    rcases List.mem_append.1 hk with hk | hk
    · exact h.released_lt k hk
    · exact h.pending_lt k (hcompleted.subset hk)
  · exact fun k hk => h.pending_lt k (hkept.subset hk)
  · exact fun e he => h.shared e ((walk.kept_sublist walk.entries).subset he)

/-- Settling is watched, walk by walk. -/
theorem settle (hij : i < j) (h : Watch i j n sources before l overtaken) :
    Watch i j n sources before l.settle
      (overtaken ∨ ∃ walk ∈ walks l, Overtakes walk i j sources) := by
  induction l using settle.induct generalizing overtaken with
  | case1 l hlt ih =>
      rw [Layout.settle, if_pos hlt, walks, if_pos hlt]
      exact (ih (h.pass hij)).congr (by simp [or_assoc])
  | case2 l hlt =>
      rw [Layout.settle, if_neg hlt, walks, if_neg hlt]
      exact (h.pass hij).congr (by simp)

/-- A new entry is watched if it has the shared sources, should its place be one of the two. -/
theorem enqueue (hij : i < j) {e : Entry (Nat × Work)}
    (h : Watch i j n sources before l overtaken) (he : ∀ k, place? e = some k → k = n)
    (hsources : place? e = some i ∨ place? e = some j → e.sources = sources) :
    Watch i j (n + 1) sources before (l.enqueue e) overtaken := by
  have hplaces : places (l.enqueue e).entries = places l.entries ++ (place? e).toList := by
    simp only [places, Layout.enqueue, List.filterMap_append]
    cases hp : place? e <;> simp [hp]
  refine ⟨?_, fun k hk => Nat.lt_succ_of_lt (h.released_lt k hk), ?_, ?_⟩
  · rw [hplaces]
    cases hp : place? e with
    | none => simpa [readyPlaces, Layout.enqueue] using h.ledger
    | some k =>
        obtain rfl := he k hp
        exact h.ledger.enqueue hij h.released_lt h.pending_lt
  · intro k hk
    rw [hplaces] at hk
    rcases List.mem_append.1 hk with hk | hk
    · exact Nat.lt_succ_of_lt (h.pending_lt k hk)
    · exact Nat.lt_succ_of_le (Nat.le_of_eq (he k (Option.mem_toList.1 hk)))
  · intro e' he'
    rcases List.mem_append.1 he' with he' | he'
    · exact h.shared e' he'
    · obtain rfl := List.mem_singleton.1 he'
      exact hsources

/-- Fetching works appends their places. -/
theorem fetch (h : Watch i j n sources before l overtaken) :
    Watch i j (n + 1) sources (before ++ readyPlaces l) l.takeReady.2 overtaken where
  ledger := by simpa [takeReady, readyPlaces] using h.ledger
  released_lt := fun k hk =>
    Nat.lt_succ_of_lt (h.released_lt k (by simpa [takeReady, readyPlaces] using hk))
  pending_lt := fun k hk => Nat.lt_succ_of_lt (h.pending_lt k hk)
  shared := h.shared

/-- Ending the source gives up what waits. -/
theorem finish (hij : i < j) (h : Watch i j n sources before l overtaken) :
    Watch i j (n + 1) sources before l.finish
      (overtaken ∨ ∃ walk ∈ walks l, Overtakes walk i j sources) := by
  have hsettle := h.settle hij
  exact ⟨hsettle.ledger.abandon, fun k hk => Nat.lt_succ_of_lt (hsettle.released_lt k hk),
    by simp [Layout.finish, places], by simp [Layout.finish]⟩

end Watch

/-- The places that a request fetches. -/
def fetchedPlaces (l : Layout (Nat × Work)) : Request (Nat × Work) → List Nat
  | .takeReady => readyPlaces l
  | _ => []

/-- A request is watched, walk by walk. -/
theorem watch_perform {i j n : Nat} {sources : List Source} {before : List Nat}
    {l : Layout (Nat × Work)} {overtaken : Prop} (hij : i < j) (r : Request Work)
    (hsources : ∀ target sources' work range, r = .await target sources' work range →
      n = i ∨ n = j → sources' = sources)
    (h : Watch i j n sources before l overtaken) :
    Watch i j (n + 1) sources (before ++ fetchedPlaces l (r.tag n)) (l.perform (r.tag n))
      (overtaken ∨ ∃ walk ∈ (l.settled? (r.tag n)).elim [] walks, Overtakes walk i j sources) := by
  cases r with
  | define symbol =>
      simp only [Request.tag, fetchedPlaces, List.append_nil, settled?]
      cases hdef : l.table.defines symbol.name with
      | true => simpa [perform_define_of_defines hdef] using h.frame l rfl rfl
      | false =>
          rw [perform_define hdef]
          exact (h.frame (l.addSymbol symbol) rfl rfl).settle hij
  | align alignment =>
      obtain ⟨hentries, hready, -⟩ := l.align_frame alignment
      simpa [Request.tag, fetchedPlaces, settled?, perform] using h.frame _ hentries hready
  | reserve size alignment =>
      obtain ⟨hentries, hready, -⟩ := l.align_frame alignment
      simpa [Request.tag, fetchedPlaces, settled?, perform] using
        h.frame (l.reserve size alignment).2 hentries hready
  | reserveLater length alignment range =>
      obtain ⟨hentries, hready, -⟩ := l.align_frame alignment
      simp only [Request.tag, fetchedPlaces, List.append_nil, perform_reserveLater, settled?]
      by_cases hrejects : (l.openSpace alignment).2.Rejects
          (lengthEntry (l.openSpace alignment).1 length range)
      · obtain ⟨event, hawait⟩ := await_of_rejects hrejects
        rw [if_pos hrejects, hawait]
        have hframe := h.frame
          (((l.openSpace alignment).2.note event).fail range (.circularDependency none))
          hentries hready
        simpa [lengthEntry, Entry.targetName?] using hframe
      · rw [if_neg hrejects, await_of_accepts hrejects]
        refine Watch.settle hij ?_
        have hopened : Watch i j n sources before (l.openSpace alignment).2 overtaken :=
          ⟨by simpa [readyPlaces, openSpace, hentries, hready] using h.ledger,
            by simpa [readyPlaces, openSpace, hready] using h.released_lt,
            by simpa [openSpace, hentries] using h.pending_lt,
            by simpa [openSpace, hentries] using h.shared⟩
        exact hopened.enqueue hij (by simp [place?, lengthEntry]) (by simp [place?, lengthEntry])
  | await target sources' work range =>
      simp only [Request.tag, fetchedPlaces, List.append_nil, settled?, perform]
      by_cases hrejects : l.Rejects ⟨target.map .symbol, sources', work.map (n, ·), range⟩
      · obtain ⟨event, hawait⟩ := await_of_rejects hrejects
        rw [if_pos hrejects, hawait]
        simpa using h.frame ((l.note event).fail range _) rfl rfl
      · rw [if_neg hrejects, await_of_accepts hrejects]
        refine (h.enqueue hij ?_ ?_).settle hij
        · intro k hk
          cases work <;> simp [place?] at hk
          exact hk.symm
        · intro hplace
          refine hsources target sources' work range rfl ?_
          cases work with
          | none => simp [place?] at hplace
          | some w => simpa [place?] using hplace
  | takeReady => simpa [Request.tag, fetchedPlaces, settled?, perform] using h.fetch
  | takeDiagnostics names =>
      simpa [Request.tag, fetchedPlaces, settled?, perform] using
        h.frame (l.takeDiagnostics names).2 rfl rfl
  | takeEvents =>
      simpa [Request.tag, fetchedPlaces, settled?, perform] using
        h.frame l.takeEvents.2 rfl rfl
  | finish => simpa [Request.tag, fetchedPlaces, settled?, perform] using h.finish hij

/-- A run is watched, walk by walk. -/
theorem watch_run {i j n : Nat} {sources : List Source} {before : List Nat}
    {l : Layout (Nat × Work)} {overtaken : Prop} (hij : i < j) (rs : List (Request Work))
    (hsources : ∀ k target sources' work range, rs[k]? = some (.await target sources' work range) →
      n + k = i ∨ n + k = j → sources' = sources)
    (h : Watch i j n sources before l overtaken) :
    Watch i j (n + rs.length) sources (before ++ (fetched l (number n rs)).map Prod.fst)
      (l.run (number n rs))
      (overtaken ∨ ∃ walk ∈ walksOf l (number n rs), Overtakes walk i j sources) := by
  induction rs generalizing n before l overtaken with
  | nil => simpa [number, fetched, walksOf] using h
  | cons r rs ih =>
      have hfirst (target : Option NameId) (sources' : List Source) (work : Option Work)
          (range : Range) (hr : r = .await target sources' work range) (hplace : n = i ∨ n = j) :
          sources' = sources :=
        hsources 0 target sources' work range (by simp [hr]) hplace
      have hstep := watch_perform hij r hfirst h
      have hrest := ih (n := n + 1) (fun k target sources' work range hk hplace =>
        hsources (k + 1) target sources' work range (by simpa using hk) (by omega)) hstep
      have hfetched : fetchedPlaces l (r.tag n) ++
          (fetched (l.perform (r.tag n)) (number (n + 1) rs)).map Prod.fst =
            (fetched l (number n (r :: rs))).map Prod.fst := by
        cases r <;> simp [number, Request.tag, fetched, fetchedPlaces, readyPlaces]
      rw [List.append_assoc, hfetched] at hrest
      rw [List.length_cons, Nat.add_comm rs.length 1, ← Nat.add_assoc]
      refine hrest.congr ?_
      simp only [number, walksOf, List.mem_append, or_and_right, exists_or, or_assoc]

/-! ## The order of two releases -/

/-- Two postponed works with the same sources are fetched in the order in which they came exactly
if no walk of the run overtakes the earlier one. -/
theorem sublist_releaseOrder_iff {rs : List (Request Work)} {i j : Nat} {sources : List Source}
    {first second : Work} {range range' : Range}
    (hi : rs[i]? = some (.await none sources (some first) range))
    (hj : rs[j]? = some (.await none sources (some second) range')) (hij : i < j)
    (hfirst : i ∈ releaseOrder rs) (hsecond : j ∈ releaseOrder rs) :
    [i, j].Sublist (releaseOrder rs) ↔
      ∀ walk ∈ walksOf {} (number 0 rs), ¬ Overtakes walk i j sources := by
  have hstart : Watch i j 0 sources [] ({} : Layout (Nat × Work)) False := by
    refine ⟨⟨?_, ?_, ?_, ?_, ?_⟩, ?_, ?_, ?_⟩ <;> simp [places, readyPlaces]
  have hwatch := watch_run hij rs (fun k target sources' work range'' hk hplace => by
    rcases hplace with hplace | hplace
    · obtain rfl : k = i := by omega
      rw [hi] at hk
      injection hk with hk
      injection hk with _ hk
      exact hk.symm
    · obtain rfl : k = j := by omega
      rw [hj] at hk
      injection hk with hk
      injection hk with _ hk
      exact hk.symm) hstart
  have hledger := hwatch.ledger
  have hnodup := (List.nodup_append.1 hledger.nodup).1
  rw [List.nil_append] at hledger hnodup
  rw [show releaseOrder rs = (fetched {} (number 0 rs)).map Prod.fst from rfl,
    ← pair_sublist_append_iff hnodup hfirst hsecond,
    hledger.ordered (List.mem_append_left _ hfirst) (List.mem_append_left _ hsecond)]
  simp

/-- Two works wait for a symbol that is defined afterwards. -/
def orderlyRun : List (Request String) :=
  [.await none [.expr (.symbol ⟨0⟩ {})] (some "first") {},
    .await none [.expr (.symbol ⟨0⟩ {})] (some "second") {},
    .define ⟨⟨0⟩, .absolute 7, .equate none, {}⟩,
    .takeReady]

/-- In such a run the order is kept, and no walk overtakes. -/
theorem orderlyRun_keeps_order :
    [0, 1].Sublist (releaseOrder orderlyRun) ∧
      ∀ walk ∈ walksOf {} (number 0 orderlyRun),
        ¬ Overtakes walk 0 1 [.expr (.symbol ⟨0⟩ {})] := by
  have horder : releaseOrder orderlyRun = [0, 1] := by cbv
  have hsub : [0, 1].Sublist (releaseOrder orderlyRun) := by simp [horder]
  have hiff : [0, 1].Sublist (releaseOrder orderlyRun) ↔ _ :=
    sublist_releaseOrder_iff rfl rfl (by decide) (by simp [horder]) (by simp [horder])
  exact ⟨hsub, hiff.1 hsub⟩

/-- Two works wait for a symbol that is defined afterwards, behind a space which was opened
between them. -/
def overtakingRun : List (Request String) :=
  [.await none [.expr (.symbol ⟨0⟩ {})] (some "first") {},
    .reserveLater (.symbol ⟨1⟩ {}) .none {},
    .await none [.expr (.symbol ⟨0⟩ {})] (some "second") {},
    .align .none,
    .define ⟨⟨0⟩, .relocatable ⟨0, [⟨0⟩]⟩, .storage none, {}⟩,
    .define ⟨⟨1⟩, .absolute 5, .equate none, {}⟩,
    .takeReady]

/-- The length of the space becomes known in the middle of the walk, behind the first work and in
front of the second: the second work is fetched first. -/
theorem overtakingRun_reverses_order :
    overtakingRun[0]? = some (.await none [.expr (.symbol ⟨0⟩ {})] (some "first") {}) ∧
      overtakingRun[2]? = some (.await none [.expr (.symbol ⟨0⟩ {})] (some "second") {}) ∧
      releaseOrder overtakingRun = [2, 0] ∧ ¬ [0, 2].Sublist (releaseOrder overtakingRun) := by
  have horder : releaseOrder overtakingRun = [2, 0] := by cbv
  refine ⟨rfl, rfl, horder, ?_⟩
  rw [horder]
  decide

end MacroAssembler.Layout
