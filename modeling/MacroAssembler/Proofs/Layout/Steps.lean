import Mathlib.Logic.Relation
import MacroAssembler.Layout.Settling
import MacroAssembler.Proofs.Symbol.Updates

/-!
# Settling in steps

Settling a layout is a sequence of small steps: a padding gets its length, or an entry that waits
for nothing is completed and taken away. A property that every step preserves is therefore
preserved by settling (`settle_steps`), and at the end no step is left to do
(`settle_quiescent`): every entry still waits, and the place in front of every padding without a
length is unknown.
-/

namespace MacroAssembler

namespace SymbolTable

/-- How many spaces have no length. -/
def missing (t : SymbolTable) : Nat := t.spaces.countP (·.length.isNone)

/-- Setting a length leaves no more spaces without one, and fewer if the space had none. -/
theorem missing_setLength (t : SymbolTable) (s : SpaceId) (n : Int32) :
    (t.setLength s n).missing ≤ t.missing ∧
      (s.index < t.spaces.size → t.length? s = none → (t.setLength s n).missing < t.missing) := by
  obtain ⟨i⟩ := s
  have hlist (spaces : List Space) (i : Nat) :
      let changed := spaces.modify i fun space => { space with length := some n }
      changed.countP (·.length.isNone) ≤ spaces.countP (·.length.isNone) ∧
        (∀ space, spaces[i]? = some space → space.length = none →
          changed.countP (·.length.isNone) < spaces.countP (·.length.isNone)) := by
    induction spaces generalizing i with
    | nil => simp
    | cons space rest ih =>
        cases i with
        | zero => cases h : space.length <;> simp [h]
        | succ i =>
            obtain ⟨hle, hlt⟩ := ih i
            refine ⟨by simp only [List.modify_succ_cons, List.countP_cons]; omega, ?_⟩
            intro space' hget hnone
            have := hlt space' (by simpa using hget) hnone
            simp only [List.modify_succ_cons, List.countP_cons]
            omega
  obtain ⟨hle, hlt⟩ := hlist t.spaces.toList i
  refine ⟨?_, fun hi hnone => ?_⟩
  · simpa [missing, setLength, ← Array.countP_toList, Array.toList_modify] using hle
  · have := hlt t.spaces[i] (by simp) (by simpa [length?, hi] using hnone)
    simpa [missing, setLength, ← Array.countP_toList, Array.toList_modify] using this

/-- Settling spaces changes nothing, or leaves fewer without a length. -/
theorem foldl_settleSpace (t : SymbolTable) (ns : List Nat) :
    ns.foldl (fun t n => t.settleSpace ⟨n⟩) t = t ∧ (∀ n ∈ ns, t.settleSpace ⟨n⟩ = t) ∨
      (ns.foldl (fun t n => t.settleSpace ⟨n⟩) t).missing < t.missing := by
  induction ns generalizing t with
  | nil => simp
  | cons n ns ih =>
      rw [List.foldl_cons]
      rcases settleSpace_eq t ⟨n⟩ with h | ⟨anchor, alignment, hkind, hnone, -, h⟩
      · rw [h]
        rcases ih t with ⟨heq, hall⟩ | hlt
        · exact .inl ⟨heq, List.forall_mem_cons.2 ⟨h, hall⟩⟩
        · exact .inr hlt
      · have hsize : n < t.spaces.size := kind?_isSome_iff.1 (by simp [hkind])
        have hstep : (t.settleSpace ⟨n⟩).missing < t.missing := by
          rw [h]
          exact (missing_setLength t ⟨n⟩ _).2 hsize hnone
        rcases ih (t.settleSpace ⟨n⟩) with ⟨heq, -⟩ | hlt
        · exact .inr (by rwa [heq])
        · exact .inr (Nat.lt_trans hlt hstep)

end SymbolTable

namespace Layout

variable {Work : Type}

/-! ## Completing an entry -/

@[simp] theorem entries_complete (l : Layout Work) (e : Entry Work) :
    (l.complete e).entries = l.entries := by
  unfold complete determine release
  repeat' split
  all_goals rfl

@[simp] theorem counter_complete (l : Layout Work) (e : Entry Work) :
    (l.complete e).counter = l.counter := by
  unfold complete determine release
  repeat' split
  all_goals rfl

/-- Determining a target does not look at the entries that wait. -/
theorem determine_with_entries (l : Layout Work) (e : Entry Work) (es : List (Entry Work)) :
    { l with entries := es }.determine e = { l.determine e with entries := es } := by
  unfold determine
  cases e.target with
  | none => rfl
  | some u =>
      cases u with
      | symbol name =>
          cases e.sources.head? with
          | none => rfl
          | some source =>
              dsimp only
              cases l.table.evaluateSource source <;> rfl
      | space s =>
          dsimp only
          generalize e.sources.head?.map l.table.evaluateSource = value
          rcases value with _ | _ | ⟨n | a | _⟩
          · rfl
          · rfl
          · by_cases hn : 0 ≤ n
            · simp only [if_pos hn]
            · simp only [if_neg hn]
              rfl
          · rfl
          · rfl

/-- Completing an entry does not look at the entries that wait. -/
theorem complete_with_entries (l : Layout Work) (e : Entry Work) (es : List (Entry Work)) :
    { l with entries := es }.complete e = { l.complete e with entries := es } := by
  unfold complete
  rw [determine_with_entries]
  unfold release
  cases e.work <;> rfl

/-- The work that completing an entry releases. -/
@[simp] theorem ready_complete (l : Layout Work) (e : Entry Work) :
    (l.complete e).ready = l.ready ++ e.work.toList := by
  have hready : (l.determine e).ready = l.ready := by
    unfold determine
    repeat' split
    all_goals rfl
  unfold complete release
  cases e.work <;> simp [hready]

/-- All that completing an entry can do to the table and the errors. -/
inductive Completes (t : SymbolTable) (e : Entry Work) :
    SymbolTable → List (Range × LayoutError) → Prop where
  | release : e.target = none → Completes t e t []
  | clear {n} : e.target = some (.symbol n) → e.sources = [] →
      Completes t e (t.setValue n .undefined) []
  | value {n source rest v} : e.target = some (.symbol n) → e.sources = source :: rest →
      t.evaluateSource source = .ok v → Completes t e (t.setValue n v) []
  | fault {n source rest error} : e.target = some (.symbol n) → e.sources = source :: rest →
      t.evaluateSource source = .error error → Completes t e t [(e.range, .invalidValue error)]
  | length {s source rest n} : e.target = some (.space s) → e.sources = source :: rest →
      t.evaluateSource source = .ok (.absolute n) → 0 ≤ n → Completes t e (t.setLength s n) []
  | noLength {s} : e.target = some (.space s) →
      (∀ source rest n, e.sources = source :: rest →
        t.evaluateSource source = .ok (.absolute n) → ¬ 0 ≤ n) →
      Completes t e (t.setLength s 0) [(e.range, .invalidLength)]

/-- Completing an entry does one of the things it can do. -/
theorem complete_completes (l : Layout Work) (e : Entry Work) :
    ∃ errors, (l.complete e).errors = l.errors ++ errors ∧
      Completes l.table e (l.complete e).table errors := by
  have hrelease (l : Layout Work) :
      (l.release e).table = l.table ∧ (l.release e).errors = l.errors := by
    unfold release
    split <;> exact ⟨rfl, rfl⟩
  simp only [complete, hrelease]
  unfold determine
  split
  · rename_i ht
    exact ⟨[], by simp, .release ht⟩
  · rename_i n ht
    split
    · rename_i hs
      exact ⟨[], by simp, .clear ht (List.head?_eq_none_iff.1 hs)⟩
    · rename_i source hs
      obtain ⟨rest, hsources⟩ := List.head?_eq_some_iff.1 hs
      split
      · rename_i hv
        exact ⟨[], by simp, .value ht hsources hv⟩
      · rename_i error hv
        exact ⟨[_], rfl, .fault ht hsources hv⟩
  · rename_i s ht
    split
    · rename_i n hn
      obtain ⟨source, hs, hv⟩ := Option.map_eq_some_iff.1 hn
      obtain ⟨rest, hsources⟩ := List.head?_eq_some_iff.1 hs
      split
      · rename_i hle
        exact ⟨[], by simp, .length ht hsources hv hle⟩
      · rename_i hneg
        refine ⟨[_], rfl, .noLength ht fun source' rest' m hsources' hv' => ?_⟩
        obtain ⟨rfl, -⟩ := List.cons.inj (hsources.symm.trans hsources')
        rw [hv] at hv'
        cases hv'
        exact hneg
    · rename_i hnot
      refine ⟨[_], rfl, .noLength ht fun source' rest' m hsources' hv' => ?_⟩
      exact absurd (by simp [hsources', hv']) (hnot m)

/-- Completing an entry leaves no more spaces without a length. -/
theorem missing_complete_le (l : Layout Work) (e : Entry Work) :
    (l.complete e).table.missing ≤ l.table.missing := by
  obtain ⟨errors, -, h⟩ := l.complete_completes e
  generalize (l.complete e).table = t' at h
  cases h with
  | release | clear | value | fault => exact Nat.le_refl _
  | length | noLength => exact (SymbolTable.missing_setLength _ _ _).1

/-! ## Steps -/

/-- One step of settling a layout. -/
inductive Step : Layout Work → Layout Work → Prop where
  /-- A padding gets its length, if the place in front of it is known. -/
  | pad (l : Layout Work) (s : SpaceId) : Step l { l with table := l.table.settleSpace s }
  /-- An entry that waits for nothing is completed. -/
  | complete (l : Layout Work) (before : List (Entry Work)) (e : Entry Work)
      (after : List (Entry Work)) :
      l.entries = before ++ e :: after → e.isSettled l.table = true →
      Step l { l.complete e with entries := before ++ after }

/-- Any number of steps. -/
abbrev Steps : Layout Work → Layout Work → Prop := Relation.ReflTransGen Step

/-- Settling all spaces is a sequence of steps. -/
theorem settle_spaces_steps (l : Layout Work) :
    Steps l { l with table := l.table.settleSpaces } := by
  unfold SymbolTable.settleSpaces
  generalize List.range l.table.spaces.size = ns
  induction ns generalizing l with
  | nil => exact .refl
  | cons n ns ih => exact .head (.pad l ⟨n⟩) (ih { l with table := l.table.settleSpace ⟨n⟩ })

/-- A walk over the later entries is a sequence of steps, whatever the walk has kept before. -/
theorem sweep_steps (l : Layout Work) (before rest : List (Entry Work)) :
    Steps { l with entries := before ++ rest }
      { (l.sweep rest).2 with entries := before ++ (l.sweep rest).1 } := by
  induction rest generalizing l before with
  | nil => exact .refl
  | cons e rest ih =>
      rw [sweep]
      split
      · rename_i hsettled
        have hstep :=
          Step.complete { l with entries := before ++ e :: rest } before e rest rfl hsettled
        rw [complete_with_entries] at hstep
        exact .head hstep (ih (l.complete e) before)
      · simpa using ih l (before ++ [e])

/-- A pass is a sequence of steps. -/
theorem pass_steps (l : Layout Work) : Steps l l.pass :=
  (settle_spaces_steps l).trans
    (sweep_steps { l with table := l.table.settleSpaces } [] l.entries)

/-- Settling is a sequence of steps. -/
theorem settle_steps (l : Layout Work) : Steps l l.settle := by
  induction l using settle.induct with
  | case1 l hlt ih =>
      rw [settle, if_pos hlt]
      exact (pass_steps l).trans ih
  | case2 l hlt =>
      rw [settle, if_neg hlt]
      exact pass_steps l

/-- What every step preserves, settling preserves. -/
theorem settle_induction {P : Layout Work → Prop} (hstep : ∀ l l', Step l l' → P l → P l')
    {l : Layout Work} (h : P l) : P l.settle := by
  have hsteps := settle_steps l
  generalize l.settle = final at hsteps
  induction hsteps with
  | refl => exact h
  | tail _ hlast ih => exact hstep _ _ hlast ih

/-- A step leaves the entries that it does not complete in their order. -/
theorem Step.entries_sublist {l l' : Layout Work} (h : Step l l') :
    l'.entries.Sublist l.entries := by
  cases h with
  | pad => exact .refl _
  | complete before e after hentries =>
      rw [hentries]
      exact (List.sublist_cons_self e after).append_left before

/-- Settling leaves the entries that still wait in their order. -/
theorem entries_settle_sublist (l : Layout Work) : l.settle.entries.Sublist l.entries :=
  settle_induction (P := fun l' => l'.entries.Sublist l.entries)
    (fun _ _ hstep hold => hstep.entries_sublist.trans hold) (.refl _)

/-! ## The end of settling -/

/-- A layout in which no step is left to do. -/
structure Quiescent (l : Layout Work) : Prop where
  entries : ∀ e ∈ l.entries, e.isSettled l.table = false
  paddings : ∀ s anchor alignment, l.table.kind? s = some (.alignment anchor alignment) →
    l.table.length? s = none → (l.table.normalize anchor).spaces ≠ []

/-- A walk completes no entry and changes nothing, or less is left to do. -/
theorem sweep_progress (l : Layout Work) (rest : List (Entry Work)) :
    l.sweep rest = (rest, l) ∧ (∀ e ∈ rest, e.isSettled l.table = false) ∨
      (l.sweep rest).1.length + (l.sweep rest).2.table.missing <
        rest.length + l.table.missing := by
  induction rest generalizing l with
  | nil => simp [sweep]
  | cons e rest ih =>
      rw [sweep]
      split
      · refine .inr ?_
        have hcomplete := l.missing_complete_le e
        rcases ih (l.complete e) with ⟨heq, -⟩ | hlt
        · simp only [heq, List.length_cons]
          omega
        · simp only [List.length_cons]
          omega
      · rename_i hsettled
        rcases ih l with ⟨heq, hall⟩ | hlt
        · exact .inl ⟨by rw [heq], List.forall_mem_cons.2 ⟨by simpa using hsettled, hall⟩⟩
        · refine .inr ?_
          simp only [List.length_cons]
          omega

/-- A pass without progress changes nothing, because no step is left to do. -/
theorem pass_eq_self {l : Layout Work} (h : ¬ l.pass.unsettled < l.unsettled) :
    l.pass = l ∧ l.Quiescent := by
  have hunsettled (l : Layout Work) : l.unsettled = l.entries.length + l.table.missing := rfl
  rw [hunsettled, hunsettled] at h
  rcases l.table.foldl_settleSpace (List.range l.table.spaces.size) with ⟨hspaces, hall⟩ | hlt
  · have htable : l.table.settleSpaces = l.table := hspaces
    rcases sweep_progress l l.entries with ⟨hsweep, hentries⟩ | hlt
    · refine ⟨by simp [pass, htable, hsweep], hentries, fun s anchor alignment hkind hnone => ?_⟩
      intro hnil
      have hsize : s.index < l.table.spaces.size :=
        SymbolTable.kind?_isSome_iff.1 (by simp [hkind])
      have hsame := hall s.index (List.mem_range.2 hsize)
      -- the space would have got a length
      rw [SymbolTable.settleSpace_of_known hkind hnone hnil] at hsame
      have hlength := SymbolTable.length?_setLength (t := l.table) s s
        (alignment.padding (l.table.normalize anchor).offset)
      rw [hsame, if_pos ⟨rfl, hsize⟩, hnone] at hlength
      exact absurd hlength (by simp)
    · exact absurd (by simpa [pass, htable] using hlt) h
  · refine absurd ?_ h
    have hlt' : l.table.settleSpaces.missing < l.table.missing := hlt
    rcases sweep_progress { l with table := l.table.settleSpaces } l.entries with
      ⟨hsweep, -⟩ | hsweep
    · simp only [pass, hsweep]
      omega
    · simp only [pass]
      simp only at hsweep
      omega

/-- Settling leaves no step to do. -/
theorem settle_quiescent (l : Layout Work) : l.settle.Quiescent := by
  induction l using settle.induct with
  | case1 l hlt ih => rwa [settle, if_pos hlt]
  | case2 l hlt =>
      rw [settle, if_neg hlt]
      obtain ⟨heq, hquiescent⟩ := pass_eq_self hlt
      rwa [heq]

end Layout

end MacroAssembler
