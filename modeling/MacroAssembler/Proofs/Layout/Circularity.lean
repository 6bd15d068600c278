import MacroAssembler.Proofs.Layout.Tracking

/-!
# Circularity

Which registrations are called circular, and which of them are. An entry that is turned away waits
for itself. An entry that is given up at the end need not: the symbol it waits for may have no
value because its own expression has failed. `reachesCircle_iff` says that nothing else can happen:
a registration that is called circular reaches a circle exactly if not everything that it mentions
is known or stuck behind failed expressions.
-/

namespace MacroAssembler

open Relation (TransGen ReflTransGen)

variable {Work : Type}

/-- Something leads to a thing that waits for itself. -/
def ReachesCircle (rs : List (Entry Work)) (t : SymbolTable) (u : Unknown) : Prop :=
  ∃ v, ReflTransGen (Waits rs t) u v ∧ TransGen (Waits rs t) v v

/-- Something without a value, although all that it waits for, and that these wait for in turn, is
known in the end or has failed. -/
inductive Stuck (rs : List (Entry Work)) (t : SymbolTable) : Unknown → Prop where
  /-- The expression of a symbol has failed. -/
  | failed {r n} : r ∈ rs → r.target = some (.symbol n) → r.Failed t → Stuck rs t (.symbol n)
  | waiting {u v} : Waits rs t u v → ¬ t.Known v →
      (∀ w, Waits rs t u w → ¬ t.Known w → Stuck rs t w) → Stuck rs t u

namespace Layout

variable {l : Layout Work} {aside : List (Entry Work)}

/-! ## The search for undefined names -/

/-- A space that an entry waits for exists. -/
theorem lt_size_of_mem_unknowns (hsound : l.Sound aside) {e : Entry Work} {s : SpaceId}
    (he : e ∈ l.entries) (hshaped : e.Shaped l.table) (hs : .space s ∈ e.unknowns l.table) :
    s.index < l.table.spaces.size := by
  obtain ⟨source, hsource, hlack⟩ := List.mem_flatMap.1 hs
  -- an expression lacks the spaces of addresses of symbols only
  have hexpr {x : OrdinaryExpr NameId} (hx : source = .expr x) : s.index < l.table.spaces.size := by
    subst hx
    obtain ⟨u, hu, hs⟩ := SymbolTable.mem_unknownsOfSource.1 hlack
    obtain ⟨n, -, rfl⟩ := List.mem_map.1 hu
    simp only [SymbolTable.unknownsOf, SymbolTable.unknownsOfSymbol] at hs
    split at hs
    · simp at hs
    · rename_i b hval
      obtain ⟨s', hs', -, heq⟩ := SymbolTable.mem_unknownsOfAddress.1 hs
      cases heq
      exact hsound.symbols n b hval s hs'
    · simp at hs
  have hfits := hsound.fits e (List.mem_append_left _ he)
  cases hfits with
  | work =>
      cases hshaped with
      | work hsources =>
          obtain ⟨x, hx⟩ := hsources source hsource
          exact hexpr hx
  | value => exact hexpr (List.mem_singleton.1 hsource)
  | length => exact hexpr (List.mem_singleton.1 hsource)
  | place ha =>
      rw [List.mem_singleton.1 hsource] at hlack
      obtain ⟨s', hs', -, heq⟩ := SymbolTable.mem_unknownsOfAddress.1 hlack
      cases heq
      exact ha s hs'

end Layout

namespace Layout.History.Tracked

variable {h : History Work}

/-- What something waits for exists. -/
theorem present_of_waitsOn (ht : h.Tracked) {u v : Unknown} (hwaits : h.layout.WaitsOn u v) :
    h.layout.Present v := by
  cases hwaits with
  | @entry e _ _ he _ hv =>
      cases v with
      | symbol => trivial
      | space s =>
          have hshaped := ht.shaped e (ht.queued e (List.mem_append_left _ he))
          exact lt_size_of_mem_unknowns ht.sound he hshaped hv
  | @anchor s anchor alignment s' hkind hs' =>
      have hlt := ht.sound.anchors s anchor alignment hkind s'
        (SymbolTable.mem_spaces_normalize.1 hs').1
      have hsize := SymbolTable.kind?_isSome_iff.1
        (by simp [hkind] : (h.layout.table.kind? s).isSome)
      exact Nat.lt_trans hlt hsize

/-! ## Stuck entries -/

/-- What `u` waits for is stuck, if it is not known and the search has found all that it lacks. -/
def StuckBehind (h : History Work) (us : List Unknown) (u : Unknown) : Prop :=
  ∀ w, Waits h.registered h.layout.table u w → ¬ h.layout.table.Known w →
    h.layout.table.unknownsOf w ⊆ h.layout.reachable us → Stuck h.registered h.layout.table w

variable {us : List Unknown}

/-- What a queued entry determines is stuck if what it waits for is. -/
theorem stuck_of_queued (ht : h.Tracked) (hquiescent : h.layout.Quiescent) {u : Unknown}
    (hbehind : StuckBehind h us u) (hself : u ∈ h.layout.reachable us) {r : Entry Work}
    (hr : r ∈ h.registered) (htr : r.target = some u) (hmem : r ∈ h.layout.entries) :
    Stuck h.registered h.layout.table u := by
  have hunsettled : ¬ ∀ v ∈ r.mentions, h.layout.table.Known v := by
    rw [← Entry.isSettled_iff_known, hquiescent.entries r hmem]
    simp
  push Not at hunsettled
  obtain ⟨v, hv, hvu⟩ := hunsettled
  refine .waiting (.source hr htr hv) hvu fun w hw hwu => hbehind w hw hwu fun x hx => ?_
  cases hw with
  | source hr' htr' hw =>
      obtain rfl := eq_of_target ht.unique hr' hr htr' htr
      obtain ⟨source, hsource, hw⟩ := List.mem_flatMap.1 hw
      have hwaits := WaitsOn.entry hmem htr
        (List.mem_flatMap.2 ⟨source, hsource, SymbolTable.mem_unknownsOfSource.2 ⟨w, hw, hx⟩⟩)
      exact reachable_closed hself hwaits (ht.present_of_waitsOn hwaits)
  | anchor hk =>
      have hlength := (ht.sound.fits r (List.mem_append_left _ hmem)).kind htr
      simp [hk] at hlength

/-- A label whose place lacks spaces is stuck if these are. -/
theorem stuck_of_label (ht : h.Tracked) {n : NameId} {b : Address}
    (hbehind : StuckBehind h us (.symbol n))
    (hval : h.layout.table.valueOf n = .relocatable b)
    (hspaces : (h.layout.table.normalize b).spaces ≠ [])
    (hreach : h.layout.table.unknownsOf (.symbol n) ⊆ h.layout.reachable us) :
    Stuck h.registered h.layout.table (.symbol n) := by
  obtain ⟨r, hr, a, htr, hsources, hnorm, -⟩ := (ht.relocatable n b hval).resolve_left
    fun hb => hspaces (by rw [SymbolTable.normalize_of_spaces_nil hb, hb])
  have hmentions : r.mentions = a.spaces.map .space := by
    simp [Entry.mentions, hsources, Source.mentions]
  obtain ⟨s, hs⟩ := List.exists_mem_of_ne_nil _ (hnorm ▸ hspaces)
  obtain ⟨hs, hnone⟩ := SymbolTable.mem_spaces_normalize.1 hs
  refine .waiting (v := .space s) (.source hr htr ?_) ?_ fun w hw hwu =>
    hbehind w hw hwu fun x hx => ?_
  · rw [hmentions]
    exact List.mem_map_of_mem hs
  · simp [SymbolTable.known_space_iff, hnone]
  · cases hw with
    | source hr' htr' hw =>
        obtain rfl := eq_of_target ht.unique hr' hr htr' htr
        rw [hmentions] at hw
        obtain ⟨s', hs', rfl⟩ := List.mem_map.1 hw
        have hnone' : h.layout.table.length? s' = none := by
          simpa [SymbolTable.known_space_iff] using hwu
        obtain rfl : x = .space s' := by simpa [SymbolTable.unknownsOf, hnone'] using hx
        refine hreach ?_
        simp only [SymbolTable.unknownsOf, SymbolTable.unknownsOfSymbol, hval,
          SymbolTable.unknownsOfAddress, hnorm]
        exact List.mem_map_of_mem (SymbolTable.mem_spaces_normalize.2 ⟨hs', hnone'⟩)

/-- A padding without a length is stuck if the spaces in front of it are. -/
theorem stuck_of_padding (ht : h.Tracked) (hquiescent : h.layout.Quiescent) {s : SpaceId}
    {anchor : Address} {alignment : Alignment} (hbehind : StuckBehind h us (.space s))
    (hkind : h.layout.table.kind? s = some (.alignment anchor alignment))
    (hnone : h.layout.table.length? s = none) (hself : .space s ∈ h.layout.reachable us) :
    Stuck h.registered h.layout.table (.space s) := by
  obtain ⟨s', hs'⟩ := List.exists_mem_of_ne_nil _
    (hquiescent.paddings s anchor alignment hkind hnone)
  obtain ⟨hs', hnone'⟩ := SymbolTable.mem_spaces_normalize.1 hs'
  refine .waiting (.anchor hkind hs') (by simp [SymbolTable.known_space_iff, hnone'])
    fun w hw hwu => hbehind w hw hwu fun x hx => ?_
  cases hw with
  | source hr htr => simp [(ht.shaped _ hr).kind htr] at hkind
  | @anchor _ _ _ s'' hkind' hs'' =>
      rw [hkind] at hkind'
      cases hkind'
      have hnone'' : h.layout.table.length? s'' = none := by
        simpa [SymbolTable.known_space_iff] using hwu
      obtain rfl : x = .space s'' := by simpa [SymbolTable.unknownsOf, hnone''] using hx
      have hwaits := WaitsOn.anchor hkind (SymbolTable.mem_spaces_normalize.2 ⟨hs'', hnone''⟩)
      exact reachable_closed hself hwaits (ht.present_of_waitsOn hwaits)

/-- A symbol without a value is stuck if it does not wait for itself and what it waits for is
stuck. -/
theorem stuck_of_undefined (ht : h.Tracked) (hquiescent : h.layout.Quiescent)
    (haside : h.aside = []) {n : NameId} (hbehind : StuckBehind h us (.symbol n))
    (hcircle : ¬ TransGen (Waits h.registered h.layout.table) (.symbol n) (.symbol n))
    (hdefined : h.layout.table.defines n = true) (hval : h.layout.table.valueOf n = .undefined)
    (hself : .symbol n ∈ h.layout.reachable us) :
    Stuck h.registered h.layout.table (.symbol n) := by
  obtain ⟨r, hr, htr⟩ := ht.undefined n hdefined hval
  rcases ht.standing r hr _ htr with hmem | hanswered | ⟨hfailed | hbad, -⟩
  · exact ht.stuck_of_queued hquiescent hbehind hself hr htr (by simpa [haside] using hmem)
  · cases hanswered with
    | symbol hnil hv hbecomes =>
        cases htr
        rw [hval] at hbecomes
        cases hbecomes
        exact absurd hv (SymbolTable.evaluateSource_ne_undefined _)
    | space => simp at htr
  · exact .failed hr htr hfailed
  · exact absurd hbad hcircle

/-- A space without a length is stuck if it does not wait for itself and what it waits for is
stuck. -/
theorem stuck_of_length (ht : h.Tracked) (hquiescent : h.layout.Quiescent) (haside : h.aside = [])
    {s : SpaceId} (hbehind : StuckBehind h us (.space s))
    (hcircle : ¬ TransGen (Waits h.registered h.layout.table) (.space s) (.space s))
    (hkind : h.layout.table.kind? s = some .length) (hnone : h.layout.table.length? s = none)
    (hself : .space s ∈ h.layout.reachable us) : Stuck h.registered h.layout.table (.space s) := by
  obtain ⟨r, hr, htr⟩ := ht.lengths s hkind
  rcases ht.standing r hr _ htr with hmem | hanswered | ⟨hfailed | hbad, -⟩
  · exact ht.stuck_of_queued hquiescent hbehind hself hr htr (by simpa [haside] using hmem)
  · cases hanswered with
    | symbol => simp at htr
    | space hnil hv hle hlength =>
        cases htr
        simp [hnone] at hlength
  · cases hfailed with
    | symbol => simp at htr
    | space hnil hlength =>
        cases htr
        simp [hnone] at hlength
  · exact absurd hbad hcircle

/-- If no walk from something without a value goes on for ever, and no undefined name is found
behind it, then it is stuck. -/
theorem stuck_of_acc (ht : h.Tracked) (hquiescent : h.layout.Quiescent) (haside : h.aside = [])
    (us : List Unknown)
    (hdefined : ∀ n, .symbol n ∈ h.layout.reachable us → h.layout.table.defines n = true)
    (hbounded : ∀ s, .space s ∈ h.layout.reachable us → s.index < h.layout.table.spaces.size)
    {u : Unknown} (hacc : Acc (flip (Waits h.registered h.layout.table)) u)
    (hunknown : ¬ h.layout.table.Known u)
    (hreach : h.layout.table.unknownsOf u ⊆ h.layout.reachable us) :
    Stuck h.registered h.layout.table u := by
  induction hacc with
  | intro u hacc ih =>
      have hbehind : StuckBehind h us u := ih
      have hcircle : ¬ TransGen (Waits h.registered h.layout.table) u u :=
        not_cycle_of_acc ⟨u, hacc⟩ .refl
      cases u with
      | symbol n =>
          cases hval : h.layout.table.valueOf n with
          | absolute i =>
              exact absurd (SymbolTable.known_symbol_iff.2 (by simp [hval])) hunknown
          | undefined =>
              have hself : Unknown.symbol n ∈ h.layout.reachable us :=
                hreach (by simp [SymbolTable.unknownsOf, SymbolTable.unknownsOfSymbol, hval])
              exact ht.stuck_of_undefined hquiescent haside hbehind hcircle (hdefined n hself) hval
                hself
          | relocatable b =>
              refine ht.stuck_of_label hbehind hval ?_ hreach
              simpa [SymbolTable.known_symbol_iff, hval] using hunknown
      | space s =>
          have hnone : h.layout.table.length? s = none := by
            simpa [SymbolTable.known_space_iff] using hunknown
          have hself : Unknown.space s ∈ h.layout.reachable us :=
            hreach (by simp [SymbolTable.unknownsOf, hnone])
          obtain ⟨k, hkind⟩ := Option.isSome_iff_exists.1
            (SymbolTable.kind?_isSome_iff.2 (hbounded s hself))
          cases k with
          | length => exact ht.stuck_of_length hquiescent haside hbehind hcircle hkind hnone hself
          | alignment anchor alignment =>
              exact ht.stuck_of_padding hquiescent hbehind hkind hnone hself

/-- If nothing that an entry mentions leads to a circle, and the entry waits for no undefined name,
then all it mentions is known or stuck. -/
theorem known_or_stuck (ht : h.Tracked) (hquiescent : h.layout.Quiescent) (haside : h.aside = [])
    {e : Entry Work} (he : e ∈ h.layout.entries) (hnames : h.layout.undefinedNames e = [])
    (hcircle : ¬ ∃ u ∈ e.mentions, ReachesCircle h.registered h.layout.table u) :
    ∀ u ∈ e.mentions, h.layout.table.Known u ∨ Stuck h.registered h.layout.table u := by
  intro u hu
  by_cases hknown : h.layout.table.Known u
  · exact .inl hknown
  refine .inr (ht.stuck_of_acc hquiescent haside (e.unknowns h.layout.table) ?_ ?_ ?_ hknown
    fun v hv => ?_)
  · intro n hn
    have hmem := List.filter_eq_nil_iff.1 hnames n (mem_names.2 hn)
    simpa using hmem
  · intro s hs
    have hmem := List.mem_eraseDups.1 (mem_reachFrom hs).1
    rcases List.mem_append.1 hmem with hmem | hmem
    · exact lt_size_of_mem_unknowns ht.sound he
        (ht.shaped e (ht.queued e (List.mem_append_left _ he))) hmem
    · rcases List.mem_append.1 hmem with hmem | hmem
      · obtain ⟨n, -, heq⟩ := List.mem_map.1 hmem
        simp at heq
      · obtain ⟨i, hi, heq⟩ := List.mem_map.1 hmem
        cases heq
        exact List.mem_range.1 hi
  · refine (acc_or_cycle ?_ ?_ u).resolve_right fun hreach => hcircle ⟨u, hu, hreach⟩
    · exact h.registered.flatMap Entry.mentions ++
        (List.range h.layout.table.spaces.size).map fun i => .space ⟨i⟩
    · intro a b hab
      cases hab with
      | source hr _ hb => exact List.mem_append_left _ (List.mem_flatMap.2 ⟨_, hr, hb⟩)
      | @anchor s anchor alignment s' hkind hs' =>
          have hlt := ht.sound.anchors s anchor alignment hkind s' hs'
          have hsize : s.index < h.layout.table.spaces.size :=
            SymbolTable.kind?_isSome_iff.1 (by simp [hkind])
          refine List.mem_append_right _ (List.mem_map.2 ⟨s'.index, ?_, rfl⟩)
          exact List.mem_range.2 (Nat.lt_trans hlt hsize)
  · refine subset_reachable _ _ ?_
    obtain ⟨source, hsource, hu⟩ := List.mem_flatMap.1 hu
    exact List.mem_flatMap.2 ⟨source, hsource, SymbolTable.mem_unknownsOfSource.2 ⟨u, hu, hv⟩⟩

/-- From what is known or stuck every walk ends. -/
theorem acc_of_stuck (ht : h.Tracked) {u : Unknown}
    (hu : h.layout.table.Known u ∨ Stuck h.registered h.layout.table u) :
    Acc (flip (Waits h.registered h.layout.table)) u := by
  rcases hu with hknown | hstuck
  · exact (ht.grounded u hknown).acc
  · induction hstuck with
    | failed hr htr hfailed =>
        refine ⟨_, fun v hv => (ht.grounded v ?_).acc⟩
        cases hv with
        | source hr' htr' hv =>
            obtain rfl := eq_of_target ht.unique hr' hr htr' htr
            cases hfailed with
            | symbol hnil =>
                refine SymbolTable.unknownsOfSource_eq_nil_iff.1 hnil v ?_
                simpa [Entry.mentions] using hv
            | space => simp at htr
    | waiting _ _ _ ih =>
        refine ⟨_, fun w hw => ?_⟩
        by_cases hknown : h.layout.table.Known w
        · exact (ht.grounded w hknown).acc
        · exact ih w hw hknown

/-- What leads to a circle is neither known nor stuck. -/
theorem not_stuck_of_reachesCircle (ht : h.Tracked) {u : Unknown}
    (hu : ReachesCircle h.registered h.layout.table u) :
    ¬ (h.layout.table.Known u ∨ Stuck h.registered h.layout.table u) := by
  obtain ⟨v, hpath, hcircle⟩ := hu
  exact fun hstuck => not_cycle_of_acc (ht.acc_of_stuck hstuck) hpath hcircle

/-! ## Blame -/

/-- A target that waits for itself is reached from something that its registration mentions. -/
theorem reachesCircle_of_circle (ht : h.Tracked) {r : Entry Work} {u : Unknown}
    (hr : r ∈ h.registered) (htr : r.target = some u)
    (hcircle : TransGen (Waits h.registered h.layout.table) u u) :
    ∃ v ∈ r.mentions, ReachesCircle h.registered h.layout.table v := by
  obtain ⟨v, hv, hback⟩ := TransGen.head'_iff.1 hcircle
  refine ⟨v, ?_, u, hback, hcircle⟩
  cases hv with
  | source hr' htr' hv => rwa [eq_of_target ht.unique hr' hr htr' htr] at hv
  | anchor hkind => simp [(ht.shaped r hr).kind htr] at hkind

end Layout.History.Tracked

/-! ## Errors and blame -/

/-- The error tells of a circle. -/
def LayoutError.isCircular : LayoutError → Bool
  | circularDependency _ => true
  | _ => false

namespace Layout

/-- The errors that tell of circles. -/
def circular (errors : List (Range × LayoutError)) : List (Range × LayoutError) :=
  errors.filter fun p => p.2.isCircular

/-- The error that blames an entry. -/
def blame (e : Entry Work) : Range × LayoutError := (e.range, .circularDependency e.targetName?)

theorem circular_append (errors more : List (Range × LayoutError)) :
    circular (errors ++ more) = circular errors ++ circular more :=
  List.filter_append ..

/-- Settling blames no entry. -/
theorem circular_settle (l : Layout Work) : circular l.settle.errors = circular l.errors := by
  refine settle_induction (P := fun l' => circular l'.errors = circular l.errors) ?_ rfl
  intro l' l'' hstep hold
  rw [← hold]
  cases hstep with
  | pad => rfl
  | complete before e after =>
      obtain ⟨errors, herrors, hcompletes⟩ := l'.complete_completes e
      simp only [herrors, circular_append]
      generalize (l'.complete e).table = t' at hcompletes
      cases hcompletes <;> simp [circular, LayoutError.isCircular]

/-- Letting an entry wait blames it if it is turned away. -/
theorem circular_await (l : Layout Work) (e : Entry Work) :
    circular (l.await e).errors =
      circular l.errors ++ (if l.Rejects e then [e] else []).map blame := by
  by_cases hrejects : l.Rejects e
  · obtain ⟨event, hawait⟩ := await_of_rejects hrejects
    rw [hawait, if_pos hrejects]
    exact circular_append _ _
  · rw [await_of_accepts hrejects, if_neg hrejects, circular_settle]
    simp [enqueue]

/-- An entry that waits for no undefined name is called circular. -/
theorem complaints_of_nil {l : Layout Work} {e : Entry Work} (hnames : l.undefinedNames e = []) :
    l.complaints e = [.circularDependency e.targetName?] := by
  unfold complaints
  simp only [hnames, Entry.targetName?]
  split <;> simp_all

/-- An entry that waits for undefined names is reported with each of them. -/
theorem complaints_of_ne_nil {l : Layout Work} {e : Entry Work}
    (hnames : l.undefinedNames e ≠ []) :
    l.complaints e = (l.undefinedNames e).map .undefinedSymbol := by
  unfold complaints
  split
  · exact absurd ‹_› hnames
  · rfl

/-- The end of the source blames the entries that wait for no undefined name. -/
theorem circular_complaints (l : Layout Work) (es : List (Entry Work)) :
    circular (es.flatMap fun e => (l.complaints e).map (e.range, ·)) =
      (es.filter fun e => (l.undefinedNames e).isEmpty).map blame := by
  induction es with
  | nil => rfl
  | cons e es ih =>
      rw [List.flatMap_cons, circular_append, ih, List.filter_cons]
      by_cases hnames : l.undefinedNames e = []
      · simp [complaints_of_nil hnames, hnames, circular, LayoutError.isCircular, blame]
      · simp [complaints_of_ne_nil hnames, hnames, circular, LayoutError.isCircular]

end Layout

namespace Layout.History

variable {h : History Work}

/-- The errors of a run that tell of circles are those that blame its registrations. -/
theorem circular_errors_make (h : History Work) (m : Move Work) :
    circular (h.make m).errors = circular h.errors ++ (blames h.layout m).map blame := by
  have hdefine (sym : OrdinarySymbol) :
      circular (h.layout.perform (.define sym)).errors = circular h.layout.errors := by
    cases hdef : h.layout.table.defines sym.name with
    | true => rw [perform_define_of_defines hdef]
    | false => exact (perform_define hdef) ▸ circular_settle (h.layout.addSymbol sym)
  have hplain (herrors : circular (h.layout.make m).errors = circular h.layout.errors)
      (hfetched : fetches h.layout m = []) (hblames : blames h.layout m = []) :
      circular (h.make m).errors = circular h.errors ++ (blames h.layout m).map blame := by
    simp [errors, History.make, circular_append, herrors, hfetched, hblames]
  cases m with
  | define sym => exact hplain (hdefine sym) rfl rfl
  | align alignment =>
      exact hplain (congrArg circular (h.layout.align_frame alignment).2.2) rfl rfl
  | reserve size alignment =>
      exact hplain (congrArg circular (h.layout.align_frame alignment).2.2) rfl rfl
  | takeReady | takeEvents => exact hplain rfl rfl rfl
  | takeDiagnostics names =>
      simp [errors, History.make, fetches, blames, Move.registration?, Layout.make,
        Move.requests, perform, takeDiagnostics]
  | declare sym source range =>
      simp only [errors, History.make, fetches, blames, Move.registration?, List.append_nil,
        circular_append, List.append_assoc]
      rw [make_of_registration rfl, circular_await]
      simp only [run_cons, run_nil]
      rw [← hdefine sym]
      rfl
  | postpone sources work range =>
      simp only [errors, History.make, fetches, blames, Move.registration?, List.append_nil,
        circular_append, List.append_assoc]
      rw [make_of_registration rfl, circular_await]
  | reserveLater length alignment range =>
      simp only [errors, History.make, fetches, blames, Move.registration?, List.append_nil,
        circular_append, List.append_assoc]
      rw [make_of_registration rfl, circular_await]
      have herrors : (h.layout.openSpace alignment).2.errors = h.layout.errors :=
        (h.layout.align_frame alignment).2.2
      show circular h.fetched ++ (circular (h.layout.openSpace alignment).2.errors ++ _) = _
      rw [herrors]
      rfl
  | finish =>
      simp only [errors, History.make, fetches, blames, List.append_nil, circular_append,
        Layout.make, Move.requests, run_cons, run_nil, perform, Layout.finish,
        List.append_assoc, circular_complaints, circular_settle]

/-- The errors of a run that tell of circles are those that blame its registrations, in order. -/
theorem circular_errors_makeAll (h : History Work) (ms : List (Move Work))
    (hblamed : circular h.errors = h.blamed.map blame) :
    circular (h.makeAll ms).errors = (h.makeAll ms).blamed.map blame := by
  induction ms generalizing h with
  | nil => exact hblamed
  | cons m ms ih =>
      refine ih (h.make m) ?_
      rw [circular_errors_make, hblamed, ← List.map_append]
      rfl

/-- A registration is blamed if it is turned away. -/
theorem blames_of_registration {l opened : Layout Work} {m : Move Work} {e : Entry Work}
    (hreg : m.registration? l = some (opened, e)) :
    blames l m = if opened.Rejects e then [e] else [] := by
  cases m <;> simp_all [blames, Move.registration?]

/-- A move blames registrations only. -/
theorem blamed_make (ht : h.Tracked) {m : Move Work} (hblamed : h.blamed ⊆ h.registered) :
    (h.make m).blamed ⊆ (h.make m).registered := by
  intro e he
  rcases List.mem_append.1 he with he | he
  · exact List.mem_append_left _ (hblamed he)
  · cases hreg : m.registration? h.layout with
    | some found =>
        obtain ⟨opened, e'⟩ := found
        rw [blames_of_registration hreg] at he
        split at he
        · simp [History.make, hreg, List.mem_singleton.1 he]
        · simp at he
    | none =>
        cases m with
        | finish =>
            have hmem := (List.mem_filter.1 he).1
            exact List.mem_append_left _ (ht.settle.queued e (List.mem_append_left _ hmem))
        | _ => simp_all [blames, Move.registration?]

/-- A legal run blames registrations only. -/
theorem blamed_makeAll (ht : h.Tracked) {ms : List (Move Work)} (hlegal : h.layout.Legal ms)
    (hblamed : h.blamed ⊆ h.registered) : (h.makeAll ms).blamed ⊆ (h.makeAll ms).registered := by
  induction ms generalizing h with
  | nil => exact hblamed
  | cons m ms ih => exact ih (ht.make hlegal.1) hlegal.2 (blamed_make ht hblamed)

/-- Every registration that was turned away so far has a target that waits for itself. -/
def Convicts (h : History Work) : Prop :=
  ∀ e ∈ h.blamed, e ∈ h.registered ∧
    ∃ u, e.target = some u ∧ TransGen (Waits h.registered h.layout.table) u u

/-- No move but the end of the source blames a registration that does not wait for itself. -/
theorem Convicts.make (hconvicts : h.Convicts) (ht : h.Tracked) {m : Move Work}
    (hlegal : m.Legal h.layout) (hfinish : m ≠ .finish) : (h.make m).Convicts := by
  intro e he
  have hsubset : h.registered ⊆ (h.make m).registered := List.subset_append_left _ _
  rcases List.mem_append.1 he with he | he
  · obtain ⟨hr, u, htarget, hcircle⟩ := hconvicts e he
    exact ⟨hsubset hr, u, htarget,
      transGen_waits_mono hcircle hsubset (ht.extends_make hlegal)⟩
  · cases hreg : m.registration? h.layout with
    | none => cases m <;> simp_all [blames, Move.registration?]
    | some found =>
        obtain ⟨opened, e'⟩ := found
        rw [blames_of_registration hreg] at he
        split at he
        · rename_i hrejects
          obtain rfl := List.mem_singleton.1 he
          obtain ⟨u, htarget, -⟩ := id hrejects
          have haside := ht.setAside hlegal hreg
          have hmem : e ∈ h.registered ++ [e] := by simp
          have hcircle := haside.circle_of_rejects hmem htarget hrejects
          have hregistered : (h.make m).registered = h.registered ++ [e] := by
            simp [History.make, hreg]
          refine ⟨hregistered ▸ hmem, u, htarget, ?_⟩
          rw [hregistered]
          refine transGen_waits_mono hcircle (List.Subset.refl _) ?_
          show opened.table.Extends (h.layout.make m).table
          rw [make_of_registration hreg]
          exact haside.extends_await rfl
        · simp at he

/-- A run that does not end blames only registrations that wait for themselves. -/
theorem Convicts.makeAll (hconvicts : h.Convicts) (ht : h.Tracked) {ms : List (Move Work)}
    (hlegal : h.layout.Legal ms) (hfinish : Move.finish ∉ ms) : (h.makeAll ms).Convicts := by
  induction ms generalizing h with
  | nil => exact hconvicts
  | cons m ms ih =>
      simp only [List.mem_cons, not_or] at hfinish
      exact ih (hconvicts.make ht hlegal.1 (Ne.symm hfinish.1)) (ht.make hlegal.1) hlegal.2
        hfinish.2

/-- No entry is given up before the end of the source. -/
theorem aside_makeAll {ms : List (Move Work)} (hfinish : Move.finish ∉ ms) :
    (h.makeAll ms).aside = h.aside := by
  induction ms generalizing h with
  | nil => rfl
  | cons m ms ih =>
      simp only [List.mem_cons, not_or] at hfinish
      rw [makeAll_cons, ih hfinish.2]
      cases m <;> simp_all [History.make, abandons]

end Layout.History

namespace Layout

/-- A registration that a run calls circular reaches a circle exactly if not everything that it
mentions is known or stuck behind expressions that have failed. -/
theorem reachesCircle_iff {ms : List (Move Work)} (hlegal : Legal ({} : Layout Work) ms)
    (hopen : Move.finish ∉ ms) {e : Entry Work}
    (he : e ∈ (History.makeAll {} (ms ++ [.finish])).blamed) :
    let h : History Work := History.makeAll {} (ms ++ [.finish])
    (∃ u ∈ e.mentions, ReachesCircle h.registered h.layout.table u) ↔
      ¬ ∀ u ∈ e.mentions, h.layout.table.Known u ∨ Stuck h.registered h.layout.table u := by
  intro h
  have hopened := tracked_makeAll hlegal
  have ht : h.Tracked := by
    refine tracked_makeAll (legal_append.2 ⟨hlegal, ?_⟩)
    simp [Legal, Move.Legal]
  constructor
  · rintro ⟨u, hu, hreach⟩ hall
    exact ht.not_stuck_of_reachesCircle hreach (hall u hu)
  intro hnot
  have hfinish : h = (History.makeAll {} ms).make .finish := by
    simp [h, History.makeAll_append]
  rw [show (History.makeAll {} (ms ++ [.finish])).blamed = h.blamed from rfl, hfinish] at he
  rcases List.mem_append.1 he with he | he
  · -- turned away during the run: its target waits for itself, and still does in the end
    have hconvicts : (History.makeAll ({} : History Work) ms).Convicts :=
      History.Convicts.makeAll (fun e he => by simp at he) tracked_empty hlegal hopen
    obtain ⟨hr, u, htarget, hcircle⟩ := hconvicts e he
    have hregistered : h.registered = (History.makeAll {} ms).registered := by
      simp [hfinish, History.make, Move.registration?]
    refine ht.reachesCircle_of_circle (hregistered ▸ hr) htarget ?_
    rw [hregistered]
    refine transGen_waits_mono hcircle (List.Subset.refl _) ?_
    rw [hfinish]
    exact hopened.extends_make trivial
  · -- given up at the end, where nothing is left to settle
    obtain ⟨hmem, hnames⟩ := List.mem_filter.1 he
    have haside : (History.makeAll ({} : History Work) ms).aside = [] :=
      History.aside_makeAll hopen
    by_contra hcircle
    refine hnot ?_
    have hregistered : h.registered = (History.makeAll {} ms).registered := by
      simp [hfinish, History.make, Move.registration?]
    have htable : h.layout.table = (History.makeAll {} ms).layout.settle.table := by
      rw [hfinish]
      rfl
    rw [hregistered, htable] at hcircle ⊢
    exact hopened.settle.known_or_stuck (settle_quiescent _) haside hmem
      (List.isEmpty_iff.1 hnames) hcircle

/-- The same at any later time, when no more than errors, events and work has been fetched. -/
theorem reachesCircle_iff_of_fetches {ms ns : List (Move Work)}
    (hlegal : Legal ({} : Layout Work) ms) (hopen : Move.finish ∉ ms) (hns : ∀ m ∈ ns, m.Fetches)
    {e : Entry Work} (he : e ∈ (History.makeAll {} (ms ++ .finish :: ns)).blamed) :
    let h : History Work := History.makeAll {} (ms ++ .finish :: ns)
    (∃ u ∈ e.mentions, ReachesCircle h.registered h.layout.table u) ↔
      ¬ ∀ u ∈ e.mentions, h.layout.table.Known u ∨ Stuck h.registered h.layout.table u := by
  intro h
  have hsettled := (History.makeAll {} (ms ++ [.finish])).settled_makeAll hns
  rw [← History.makeAll_append, List.append_assoc] at hsettled
  have hiff := reachesCircle_iff hlegal hopen (e := e) (hsettled.blamed ▸ he)
  dsimp only at hiff
  rwa [← hsettled.registered, ← hsettled.table] at hiff

end Layout

end MacroAssembler
