import MacroAssembler.Proofs.Layout.Answers
import MacroAssembler.Proofs.Layout.Fixpoint

/-!
# Storage of unknown length

Storage whose length is found later is laid out like storage whose length was known all along
(`run_eager`). While a run goes on, each of its spaces already has a length that it will get: the
value of a symbol, or the padding in front of an aligned place. A table with all these lengths
foresees the layout (`Foresees`), and reads every address as the place that a run with known
lengths would answer with.
-/

namespace MacroAssembler

/-! ## Aligned places -/

namespace Alignment

/-- The next aligned number, from `n` on. -/
def next (al : Alignment) (n : ℤ) : ℤ := n + (al.byte.toNat - n) % (max al.boundary.toNat 1 : ℕ)

/-- The next aligned number does not lie before `n`. -/
theorem le_next (al : Alignment) (n : ℤ) : n ≤ al.next n :=
  Int.le_add_of_nonneg_right (Int.emod_nonneg _ (by omega))

variable {al : Alignment}

/-- The next aligned number is the least. -/
theorem isLeast_next (hboundary : 0 < al.boundary.toNat) (n : ℤ) :
    IsLeast {p : ℤ | n ≤ p ∧ p ≡ al.byte.toNat [ZMOD al.boundary.toNat]} (al.next n) := by
  have hmax : max al.boundary.toNat 1 = al.boundary.toNat := by omega
  refine ⟨⟨al.le_next n, ?_⟩, fun p ⟨hle, hcongr⟩ => ?_⟩
  · have hpadding : (al.byte.toNat - n) % al.boundary.toNat ≡ al.byte.toNat - n
        [ZMOD al.boundary.toNat] := Int.mod_modEq _ _
    rw [next, hmax]
    simpa using hpadding.add_left n
  · -- the distance to any aligned number leaves the padding as its remainder
    have hsame : (p - n) % al.boundary.toNat = (al.byte.toNat - n) % al.boundary.toNat :=
      hcongr.sub_right n
    have hdistance := Int.emod_add_mul_ediv (p - n) al.boundary.toNat
    have hquotient : 0 ≤ (p - n) / al.boundary.toNat := Int.ediv_nonneg (by omega) (by omega)
    have hrest : 0 ≤ (al.boundary.toNat : ℤ) * ((p - n) / al.boundary.toNat) :=
      Int.mul_nonneg (by omega) hquotient
    rw [next, hmax, ← hsame]
    omega

/-- A word in the lower half of its range is the same number with a sign. -/
theorem toInt_toInt32 {n : UInt32} (h : n.toNat < 2 ^ 31) : n.toInt32.toInt = n.toNat := by
  show n.toBitVec.toInt = n.toBitVec.toNat
  refine BitVec.toInt_eq_toNat_of_lt ?_
  show 2 * n.toNat < 2 ^ 32
  omega

/-- The padding leads to the next aligned number. -/
theorem add_toInt_padding {c : Int32} (hbyte : al.byte.toNat < 2 ^ 31)
    (hboundary : al.boundary.toNat < 2 ^ 31) (hc : 0 ≤ c.toInt) :
    c.toInt + (al.padding c).toInt = al.next c.toInt := by
  have hmax : (max al.boundary 1).toNat = max al.boundary.toNat 1 := UInt32.toNat_max ..
  have hlt : c.toInt < 2 ^ 31 := c.toInt_lt
  have hdistance : (al.byte.toInt32 - c).toInt = al.byte.toNat - c.toInt := by
    rw [Int32.toInt_sub, toInt_toInt32 hbyte, Int.bmod_def]
    split <;> omega
  have hmod : (max al.boundary 1).toInt32.toInt = (max al.boundary.toNat 1 : ℕ) := by
    rw [toInt_toInt32 (by omega), hmax]
  have hnonneg := Int.emod_nonneg (al.byte.toNat - c.toInt)
    (by omega : ((max al.boundary.toNat 1 : ℕ) : ℤ) ≠ 0)
  have hsmall := Int.emod_lt_of_pos (al.byte.toNat - c.toInt)
    (by omega : 0 < ((max al.boundary.toNat 1 : ℕ) : ℤ))
  rw [padding, hdistance, hmod, Int32.toInt_ofInt_of_le (by omega) (by omega)]
  rfl

end Alignment

namespace Layout

variable {Work : Type}

/-! ## Requests that lay out storage -/

/-- A request aligns the counter, reserves storage whose length is known or will be the value of a
symbol, or defines a symbol with the value that `len` gives it. -/
inductive Request.Lays (len : NameId → Int32) : Request Work → Prop where
  | define {symbol : OrdinarySymbol} :
      symbol.value = .absolute (len symbol.name) → Lays len (.define symbol)
  | align (alignment : Alignment) : Lays len (.align alignment)
  | reserve (size : Int32) (alignment : Alignment) : Lays len (.reserve size alignment)
  | reserveLater {name : NameId} (range : Range) (alignment : Alignment) (range' : Range) :
      0 ≤ len name → Lays len (.reserveLater (.symbol name range) alignment range')

/-- The request with the length that is otherwise found later. -/
def Request.eager (len : NameId → Int32) : Request Work → Request Work
  | reserveLater (.symbol name _) alignment _ => reserve (len name) alignment
  | r => r

/-- The alignment and the size of the storage that a request reserves. -/
def Request.area? (len : NameId → Int32) : Request Work → Option (Alignment × Int32)
  | align alignment => some (alignment, 0)
  | reserve size alignment => some (alignment, size)
  | reserveLater (.symbol name _) alignment _ => some (alignment, len name)
  | _ => none

/-- The address that a request is answered with. -/
def answer? (l : Layout Work) : Request Work → Option Address
  | .align alignment => some (l.align alignment).1
  | .reserve size alignment => some (l.reserve size alignment).1
  | .reserveLater length alignment range => some (l.reserveLater length alignment range).1
  | _ => none

/-- The addresses that the requests of a run are answered with. -/
def answers : Layout Work → List (Request Work) → List Address
  | _, [] => []
  | l, r :: rs => (l.answer? r).toList ++ answers (l.perform r) rs

/-- Where a counter of unlimited range stands after a request. -/
def Request.advance (len : NameId → Int32) (n : ℤ) (r : Request Work) : ℤ :=
  match r.area? len with
  | some (alignment, size) => alignment.next n + size.toUInt32.toNat
  | none => n

variable {l e : Layout Work} {len : NameId → Int32} {r : Request Work} {rs : List (Request Work)}

/-- The addresses in such a request are places of the layout, for there are none. -/
theorem Request.Lays.knows (hr : r.Lays len) : r.Knows l := by
  cases hr with
  | define hvalue =>
      intro a ha
      cases hvalue.symm.trans ha
  | align | reserve | reserveLater => trivial

/-- The addresses in a run of such requests are places of the layout. -/
theorem knows_of_lays (hrs : ∀ r ∈ rs, r.Lays len) : Knows l rs := by
  induction rs generalizing l with
  | nil => trivial
  | cons r rs ih => exact ⟨(hrs r (by simp)).knows, ih fun r' hr' => hrs r' (by simp [hr'])⟩

/-! ## What becomes of the requests -/

/-- An entry that is registered in such a run waits for the length of the storage that a request
reserves. -/
theorem mem_registrations (hrs : ∀ r ∈ rs, r.Lays len) {entry : Entry Work}
    (he : entry ∈ registrations l rs) :
    ∃ s name range alignment range', .reserveLater (.symbol name range) alignment range' ∈ rs ∧
      entry = lengthEntry s (.symbol name range) range' := by
  induction rs generalizing l with
  | nil => simp [registrations] at he
  | cons r rs ih =>
      rcases List.mem_append.1 he with he | he
      · have hr := hrs r List.mem_cons_self
        cases hr with
        | @reserveLater name range alignment range' =>
            exact ⟨_, name, range, alignment, range', List.mem_cons_self, List.mem_singleton.1 he⟩
        | define | align | reserve => simp [registers] at he
      · obtain ⟨s, name, range, alignment, range', hmem, heq⟩ :=
          ih (fun r' hr' => hrs r' (List.mem_cons_of_mem _ hr')) he
        exact ⟨s, name, range, alignment, range', List.mem_cons_of_mem _ hmem, heq⟩

/-- What is defined stays defined, and a definition defines its symbol. -/
theorem defines_perform (hr : r.Lays len) {n : NameId}
    (h : l.table.defines n = true ∨ ∃ symbol, r = .define symbol ∧ symbol.name = n) :
    (l.perform r).table.defines n = true := by
  cases hr with
  | @define symbol =>
      have hn : l.table.defines n = true ∨ symbol.name = n := by simpa using h
      cases hdefined : l.table.defines symbol.name with
      | true =>
          rw [perform_define_of_defines hdefined]
          exact hn.elim id fun hn => hn ▸ hdefined
      | false =>
          rw [perform_define hdefined, defines_settle]
          show (l.table.addSymbol symbol).defines n = true
          simpa [SymbolTable.defines_addSymbol] using hn
  | align alignment => exact (congrFun (l.defines_align alignment) n).trans (by simpa using h)
  | reserve size alignment =>
      exact (congrFun (l.defines_align alignment) n).trans (by simpa using h)
  | reserveLater range alignment range' =>
      rw [perform_reserveLater, defines_await]
      exact (congrFun (l.defines_align alignment) n).trans (by simpa using h)

/-- A run leaves only entries that waited before, or that come from its requests; those of such
requests wait for the value of one symbol. -/
theorem mem_entries_run (hrs : ∀ r ∈ rs, r.Lays len) {entry : Entry Work}
    (he : entry ∈ (l.run rs).entries) :
    entry ∈ l.entries ∨ ∃ s name range alignment range',
      .reserveLater (.symbol name range) alignment range' ∈ rs ∧
        entry = lengthEntry s (.symbol name range) range' :=
  (List.mem_append.1 ((entries_run_sublist l rs).subset he)).imp_right (mem_registrations hrs)

/-- A run defines the symbols of its definitions. -/
theorem defines_run (hrs : ∀ r ∈ rs, r.Lays len) {n : NameId}
    (h : l.table.defines n = true ∨ ∃ symbol, .define symbol ∈ rs ∧ symbol.name = n) :
    (l.run rs).table.defines n = true := by
  induction rs generalizing l with
  | nil => simpa using h
  | cons r rs ih =>
      have hr := hrs r List.mem_cons_self
      refine ih (fun r' hr' => hrs r' (by simp [hr'])) ?_
      rcases h with h | ⟨symbol, hmem, hn⟩
      · exact .inl (defines_perform hr (.inl h))
      · rcases List.mem_cons.1 hmem with rfl | hmem
        · exact .inl (defines_perform hr (.inr ⟨symbol, rfl, hn⟩))
        · exact .inr ⟨symbol, hmem, hn⟩

/-! ## The run with known lengths -/

/-- Aligning a place that is known leads to the next aligned place. -/
theorem align_of_spaces_nil (hnil : l.counter.spaces = []) (alignment : Alignment) :
    (l.align alignment).1 = l.counter.aligned alignment := by
  have haligns := align_aligns l alignment
  have hplace : l.place = l.counter := SymbolTable.normalize_of_spaces_nil hnil
  generalize (l.align alignment).1 = place at haligns
  generalize (l.align alignment).2 = aligned at haligns
  cases haligns with
  | stay hle => rw [Address.aligned, if_pos hle]
  | known hlt => rw [Address.aligned, if_neg (by simpa using hlt), hplace]
  | padded _ hspaces => exact absurd (hplace ▸ hnil) hspaces

/-- A request is answered with the aligned counter. -/
theorem answer?_eq (hr : r.Lays len) :
    l.answer? r = (r.area? len).map fun area => (l.align area.1).1 := by
  cases hr <;> rfl

/-- A request for storage of known length moves the counter from the aligned place by that
length. -/
theorem perform_eager (hr : r.Lays len) :
    l.answer? (r.eager len) = l.answer? r ∧ (l.perform (r.eager len)).counter =
      ((r.area? len).map fun area => (l.align area.1).1.shift area.2).getD l.counter := by
  cases hr with
  | @define symbol => exact ⟨rfl, l.counter_make_define symbol⟩
  | align alignment =>
      refine ⟨rfl, ?_⟩
      show (l.align alignment).2.counter = (l.align alignment).1.shift 0
      simp [align_fst, Address.shift]
  | reserve size alignment =>
      refine ⟨rfl, ?_⟩
      show (l.align alignment).2.counter.shift size = (l.align alignment).1.shift size
      rw [align_fst]
  | @reserveLater name range alignment =>
      refine ⟨rfl, ?_⟩
      show (l.align alignment).2.counter.shift (len name) = (l.align alignment).1.shift (len name)
      rw [align_fst]

/-! ## The lengths that spaces will get -/

/-- A table `t` has the lengths that all spaces of a layout have, or will get once the symbols have
their values. -/
structure Foresees (t : SymbolTable) (len : NameId → Int32) (l : Layout Work) : Prop where
  size : t.spaces.size = l.table.spaces.size
  complete : ∀ s : SpaceId, s.index < t.spaces.size → t.length? s ≠ none
  lengths : ∀ s n, l.table.length? s = some n → t.length? s = some n
  /-- A padding stands behind its anchor, and is as long as the place of the anchor asks. -/
  paddings : ∀ s anchor alignment, l.table.kind? s = some (.alignment anchor alignment) →
    (∀ s' ∈ anchor.spaces, s'.index < s.index) ∧
      t.length? s = some (alignment.padding (t.normalize anchor).offset)
  values : ∀ n, l.table.defines n = true → l.table.valueOf n = .absolute (len n)
  /-- An entry waits for the value of a symbol, which is the length of its space. -/
  entries : ∀ e ∈ l.entries, ∃ s name range range', e = lengthEntry s (.symbol name range) range' ∧
    0 ≤ len name ∧ t.length? s = some (len name)

namespace Foresees

variable {t t' : SymbolTable} {l l' : Layout Work} {a : Address}

/-- The places of the table are those of the layout. -/
theorem bounded_iff (h : Foresees t len l) : t.Bounded a ↔ l.table.Bounded a := by
  simp [SymbolTable.Bounded, h.size]

/-- A place has no spaces in the table. -/
theorem spaces_normalize (h : Foresees t len l) (ha : t.Bounded a) :
    (t.normalize a).spaces = [] := by
  refine List.eq_nil_iff_forall_not_mem.2 fun s hs => ?_
  obtain ⟨hmem, hnone⟩ := SymbolTable.mem_spaces_normalize.1 hs
  exact h.complete s (ha s hmem) hnone

/-- More spaces do not move a place. -/
theorem normalize_eq (h : Foresees t len l) (hext : t.Extends t') (ha : t.Bounded a) :
    t'.normalize a = t.normalize a := by
  rw [← hext.normalize_normalize, SymbolTable.normalize_of_spaces_nil (h.spaces_normalize ha)]

/-- An address without spaces that the layout knows is its place in the table. -/
theorem normalize_of_known (h : Foresees t len l) (hnil : (l.table.normalize a).spaces = []) :
    l.table.normalize a = t.normalize a := by
  rw [← SymbolTable.normalize_normalize h.lengths, SymbolTable.normalize_of_spaces_nil hnil]

/-- Another counter and fewer entries do not matter. -/
theorem congr (h : Foresees t len l) (htable : l'.table = l.table)
    (hentries : l'.entries ⊆ l.entries) : Foresees t len l' :=
  ⟨htable ▸ h.size, h.complete, htable ▸ h.lengths, htable ▸ h.paddings, htable ▸ h.values,
    fun e he => h.entries e (hentries he)⟩

/-- A space gets the length that the table has for it. -/
theorem setLength (h : Foresees t len l) {s : SpaceId} {n : Int32} (hs : t.length? s = some n)
    (htable : l'.table = l.table.setLength s n) (hentries : l'.entries ⊆ l.entries) :
    Foresees t len l' := by
  refine ⟨?_, h.complete, fun u m hu => ?_, ?_, ?_, fun e he => h.entries e (hentries he)⟩
  · simpa [htable] using h.size
  · rw [htable, SymbolTable.length?_setLength] at hu
    split at hu
    · rename_i hus
      rw [hus.1, hs]
      exact hu
    · exact h.lengths u m hu
  · simpa [htable] using h.paddings
  · simpa [htable] using h.values

/-- A step gives no space another length. -/
theorem step (hstep : Step l l') (h : Foresees t len l) : Foresees t len l' := by
  have hentries : l'.entries ⊆ l.entries := fun e he => hstep.mem_entries he
  cases hstep with
  | pad s =>
      rcases SymbolTable.settleSpace_eq l.table s with heq | ⟨anchor, al, hpad, -, hnil, heq⟩
      · exact h.congr heq hentries
      · refine h.setLength ?_ heq hentries
        rw [h.normalize_of_known hnil]
        exact (h.paddings s anchor al hpad).2
  | complete before e after hbefore hsettled =>
      obtain ⟨s, name, range, range', rfl, hle, hlength⟩ := h.entries e (by simp [hbefore])
      refine h.setLength hlength ?_ hentries
      -- the symbol has its value, and gives it to the space
      have hvalue : l.table.evaluate (.symbol name range) = .ok (.absolute (len name)) := by
        have hdefined : l.table.defines name = true := by
          by_contra hnot
          have hundef := SymbolTable.valueOf_of_not_defines (by simpa using hnot)
          simp [Entry.isSettled, Entry.unknowns, lengthEntry, SymbolTable.unknownsOfSource,
            SymbolTable.unknowns, SymbolTable.unknownsOfSymbol, hundef] at hsettled
        simp [SymbolTable.evaluate, h.values name hdefined]
      obtain ⟨errors, -, hcompletes⟩ :=
        l.complete_completes (lengthEntry s (.symbol name range) range')
      show (l.complete (lengthEntry s (.symbol name range) range')).table = _
      generalize (l.complete (lengthEntry s (.symbol name range) range')).table = t' at hcompletes ⊢
      cases hcompletes with
      | release ht | clear ht | value ht | fault ht => simp [lengthEntry] at ht
      | length ht hs hv =>
          cases ht
          cases hs
          cases hvalue.symm.trans hv
          rfl
      | noLength ht hnot => exact absurd hle (hnot _ [] _ rfl hvalue)

theorem settle (h : Foresees t len l) : Foresees t len l.settle :=
  settle_induction (fun _ _ => step) h

/-- The anchor of a padding is a place. -/
theorem bounded_anchor (h : Foresees t len l) {s : SpaceId} {anchor : Address}
    {alignment : Alignment} (hkind : l.table.kind? s = some (.alignment anchor alignment)) :
    t.Bounded anchor := h.bounded_iff.2 fun s' hs' =>
  Nat.lt_trans ((h.paddings s anchor alignment hkind).1 s' hs')
    (SymbolTable.kind?_isSome_iff.1 (by simp [hkind]))

/-- The layout gets one more space, and the table its length. -/
theorem addSpace (h : Foresees t len l) {k : SpaceKind} (counter : Address) (n : Int32)
    (hanchor : ∀ anchor alignment, k = .alignment anchor alignment →
      t.Bounded anchor ∧ n = alignment.padding (t.normalize anchor).offset) :
    ∃ t', t.Extends t' ∧ t'.length? (l.table.addSpace k).1 = some n ∧
      Foresees t' len { l with table := (l.table.addSpace k).2, counter } := by
  let t₁ := (t.addSpace k).2
  let s₁ := (t.addSpace k).1
  have hnew : (l.table.addSpace k).1 = s₁ := by simp [s₁, SymbolTable.addSpace, h.size]
  have hlength : (t₁.setLength s₁ n).length? s₁ = some n := by
    rw [SymbolTable.length?_setLength, if_pos ⟨rfl, by simp [t₁, s₁, SymbolTable.addSpace]⟩]
  have hsize : (t₁.setLength s₁ n).spaces.size = t.spaces.size + 1 := by simp [t₁]
  have hext : t.Extends (t₁.setLength s₁ n) :=
    (SymbolTable.extends_addSpace k).trans (SymbolTable.extends_setLength
      (by rw [SymbolTable.length?_addSpace]; exact SymbolTable.length?_fst_addSpace k) n)
  generalize t₁.setLength s₁ n = t' at hlength hsize hext
  refine ⟨t', hext, hnew ▸ hlength, ?_, fun s hs => ?_, fun s m hs => ?_,
    fun s anchor alignment hs => ?_, h.values, fun e he => ?_⟩
  · simp [hsize, h.size]
  · by_cases hlt : s.index < t.spaces.size
    · obtain ⟨m, hm⟩ := Option.ne_none_iff_exists'.1 (h.complete s hlt)
      simp [hext.length s m hm]
    · obtain rfl : s = s₁ := by
        rw [hsize] at hs
        exact congrArg SpaceId.mk (Nat.le_antisymm (Nat.le_of_lt_succ hs) (Nat.le_of_not_lt hlt))
      simp [hlength]
  · exact hext.length s m (h.lengths s m (by simpa using hs))
  · dsimp only at hs
    rw [SymbolTable.kind?_addSpace] at hs
    split at hs
    · rename_i heq
      obtain ⟨hbounded, hn⟩ := hanchor anchor alignment (Option.some.inj hs)
      rw [h.normalize_eq hext hbounded, heq, hnew, hlength, hn]
      exact ⟨hbounded, rfl⟩
    · obtain ⟨hbefore, hpadding⟩ := h.paddings s anchor alignment hs
      rw [h.normalize_eq hext (h.bounded_anchor hs)]
      exact ⟨hbefore, hext.length _ _ hpadding⟩
  · obtain ⟨s, name, range, range', heq, hle, hs⟩ := h.entries e he
    exact ⟨s, name, range, range', heq, hle, hext.length _ _ hs⟩

/-- Aligning the counter leads to the next aligned place. -/
theorem align (h : Foresees t len l) (hplaced : l.Placed) (alignment : Alignment) :
    ∃ t', t.Extends t' ∧ Foresees t' len (l.align alignment).2 ∧
      t'.normalize (l.align alignment).1 = (t.normalize l.counter).aligned alignment := by
  have hforesees : ∃ t', t.Extends t' ∧ Foresees t' len (l.align alignment).2 := by
    have haligns := align_aligns l alignment
    generalize (l.align alignment).1 = place at haligns
    generalize (l.align alignment).2 = aligned at haligns
    cases haligns with
    | stay => exact ⟨t, .refl t, h⟩
    | known => exact ⟨t, .refl t, h.congr rfl (List.Subset.refl _)⟩
    | padded =>
        obtain ⟨t', hext, -, h'⟩ := h.addSpace (k := .alignment l.place alignment)
          (l.place.behind (l.table.addSpace (.alignment l.place alignment)).1)
          (alignment.padding (t.normalize l.place).offset) fun anchor al hkind => by
            cases hkind
            exact ⟨h.bounded_iff.2 hplaced.counter.normalize, rfl⟩
        exact ⟨t', hext, h'⟩
  obtain ⟨t', hext, h'⟩ := hforesees
  refine ⟨t', hext, h', ?_⟩
  rw [normalize_align alignment (fun s n hs => hext.length s n (h.lengths s n hs))
    fun s anchor al hkind => (h'.paddings s anchor al hkind).2,
    h.normalize_eq hext (h.bounded_iff.2 hplaced.counter)]

/-- A symbol that is defined has its value. -/
theorem define (h : Foresees t len l) {symbol : OrdinarySymbol}
    (hvalue : symbol.value = .absolute (len symbol.name)) :
    Foresees t len (l.perform (.define symbol)) := by
  cases hdefined : l.table.defines symbol.name with
  | true => rwa [perform_define_of_defines hdefined]
  | false =>
      rw [perform_define hdefined]
      refine settle ⟨h.size, h.complete, h.lengths, h.paddings, fun n hn => ?_, h.entries⟩
      by_cases hname : n = symbol.name
      · subst hname
        exact (SymbolTable.valueOf_addSymbol_self hdefined).trans hvalue
      · refine (SymbolTable.valueOf_addSymbol_of_ne hname).trans (h.values n ?_)
        have hor : (l.table.addSymbol symbol).defines n = true := hn
        simpa [SymbolTable.defines_addSymbol, Ne.symm hname] using hor

/-- Storage that waits for its length gets the length that the symbol will have. -/
theorem reserveLater (h : Foresees t len l) (hplaced : l.Placed) {name : NameId} (range : Range)
    (alignment : Alignment) (range' : Range) (hle : 0 ≤ len name) :
    ∃ t', t.Extends t' ∧
      Foresees t' len (l.perform (.reserveLater (.symbol name range) alignment range')) ∧
      t'.Bounded (l.align alignment).1 ∧
      t'.normalize (l.align alignment).1 = (t.normalize l.counter).aligned alignment ∧
      t'.normalize (l.perform (.reserveLater (.symbol name range) alignment range')).counter =
        ((t.normalize l.counter).aligned alignment).shift (len name) := by
  obtain ⟨t₁, hext₁, h₁, hplace⟩ := h.align hplaced alignment
  have hplaced₁ := hplaced.align alignment
  obtain ⟨t₂, hext₂, hlength, h₂⟩ := h₁.addSpace (k := .length)
    ((l.align alignment).2.counter.behind ((l.align alignment).2.table.addSpace .length).1)
    (len name) (by simp)
  have hbounded : t₁.Bounded (l.align alignment).1 :=
    h₁.bounded_iff.2 (l.align_fst alignment ▸ hplaced₁.counter)
  have hstays := (h₁.normalize_eq hext₂ hbounded).trans hplace
  refine ⟨t₂, hext₁.trans hext₂, ?_, hbounded.extends hext₂, hstays, ?_⟩
  · rw [perform_reserveLater, await_of_accepts (hplaced.not_rejects_lengthEntry _ _ _)]
    refine settle ⟨h₂.size, h₂.complete, h₂.lengths, h₂.paddings, h₂.values, fun e he => ?_⟩
    rcases List.mem_append.1 he with he | he
    · exact h₂.entries e he
    · exact ⟨_, name, range, range', List.mem_singleton.1 he, hle, hlength⟩
  · rw [perform_reserveLater, counter_await, ← hstays, align_fst]
    exact SymbolTable.normalize_behind _ hlength

end Foresees

/-! ## Runs -/

/-- A request for storage is answered with the next aligned place, and moves the counter from there
by the size. -/
theorem Foresees.reserves {t : SymbolTable} (h : Foresees t len l) (hplaced : l.Placed)
    (hr : r.Lays len) {alignment : Alignment} {size : Int32}
    (harea : r.area? len = some (alignment, size)) :
    ∃ t', t.Extends t' ∧ Foresees t' len (l.perform r) ∧ t'.Bounded (l.align alignment).1 ∧
      t'.normalize (l.align alignment).1 = (t.normalize l.counter).aligned alignment ∧
      t'.normalize (l.perform r).counter =
        ((t.normalize l.counter).aligned alignment).shift size := by
  obtain ⟨t', hext, h', hplace⟩ := h.align hplaced alignment
  have hbounded : t'.Bounded (l.align alignment).1 :=
    h'.bounded_iff.2 (l.align_fst alignment ▸ (hplaced.align alignment).counter)
  cases hr with
  | define => simp [Request.area?] at harea
  | align =>
      cases harea
      refine ⟨t', hext, h', hbounded, hplace, ?_⟩
      show t'.normalize (l.align alignment).2.counter = _
      rw [← align_fst, hplace]
      simp [Address.shift]
  | reserve =>
      cases harea
      refine ⟨t', hext, h'.congr rfl (List.Subset.refl _), hbounded, hplace, ?_⟩
      rw [perform_reserve, SymbolTable.normalize_shift, ← align_fst, hplace]
  | reserveLater range _ range' hle =>
      cases harea
      exact h.reserveLater hplaced range alignment range' hle

/-- A request is answered with a place that the table reads as the answer with known lengths. -/
theorem Foresees.perform {t : SymbolTable} (h : Foresees t len l) (hplaced : l.Placed)
    (hr : r.Lays len) (hcounter : e.counter = t.normalize l.counter) :
    ∃ t', t.Extends t' ∧ Foresees t' len (l.perform r) ∧
      (e.perform (r.eager len)).counter = t'.normalize (l.perform r).counter ∧
      e.answer? (r.eager len) = (l.answer? r).map t'.normalize ∧
      ∀ a ∈ l.answer? r, t'.Bounded a := by
  have hnil : e.counter.spaces = [] :=
    hcounter ▸ h.spaces_normalize (h.bounded_iff.2 hplaced.counter)
  obtain ⟨hanswer, heager⟩ := perform_eager (l := e) hr
  rw [hanswer, heager, answer?_eq hr, answer?_eq hr]
  cases harea : r.area? len with
  | some area =>
      obtain ⟨t', hext, h', hbounded, hplace, hbehind⟩ := h.reserves hplaced hr harea
      refine ⟨t', hext, h', ?_, ?_, by simpa using hbounded⟩
      · simp [align_of_spaces_nil hnil, hcounter, hbehind]
      · simp [align_of_spaces_nil hnil, hcounter, hplace]
  | none =>
      cases hr with
      | @define symbol hvalue =>
          refine ⟨t, .refl t, h.define hvalue, hcounter.trans ?_, rfl, by simp⟩
          exact congrArg t.normalize (l.counter_make_define symbol).symm
      | align | reserve | reserveLater => simp [Request.area?] at harea

/-- A run is answered with places that the table reads as the answers with known lengths. -/
theorem Foresees.run {t : SymbolTable} (h : Foresees t len l) (hplaced : l.Placed)
    (hrs : ∀ r ∈ rs, r.Lays len) (hcounter : e.counter = t.normalize l.counter) :
    ∃ t', t.Extends t' ∧ Foresees t' len (l.run rs) ∧
      (e.run (rs.map (Request.eager len))).counter = t'.normalize (l.run rs).counter ∧
      e.answers (rs.map (Request.eager len)) = (l.answers rs).map t'.normalize ∧
      ∀ a ∈ l.answers rs, t'.Bounded a := by
  induction rs generalizing l e t with
  | nil => exact ⟨t, .refl t, h, hcounter, rfl, by simp [answers]⟩
  | cons r rs ih =>
      have hr := hrs r (by simp)
      have hrs := fun r' hr' => hrs r' (List.mem_cons_of_mem r hr')
      obtain ⟨t₁, hext₁, h₁, hcounter₁, hanswer, hbounded₁⟩ := h.perform hplaced hr hcounter
      obtain ⟨t', hext, h', hcounter', hanswers, hbounded⟩ :=
        ih h₁ (hplaced.perform hr.knows) hrs hcounter₁
      refine ⟨t', hext₁.trans hext, h', hcounter', ?_, fun a ha => ?_⟩
      · simp only [List.map_cons, answers, hanswers, hanswer, List.map_append]
        congr 1
        cases ha : l.answer? r with
        | none => rfl
        | some a =>
            simp [h₁.normalize_eq hext (hbounded₁ a ha)]
      · rcases List.mem_append.1 ha with ha | ha
        · exact (hbounded₁ a (Option.mem_toList.1 ha)).extends hext
        · exact hbounded a ha

/-- Nothing is left to find out once all symbols that storage waits for are defined. -/
theorem Foresees.normalize_of_defined {t : SymbolTable} (h : Foresees t len l)
    (hquiescent : l.Quiescent) (howned : l.Owned)
    (hdefined : ∀ s name range range', lengthEntry s (.symbol name range) range' ∈ l.entries →
      l.table.defines name = true) {a : Address} (ha : t.Bounded a) :
    l.table.normalize a = t.normalize a := by
  have hlengths : ∀ s, l.table.kind? s = some .length → l.table.length? s ≠ none := by
    intro s hkind hnone
    have hone := howned.one s ⟨hkind, hnone⟩
    obtain ⟨entry, he, -⟩ := List.countP_pos_iff.1 (hone ▸ Nat.one_pos)
    obtain ⟨s', name, range, range', rfl, -⟩ := h.entries entry he
    have hwaits := hquiescent.entries _ he
    simp [Entry.isSettled, Entry.unknowns, lengthEntry, SymbolTable.unknownsOfSource,
      SymbolTable.unknowns, SymbolTable.unknownsOfSymbol,
      h.values name (hdefined s' name range range' he)] at hwaits
  refine h.normalize_of_known (List.eq_nil_iff_forall_not_mem.2 fun s hs => ?_)
  obtain ⟨hmem, hnone⟩ := SymbolTable.mem_spaces_normalize.1 hs
  exact SymbolTable.length?_ne_none_of_lengths hquiescent.paddings
    (fun s anchor alignment hkind => (h.paddings s anchor alignment hkind).1) hlengths
    (h.size ▸ ha s hmem) hnone

/-! ## The counter without overflow -/

/-- A sum in range is the sum of words. -/
theorem toInt_add_of_lt {x y : Int32} (hle : 0 ≤ x.toInt + y.toInt)
    (hlt : x.toInt + y.toInt < 2 ^ 31) : (x + y).toInt = x.toInt + y.toInt := by
  rw [Int32.toInt_add, Int.bmod_def]
  split <;> omega

/-- Without overflow the next aligned place is at the next aligned number. -/
theorem toInt_aligned {a : Address} {alignment : Alignment}
    (hbyte : alignment.byte.toNat < 2 ^ 31) (hboundary : alignment.boundary.toNat < 2 ^ 31)
    (ha : 0 ≤ a.offset.toInt) (hlt : alignment.next a.offset.toInt < 2 ^ 31) :
    (a.aligned alignment).offset.toInt = alignment.next a.offset.toInt := by
  have hpadding := Alignment.add_toInt_padding hbyte hboundary ha
  have hle := alignment.le_next a.offset.toInt
  unfold Address.aligned
  split
  · rename_i hone
    have hone : alignment.boundary.toNat ≤ 1 := hone
    simp [Alignment.next, Nat.max_eq_right hone]
  · rw [← hpadding] at hle hlt ⊢
    exact toInt_add_of_lt (by omega) hlt

/-- A counter never moves back. -/
theorem Request.le_advance (len : NameId → Int32) (n : ℤ) (r : Request Work) :
    n ≤ r.advance len n := by
  unfold Request.advance
  split
  · rename_i alignment size _
    have hle := alignment.le_next n
    omega
  · exact Int.le_refl n

/-- A counter never moves back in a run. -/
theorem le_foldl_advance (len : NameId → Int32) (n : ℤ) (rs : List (Request Work)) :
    n ≤ rs.foldl (Request.advance len) n := by
  induction rs generalizing n with
  | nil => exact Int.le_refl n
  | cons r rs ih => exact Int.le_trans (r.le_advance len n) (ih _)

/-- Aligning opens no space. -/
@[simp] theorem spaces_aligned (a : Address) (alignment : Alignment) :
    (a.aligned alignment).spaces = a.spaces := by
  unfold Address.aligned
  split <;> rfl

/-- The alignments of a request are in range. -/
def Request.Ranged (len : NameId → Int32) (r : Request Work) : Prop :=
  ∀ alignment size, r.area? len = some (alignment, size) →
    alignment.byte.toNat < 2 ^ 31 ∧ alignment.boundary.toNat < 2 ^ 31

/-- Without overflow the counter of a request with a known length is the unlimited one. -/
theorem counter_perform_eager (hr : r.Lays len) (hrange : r.Ranged len)
    (hnil : e.counter.spaces = []) (hle : 0 ≤ e.counter.offset.toInt)
    (hlt : r.advance len e.counter.offset.toInt < 2 ^ 31) :
    (e.perform (r.eager len)).counter.spaces = [] ∧
      (e.perform (r.eager len)).counter.offset.toInt = r.advance len e.counter.offset.toInt := by
  rw [(perform_eager (l := e) hr).2]
  unfold Request.advance at hlt ⊢
  cases harea : r.area? len with
  | none => exact ⟨hnil, rfl⟩
  | some area =>
      obtain ⟨alignment, size⟩ := area
      obtain ⟨hbyte, hboundary⟩ := hrange alignment size harea
      simp only [harea, Option.map_some, Option.getD_some, align_of_spaces_nil hnil] at hlt ⊢
      refine ⟨by simpa [Address.shift] using hnil, ?_⟩
      have hnext := alignment.le_next e.counter.offset.toInt
      have hplace := toInt_aligned hbyte hboundary hle (by omega)
      have hsize : size.toInt = size.toUInt32.toNat :=
        Alignment.toInt_toInt32 (n := size.toUInt32) (by omega)
      rw [← hplace, ← hsize] at hlt ⊢
      exact toInt_add_of_lt (by omega) hlt

/-- Without overflow the counter of a run with known lengths is the unlimited one. -/
theorem counter_run_eager (hrs : ∀ r ∈ rs, r.Lays len ∧ r.Ranged len) (hnil : e.counter.spaces = [])
    (hle : 0 ≤ e.counter.offset.toInt)
    (hlt : rs.foldl (Request.advance len) e.counter.offset.toInt < 2 ^ 31) :
    (e.run (rs.map (Request.eager len))).counter.spaces = [] ∧
      (e.run (rs.map (Request.eager len))).counter.offset.toInt =
        rs.foldl (Request.advance len) e.counter.offset.toInt := by
  induction rs generalizing e with
  | nil => exact ⟨hnil, rfl⟩
  | cons r rs ih =>
      obtain ⟨hr, hrange⟩ := hrs r (by simp)
      rw [List.foldl_cons] at hlt ⊢
      -- the counter only grows, so it is in range here if it is in range at the end
      have hfirst := r.le_advance len e.counter.offset.toInt
      have hrest := le_foldl_advance len (r.advance len e.counter.offset.toInt) rs
      obtain ⟨hnil', hcounter⟩ := counter_perform_eager hr hrange hnil hle (by omega)
      rw [← hcounter] at hlt ⊢
      exact ih (fun r' hr' => hrs r' (List.mem_cons_of_mem r hr')) hnil' (by omega) hlt

/-- Without overflow a run with known lengths puts a request at the least aligned place behind the
counter. -/
theorem isLeast_answer_eager {before : List (Request Work)}
    (hbefore : ∀ r ∈ before, r.Lays len ∧ r.Ranged len) (hr : r.Lays len) (hrange : r.Ranged len)
    (hlt : r.advance len (before.foldl (Request.advance len) 0) < 2 ^ 31)
    {alignment : Alignment} {size : Int32} (harea : r.area? len = some (alignment, size))
    (hone : 1 < alignment.boundary) :
    let e : Layout Work := run {} (before.map (Request.eager len))
    ∃ a, e.answer? (r.eager len) = some a ∧
      IsLeast {p : ℤ | e.place.offset.toInt ≤ p ∧
        p ≡ alignment.byte.toNat [ZMOD alignment.boundary.toNat]} a.offset.toInt := by
  intro e
  obtain ⟨hbyte, hboundary⟩ := hrange alignment size harea
  have hstart := le_foldl_advance len 0 before
  have hadvance := r.le_advance len (before.foldl (Request.advance len) 0)
  obtain ⟨hnil, hoffset⟩ : e.counter.spaces = [] ∧
      e.counter.offset.toInt = before.foldl (Request.advance len) 0 :=
    counter_run_eager hbefore rfl (Int.le_refl 0) (Int.lt_of_le_of_lt hadvance hlt)
  rw [← hoffset] at hlt hstart
  simp only [Request.advance, harea] at hlt
  refine ⟨e.counter.aligned alignment, ?_, ?_⟩
  · rw [(perform_eager hr).1, answer?_eq hr, harea, Option.map_some, align_of_spaces_nil hnil]
  · have hplace : e.place = e.counter := SymbolTable.normalize_of_spaces_nil hnil
    rw [hplace, toInt_aligned hbyte hboundary hstart (by omega)]
    have hone : 1 < alignment.boundary.toNat := hone
    exact Alignment.isLeast_next (by omega) _

/-! ## Deferring a length -/

/-- Storage whose length is found later, as the value of a symbol, is laid out like storage whose
length is known. At any time an address from a request that lacks no space is the address that
the run with known lengths answered with. Once all symbols are defined no address lacks a space,
and the counters agree too. If the counter stays in range, the run with known lengths puts each
request at the least aligned place behind the counter. -/
theorem run_eager (len : NameId → Int32) (rs : List (Request Work)) (hrs : ∀ r ∈ rs, r.Lays len) :
    let l : Layout Work := run {} rs
    let known : List (Request Work) := rs.map (Request.eager len)
    List.Forall₂ (fun a b => b.spaces = [] ∧
        ((l.table.normalize a).spaces = [] → l.table.normalize a = b))
      (answers {} rs) (answers {} known) ∧
    ((∀ name range alignment range', .reserveLater (.symbol name range) alignment range' ∈ rs →
        ∃ symbol, .define symbol ∈ rs ∧ symbol.name = name) →
      (answers {} rs).map l.table.normalize = answers {} known ∧
        l.place = (run {} known).place) ∧
    ((∀ r ∈ rs, r.Ranged len) → rs.foldl (Request.advance len) 0 < 2 ^ 31 →
      ∀ before r after alignment size, rs = before ++ r :: after →
        r.area? len = some (alignment, size) → 1 < alignment.boundary →
        let e : Layout Work := run {} (before.map (Request.eager len))
        ∃ a, e.answer? (r.eager len) = some a ∧
          IsLeast {p : ℤ | e.place.offset.toInt ≤ p ∧
            p ≡ alignment.byte.toNat [ZMOD alignment.boundary.toNat]} a.offset.toInt) := by
  intro l known
  obtain ⟨hquiescent, hplaced, howned⟩ :
      ({} : Layout Work).Quiescent ∧ ({} : Layout Work).Placed ∧ ({} : Layout Work).Owned :=
    settled_empty
  have hempty : Foresees {} len ({} : Layout Work) := by
    refine ⟨rfl, fun s hs => absurd hs (Nat.not_lt_zero _), ?_, ?_, ?_, by simp⟩
    · simp [SymbolTable.length?]
    · simp [SymbolTable.kind?]
    · simp [SymbolTable.defines, SymbolTable.symbol?]
  -- the table `t` has all lengths, and reads each answer as the one with known lengths
  obtain ⟨t, -, h, hcounter, hanswers, hbounded⟩ := hempty.run hplaced hrs (e := {}) rfl
  obtain ⟨hplaced', howned'⟩ := hplaced.run (knows_of_lays hrs)
  refine ⟨?_, fun hdefined => ?_,
    fun hranges hlt before r after alignment size heq harea hone => ?_⟩
  · show List.Forall₂ _ (answers {} rs) (answers {} (rs.map (Request.eager len)))
    rw [hanswers, List.forall₂_map_right_iff, List.forall₂_same]
    exact fun a ha => ⟨h.spaces_normalize (hbounded a ha), h.normalize_of_known⟩
  -- once all symbols have values the table of the run itself lacks no length
  · have hopen : Request.finish ∉ rs := fun hmem => by cases hrs _ hmem
    have hfinal {a : Address} (ha : t.Bounded a) : l.table.normalize a = t.normalize a := by
      refine h.normalize_of_defined (hquiescent.run rs) (howned' howned hopen)
        (fun s name range range' he => ?_) ha
      rcases mem_entries_run hrs he with he | ⟨s', name', range₁, alignment, range₂, hmem, heq⟩
      · simp at he
      · cases heq
        exact defines_run hrs (.inr (hdefined _ _ _ _ hmem))
    have hcounter' : t.Bounded l.counter := h.bounded_iff.2 hplaced'.counter
    refine ⟨?_, ?_⟩
    · show _ = answers {} (rs.map (Request.eager len))
      rw [hanswers]
      exact List.map_congr_left fun a ha => hfinal (hbounded a ha)
    · show l.table.normalize l.counter = (run {} known).table.normalize (run {} known).counter
      rw [hcounter, hfinal hcounter',
        SymbolTable.normalize_of_spaces_nil (h.spaces_normalize hcounter')]
  · subst heq
    rw [List.foldl_append, List.foldl_cons] at hlt
    exact isLeast_answer_eager
      (fun r' hr' => ⟨hrs r' (by simp [hr']), hranges r' (by simp [hr'])⟩) (hrs r (by simp))
      (hranges r (by simp)) (Int.lt_of_le_of_lt (le_foldl_advance len _ after) hlt) harea hone

/-- A word of unknown length, and a doubleword behind it. -/
def laterRun : List (Request String) :=
  [.reserveLater (.symbol ⟨0⟩ {}) .fullword {}, .reserve 8 .doubleword,
    .define ⟨⟨0⟩, .absolute 5, .equate none, {}⟩]

/-- The doubleword lies at the least multiple of eight behind the five bytes. -/
theorem laterRun_eager : (∀ r ∈ laterRun, r.Lays fun _ => 5) ∧
    let l := run {} laterRun
    (answers {} laterRun).map l.table.normalize = [⟨0, []⟩, ⟨8, []⟩] ∧ l.place = ⟨16, []⟩ ∧
      IsLeast {p : ℤ | 5 ≤ p ∧ p ≡ 0 [ZMOD 8]} 8 := by
  have hlays : ∀ r ∈ laterRun, r.Lays fun _ => 5 := by
    simp only [laterRun, List.forall_mem_cons]
    exact ⟨.reserveLater _ _ _ (by decide), .reserve _ _, .define rfl, by simp⟩
  have hdefined : ∀ name range alignment range',
      .reserveLater (.symbol name range) alignment range' ∈ laterRun →
        ∃ symbol, .define symbol ∈ laterRun ∧ symbol.name = name := by
    intro name range alignment range' hmem
    obtain ⟨⟨rfl, -⟩, -⟩ : (name = ⟨0⟩ ∧ range = {}) ∧ _ := by simpa [laterRun] using hmem
    exact ⟨⟨⟨0⟩, .absolute 5, .equate none, {}⟩, by simp [laterRun], rfl⟩
  have hranges : ∀ r ∈ laterRun, r.Ranged fun _ => 5 := by
    simp only [laterRun, List.forall_mem_cons, Request.Ranged, Request.area?]
    simp [Alignment.fullword, Alignment.doubleword]
  obtain ⟨-, hknown, hleast⟩ := run_eager (fun _ => 5) laterRun hlays
  obtain ⟨hanswers, hplace⟩ := hknown hdefined
  obtain ⟨a, ha, hleast⟩ := hleast hranges (by decide) (laterRun.take 1)
    (.reserve 8 .doubleword) (laterRun.drop 2) .doubleword 8 rfl rfl (by decide)
  refine ⟨hlays, ?_, ?_, ?_⟩
  · rw [hanswers]
    cbv
  · rw [hplace]
    cbv
  · obtain rfl : ⟨8, []⟩ = a := Option.some.inj (Eq.trans (by cbv) ha)
    exact hleast

end Layout

end MacroAssembler
