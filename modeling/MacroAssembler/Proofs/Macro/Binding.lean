import MacroAssembler.Macro.Call
import MacroAssembler.Proofs.Bindings
import MacroAssembler.Proofs.Names

/-!
# The arguments of a call

All that a call binds are entries that are bound one after the other (`call_eq`): the defaults of
the keyword parameters, the keyword arguments, what falls to the slots, and the label. Since the
names of the parameters are different, each parameter finds its own entry among them
(`call_binds`).
-/

namespace MacroAssembler

variable {p : Prototype} {names : NameTable} {args : List (Argument × Range)} {n : NameId}
  {value : MacroData}

/-! ## What the arguments are -/

namespace Prototype

/-- The names of all parameters. -/
def declared (p : Prototype) : List NameId := p.params.filterMap (·.name?) ++ p.label.toList

/-- A keyword with its value, as it is taken for a positional argument. -/
def spelled (names : NameTable) (name : NameId) (value : MacroData) : MacroData :=
  .single (names.nameOf name ++ "=" ++ value.text)

/-- The positional arguments of a call. Keywords that are not declared are among them. -/
def positionals (p : Prototype) (names : NameTable) (args : List (Argument × Range)) :
    List MacroData :=
  args.filterMap fun
    | (.positional value, _) => some value
    | (.keyword name value, _) => if p.declares name then none else some (spelled names name value)

/-- The complaints about keywords that are not declared. -/
def complaints (p : Prototype) (names : NameTable) (args : List (Argument × Range)) :
    List Diagnostic :=
  args.filterMap fun
    | (.positional _, _) => none
    | (.keyword name _, range) =>
        if p.declares name then none
        else some ⟨.unknownKeywordParameter, [names.nameOf name], range⟩

/-- The keyword arguments of a call. -/
def keywordEntries (args : List (Argument × Range)) : List (NameId × MacroData) :=
  args.filterMap fun
    | (.positional _, _) => none
    | (.keyword name value, _) => some (name, value)

/-- The entries of the keyword parameters. -/
def defaultEntries (p : Prototype) : List (NameId × MacroData) :=
  p.params.filterMap fun
    | .keyword name value => some (name, value)
    | _ => none

/-- The entries of the slots for the given arguments. -/
def slotEntries : List Parameter → List MacroData → List (NameId × MacroData)
  | [], _ => []
  | slot :: slots, values =>
      slot.name?.toList.map (·, values.head?.getD .omitted) ++ slotEntries slots values.tail

/-- The entry of the parameter for the label. -/
def labelEntries (p : Prototype) (label : MacroData) : List (NameId × MacroData) :=
  p.label.toList.map (·, label)

/-- All entries that a call binds, in order. -/
def entries (p : Prototype) (names : NameTable) (label : MacroData)
    (args : List (Argument × Range)) : List (NameId × MacroData) :=
  p.defaultEntries ++ (keywordEntries args).filter (fun entry => p.declares entry.1) ++
    slotEntries p.slots (p.positionals names args) ++ p.labelEntries label

end Prototype

open Prototype

/-- The defaults are the entries of the keyword parameters. -/
theorem Prototype.defaults_eq (p : Prototype) :
    p.defaults = Bindings.setAll [] p.defaultEntries := by
  unfold defaults Bindings.setAll defaultEntries
  rw [List.foldl_filterMap]
  congr
  funext b param
  cases param <;> rfl

/-- Sorting more arguments adds the keywords among them that are declared, the positional ones, and
the complaints. -/
theorem SortedArguments.foldl_add_eq (p : Prototype) (names : NameTable)
    (args : List (Argument × Range)) (s : SortedArguments) :
    args.foldl (add p names) s =
      ⟨s.keywords.setAll ((keywordEntries args).filter fun entry => p.declares entry.1),
        s.positional ++ p.positionals names args, s.diagnostics ++ p.complaints names args⟩ := by
  induction args generalizing s with
  | nil => simp [keywordEntries, positionals, complaints, Bindings.setAll]
  | cons argument rest ih =>
      rw [List.foldl_cons, ih]
      obtain ⟨argument, range⟩ := argument
      cases argument with
      | positional value => simp [add, keywordEntries, positionals, complaints]
      | keyword name value =>
          cases hdeclares : p.declares name <;>
            simp [add, keywordEntries, positionals, complaints, hdeclares, Bindings.setAll, spelled]

theorem bindSlot_eq (b : Bindings NameId MacroData) (slot : Parameter) (value : MacroData) :
    bindSlot b slot value = b.setAll (slot.name?.toList.map (·, value)) := by
  unfold bindSlot
  cases slot.name? <;> rfl

/-- Slots without arguments are bound to omitted ones. -/
theorem omitSlots_eq (b : Bindings NameId MacroData) (slots : List Parameter) :
    omitSlots b slots = b.setAll (slotEntries slots []) := by
  induction slots generalizing b with
  | nil => rfl
  | cons slot slots ih =>
      show omitSlots (bindSlot b slot .omitted) slots = _
      rw [ih, bindSlot_eq, Bindings.setAll_setAll]
      rfl

/-- Letting the arguments take the slots, and binding the slots that are left, binds each slot to
the argument at its place, or to an omitted one. -/
theorem omitSlots_fillSlots (b : Bindings NameId MacroData) (slots : List Parameter)
    (values : List MacroData) :
    omitSlots (fillSlots b slots values).1 (fillSlots b slots values).2 =
      b.setAll (slotEntries slots values) := by
  induction values generalizing b slots with
  | nil => exact omitSlots_eq b slots
  | cons value values ih =>
      cases slots with
      | nil => exact ih b []
      | cons slot slots =>
          rw [fillSlots, ih, bindSlot_eq, Bindings.setAll_setAll]
          rfl

/-- A call binds its entries, lists its positional arguments and complains of keywords that are not
declared. -/
theorem MacroDefinition.call_eq (d : MacroDefinition) (name : NameId) (label : MacroData)
    (args : List (Argument × Range)) (names : NameTable) :
    d.call name label args names =
      (⟨name, Bindings.setAll [] (d.prototype.entries names label args),
        label :: d.prototype.positionals names args⟩, d.prototype.complaints names args) := by
  unfold call entries labelEntries SortedArguments.ofList
  simp only [SortedArguments.foldl_add_eq, omitSlots_fillSlots, Prototype.defaults_eq,
    ← Bindings.setAll_setAll, List.nil_append]
  cases d.prototype.label <;> rfl

/-! ## What a parameter is bound to -/

namespace Prototype

/-- The entries of the slots have the names of the slots. -/
theorem keys_slotEntries (slots : List Parameter) (values : List MacroData) :
    (slotEntries slots values).map Prod.fst = slots.filterMap (·.name?) := by
  induction slots generalizing values with
  | nil => rfl
  | cons slot slots ih =>
      rw [slotEntries, List.map_append, ih, List.filterMap_cons]
      cases slot.name? <;> rfl

theorem keys_labelEntries (p : Prototype) (label : MacroData) :
    (p.labelEntries label).map Prod.fst = p.label.toList := by
  simp [labelEntries, Function.comp_def]

/-- A slot with a name has the argument at its place as its entry. -/
theorem mem_slotEntries {slots : List Parameter} {k : Nat} (values : List MacroData)
    (hslot : slots[k]? = some (.positional n)) :
    (n, values[k]?.getD .omitted) ∈ slotEntries slots values := by
  induction slots generalizing values k with
  | nil => simp at hslot
  | cons slot slots ih =>
      cases k with
      | zero =>
          obtain rfl : slot = .positional n := by simpa using hslot
          simp [slotEntries, Parameter.name?, List.head?_eq_getElem?]
      | succ k =>
          have hmem := ih (k := k) values.tail (by simpa using hslot)
          rw [List.getElem?_tail] at hmem
          exact List.mem_append_right _ hmem

/-- A keyword parameter has its default as its entry. -/
theorem mem_defaultEntries :
    (n, value) ∈ p.defaultEntries ↔ .keyword n value ∈ p.params := by
  unfold defaultEntries
  rw [List.mem_filterMap]
  constructor
  · rintro ⟨param, hparam, heq⟩
    cases param with
    | keyword =>
        cases heq
        exact hparam
    | placeholder | positional => simp at heq
  · exact fun h => ⟨_, h, rfl⟩

/-- The declared keywords are those that have a default. -/
theorem declares_iff : p.declares n = true ↔ n ∈ p.defaultEntries.map Prod.fst := by
  unfold declares
  rw [List.any_eq_true, List.mem_map]
  constructor
  · rintro ⟨param, hparam, hkeyword⟩
    cases param with
    | keyword name value =>
        obtain rfl : name = n := by simpa [Parameter.isKeyword, Parameter.name?] using hkeyword
        exact ⟨_, mem_defaultEntries.2 hparam, rfl⟩
    | placeholder | positional => simp [Parameter.isKeyword] at hkeyword
  · rintro ⟨⟨name, value⟩, hmem, rfl⟩
    exact ⟨_, mem_defaultEntries.1 hmem, by simp [Parameter.isKeyword, Parameter.name?]⟩

/-- The parameters are the keywords and the slots. -/
theorem declared_perm (p : Prototype) :
    (p.defaultEntries.map Prod.fst ++ p.slots.filterMap (·.name?) ++ p.label.toList).Perm
      p.declared := by
  refine List.Perm.append_right _ ?_
  unfold defaultEntries slots
  induction p.params with
  | nil => exact .refl _
  | cons param params ih =>
      cases param with
      | placeholder => simpa [Parameter.isKeyword, Parameter.name?] using ih
      | positional name =>
          simpa [Parameter.isKeyword, Parameter.name?] using
            List.perm_middle.trans (ih.cons name)
      | keyword name value =>
          simpa [Parameter.isKeyword, Parameter.name?] using ih

/-- The names of the entries of a call are those of the parameters. -/
theorem mem_keys_entries {label : MacroData} :
    n ∈ (p.entries names label args).map Prod.fst ↔ n ∈ p.declared := by
  have hkeywords (h : n ∈ ((keywordEntries args).filter fun entry =>
      p.declares entry.1).map Prod.fst) : n ∈ p.defaultEntries.map Prod.fst := by
    obtain ⟨entry, hentry, rfl⟩ := List.mem_map.1 h
    exact declares_iff.1 (List.mem_filter.1 hentry).2
  rw [← p.declared_perm.mem_iff, entries]
  simp only [List.map_append, keys_slotEntries, keys_labelEntries, List.mem_append]
  rw [or_iff_left_of_imp hkeywords]

section Distinct

variable {label : MacroData} (h : p.declared.Nodup)
include h

/-- The last entry of a slot is that for its argument. -/
theorem getLast?_of_slot {k : Nat} (hslot : p.slots[k]? = some (.positional n)) :
    (Bindings.valuesOf (p.entries names label args) n).getLast? =
      some ((p.positionals names args)[k]?.getD .omitted) := by
  obtain ⟨hparams, -, hlabel⟩ := List.nodup_append.1 (p.declared_perm.nodup_iff.2 h)
  obtain ⟨-, hslots, -⟩ := List.nodup_append.1 hparams
  rw [← keys_slotEntries _ (p.positionals names args)] at hslots hlabel
  have hmem := mem_slotEntries (p.positionals names args) hslot
  have hother : n ∉ (p.labelEntries label).map Prod.fst := by
    rw [keys_labelEntries]
    exact fun hn => hlabel n (List.mem_append_right _ (List.mem_map_of_mem hmem)) n hn rfl
  simp [entries, Bindings.valuesOf_append, Bindings.valuesOf_of_nodup hslots hmem,
    Bindings.valuesOf_eq_nil hother]

/-- The last entry of a keyword is that of its last argument, or else its default. -/
theorem getLast?_of_keyword (hkeyword : .keyword n value ∈ p.params) :
    (Bindings.valuesOf (p.entries names label args) n).getLast? =
      some ((Bindings.valuesOf (keywordEntries args) n).getLast?.getD value) := by
  obtain ⟨hparams, -, hlabel⟩ := List.nodup_append.1 (p.declared_perm.nodup_iff.2 h)
  obtain ⟨hdefaults, -, hslots⟩ := List.nodup_append.1 hparams
  rw [← keys_slotEntries _ (p.positionals names args)] at hslots
  have hmem := mem_defaultEntries.2 hkeyword
  have hn : n ∈ p.defaultEntries.map Prod.fst := List.mem_map_of_mem hmem
  have hother : n ∉ (slotEntries p.slots (p.positionals names args)).map Prod.fst :=
    fun hn' => hslots n hn n hn' rfl
  have hother' : n ∉ (p.labelEntries label).map Prod.fst := by
    rw [keys_labelEntries]
    exact fun hn' => hlabel n (List.mem_append_left _ hn) n hn' rfl
  simp [entries, Bindings.valuesOf_append, Bindings.valuesOf_of_nodup hdefaults hmem,
    Bindings.valuesOf_filter (declares_iff.2 hn), Bindings.valuesOf_eq_nil hother,
    Bindings.valuesOf_eq_nil hother', List.getLast?_cons]

end Distinct

/-- The last entry of the parameter for the label is the label. -/
theorem getLast?_of_label {label : MacroData} (hlabel : p.label = some n) :
    (Bindings.valuesOf (p.entries names label args) n).getLast? = some label := by
  simp [entries, labelEntries, hlabel, Bindings.valuesOf]

end Prototype

/-- A call of a macro whose parameters have different names binds these names and no others, each
once. A slot with a name is bound to the positional argument at its place, or is omitted; a keyword
is bound to its last argument, or else to its default; the label is bound to the parameter for it.
The list of arguments is the label and all positional arguments, and there is one complaint for
each keyword that is not declared. -/
theorem MacroDefinition.call_binds (d : MacroDefinition) (hdistinct : d.prototype.declared.Nodup)
    (name : NameId) (label : MacroData) (args : List (Argument × Range)) (names : NameTable) :
    let (call, diagnostics) := d.call name label args names
    let positionals := d.prototype.positionals names args
    call.name = name ∧
    (call.params.map Prod.fst).Perm d.prototype.declared ∧
    (∀ (k : Nat) (n : NameId), d.prototype.slots[k]? = some (.positional n) →
      call.params.get? n = some (positionals[k]?.getD .omitted)) ∧
    (∀ (n : NameId) (value : MacroData), .keyword n value ∈ d.prototype.params →
      call.params.get? n = some ((Bindings.valuesOf (keywordEntries args) n).getLast?.getD value)) ∧
    (∀ n, d.prototype.label = some n → call.params.get? n = some label) ∧
    call.syslist = label :: positionals ∧
    diagnostics = d.prototype.complaints names args := by
  rw [d.call_eq]
  have hget (n : NameId) :
      (Bindings.setAll [] (d.prototype.entries names label args)).get? n =
        (Bindings.valuesOf (d.prototype.entries names label args) n).getLast? := by
    rw [Bindings.get?_setAll]
    exact Option.or_none
  refine ⟨rfl, ?_, fun k n hslot => ?_, fun n value hkeyword => ?_, fun n hlabel => ?_, rfl, rfl⟩
  · have hnodup : (Bindings.setAll [] (d.prototype.entries names label args)).keys.Nodup :=
      Bindings.nodup_keys_setAll .nil
    refine (List.perm_ext_iff_of_nodup hnodup hdistinct).2 fun n => ?_
    rw [Bindings.mem_keys_setAll, Prototype.mem_keys_entries]
    exact or_iff_right List.not_mem_nil
  · exact (hget n).trans (Prototype.getLast?_of_slot hdistinct hslot)
  · exact (hget n).trans (Prototype.getLast?_of_keyword hdistinct hkeyword)
  · exact (hget n).trans (Prototype.getLast?_of_label hlabel)

/-- A macro with a parameter for the label, a slot, a keyword, a placeholder and another slot. -/
def mixedMacro : MacroDefinition where
  prototype :=
    { name := some ⟨0⟩
      label := some ⟨1⟩
      params := [.positional ⟨2⟩, .keyword ⟨3⟩ (.single "DEF"), .placeholder, .positional ⟨4⟩] }

/-- A call that gives the keyword twice, and one that is not declared between two arguments. -/
def mixedArguments : List (Argument × Range) :=
  [(.keyword ⟨3⟩ (.single "NEW"), {}), (.positional (.single "X"), {}),
    (.keyword ⟨5⟩ (.single "1"), {}), (.keyword ⟨3⟩ (.single "LAST"), {}),
    (.positional (.single "Y"), {})]

/-- The keyword that is not declared takes the place of the placeholder. -/
theorem mixedMacro_binds : mixedMacro.prototype.declared.Nodup ∧
    let names : NameTable := .ofList ["MAC", "LBL", "P1", "KEY", "P2", "OTHER"]
    let (call, diagnostics) := mixedMacro.call ⟨0⟩ (.single "HERE") mixedArguments names
    (call.params.map Prod.fst).Perm [⟨2⟩, ⟨3⟩, ⟨4⟩, ⟨1⟩] ∧
    call.params.get? ⟨2⟩ = some (.single "X") ∧ call.params.get? ⟨3⟩ = some (.single "LAST") ∧
    call.params.get? ⟨4⟩ = some (.single "Y") ∧ call.params.get? ⟨1⟩ = some (.single "HERE") ∧
    call.syslist = [.single "HERE", .single "X", .single "OTHER=1", .single "Y"] ∧
    diagnostics = [⟨.unknownKeywordParameter, ["OTHER"], {}⟩] := by
  have hdistinct : mixedMacro.prototype.declared.Nodup := by decide
  obtain ⟨-, hnames, hslots, hkeywords, hlabel, hsyslist, hdiagnostics⟩ :=
    mixedMacro.call_binds hdistinct ⟨0⟩ (.single "HERE") mixedArguments
      (.ofList ["MAC", "LBL", "P1", "KEY", "P2", "OTHER"])
  refine ⟨hdistinct, hnames, hslots 0 ⟨2⟩ rfl, ?_, hslots 2 ⟨4⟩ rfl, hlabel ⟨1⟩ rfl, hsyslist,
    hdiagnostics⟩
  exact hkeywords ⟨3⟩ (.single "DEF") (by simp [mixedMacro])

end MacroAssembler
