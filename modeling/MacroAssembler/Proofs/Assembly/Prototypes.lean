import Mathlib
import MacroAssembler.Proofs.Assembly.Macros
import MacroAssembler.Proofs.Field.Rendering

/-!
# What a prototype declares

Each operand of a prototype has its place among the parameters. It declares a parameter if it is a
variable symbol, alone or with a default behind an equals sign, whose name was not declared before
in the statement; any other operand leaves a placeholder, and is blamed if there is something in it
(`Collector.prototype_declares`).
-/

namespace MacroAssembler

open Conditional (VariableSymbol Fragment Concatenation)

/-! ## Names that are rendered -/

namespace Conditional

mutual
/-- The names that a variable symbol is rendered with. Those in its subscript are not among them. -/
def VariableSymbol.mentioned : VariableSymbol → List NameId
  | .named name _ _ => [name]
  | .created name _ _ => Concatenation.mentioned name

/-- The names that a fragment is rendered with. -/
def Fragment.mentioned : Fragment → List NameId
  | .reference v => v.mentioned
  | .sublist items => Concatenation.mentionedEach items
  | _ => []

/-- The names that a concatenation is rendered with. -/
def Concatenation.mentioned : List Fragment → List NameId
  | [] => []
  | fragment :: rest => fragment.mentioned ++ Concatenation.mentioned rest

/-- The names that several concatenations are rendered with. -/
def Concatenation.mentionedEach : List (List Fragment) → List NameId
  | [] => []
  | item :: rest => Concatenation.mentioned item ++ Concatenation.mentionedEach rest
end

/-- All the names are in the table. -/
def Known (names : NameTable) (ids : List NameId) : Prop := ∀ id ∈ ids, (names.get? id).isSome

/-- The fault for the first of the names that is not in the table. -/
def firstUnknown? (names : NameTable) (ids : List NameId) : Option UnknownName :=
  (ids.find? fun id => (names.get? id).isNone).map UnknownName.mk

theorem firstUnknown?_append (names : NameTable) (ids ids' : List NameId) :
    firstUnknown? names (ids ++ ids') =
      (firstUnknown? names ids).or (firstUnknown? names ids') := by
  simp [firstUnknown?, List.find?_append, Option.map_or]

theorem firstUnknown?_eq_none_iff {names : NameTable} {ids : List NameId} :
    firstUnknown? names ids = none ↔ Known names ids := by
  simp [firstUnknown?, Known, Option.isSome_iff_ne_none]

/-- The fault that a computation ends with. -/
def fault? {α : Type} : Except UnknownName α → Option UnknownName
  | .error e => some e
  | .ok _ => none

theorem fault?_eq_some_iff {α : Type} {x : Except UnknownName α} {e : UnknownName} :
    fault? x = some e ↔ x = .error e := by
  cases x <;> simp [fault?]

theorem fault?_bind {α β : Type} (x : Except UnknownName α) (f : α → β) :
    fault? (x >>= fun a => pure (f a)) = fault? x := by
  cases x <;> rfl

theorem fault?_bind₂ {α β γ : Type} (x : Except UnknownName α) (y : Except UnknownName β)
    (f : α → β → γ) :
    fault? (x >>= fun a => y >>= fun b => pure (f a b)) = (fault? x).or (fault? y) := by
  cases x with
  | error e => rfl
  | ok a => exact fault?_bind y (f a)

mutual
/-- A variable symbol is not rendered if a name that it mentions is unknown. -/
theorem VariableSymbol.fault?_render (names : NameTable) (v : VariableSymbol) :
    fault? (v.render names) = firstUnknown? names v.mentioned := by
  match v with
  | .named name _ _ =>
      rw [VariableSymbol.render, VariableSymbol.mentioned, fault?_bind, NameStore.get]
      cases hget : names.get? name <;> simp [fault?, firstUnknown?, hget]
  | .created name _ _ =>
      rw [VariableSymbol.render, VariableSymbol.mentioned, fault?_bind]
      exact Concatenation.fault?_render names name

theorem Fragment.fault?_render (names : NameTable) (fragment : Fragment) :
    fault? (fragment.render names) = firstUnknown? names fragment.mentioned := by
  match fragment with
  | .reference v =>
      rw [Fragment.render, Fragment.mentioned]
      exact v.fault?_render names
  | .sublist items =>
      rw [Fragment.render, Fragment.mentioned, fault?_bind]
      exact Concatenation.fault?_renderEach names items
  | .text _ | .dot | .equals => simp [Fragment.render, Fragment.mentioned, fault?, firstUnknown?]

/-- A concatenation is not rendered if a name that it mentions is unknown, and the fault is that of
the first such name. -/
theorem Concatenation.fault?_render (names : NameTable) (c : List Fragment) :
    fault? (Concatenation.render names c) = firstUnknown? names (Concatenation.mentioned c) := by
  match c with
  | [] => simp [Concatenation.render, Concatenation.mentioned, fault?, firstUnknown?]
  | fragment :: rest =>
      rw [Concatenation.render, Concatenation.mentioned, fault?_bind₂, firstUnknown?_append,
        fragment.fault?_render names, Concatenation.fault?_render names rest]

theorem Concatenation.fault?_renderEach (names : NameTable) (items : List (List Fragment)) :
    fault? (Concatenation.renderEach names items) =
      firstUnknown? names (Concatenation.mentionedEach items) := by
  match items with
  | [] => simp [Concatenation.renderEach, Concatenation.mentionedEach, fault?, firstUnknown?]
  | item :: rest =>
      rw [Concatenation.renderEach, Concatenation.mentionedEach, fault?_bind₂, firstUnknown?_append,
        Concatenation.fault?_render names item, Concatenation.fault?_renderEach names rest]
end

/-- The value of a concatenation fails where its text does. -/
theorem Concatenation.fault?_data (names : NameTable) (c : Concatenation) :
    fault? (Concatenation.data names c) = fault? (Concatenation.render names c) := by
  rw [← Field.text_data]
  cases Concatenation.data names c <;> rfl

/-- A concatenation has a value if the names that it is rendered with are known. -/
theorem Concatenation.data_succeeds (names : NameTable) (c : Concatenation) :
    (∃ d, Concatenation.data names c = .ok d) ↔ Known names (Concatenation.mentioned c) := by
  rw [← firstUnknown?_eq_none_iff, ← Concatenation.fault?_render, ← Concatenation.fault?_data]
  cases Concatenation.data names c <;> simp [fault?]

end Conditional

open Conditional (Known)

/-- The default that a concatenation gives: its value, or an omitted one if it is rendered with a
name that is not in the table. -/
def GivesDefault (names : NameTable) (value : Concatenation) (d : MacroData) : Prop :=
  Known names (Concatenation.mentioned value) ∧ Concatenation.data names value = .ok d ∨
    ¬ Known names (Concatenation.mentioned value) ∧ d = .omitted

/-- A concatenation gives one default. -/
theorem GivesDefault.unique {names : NameTable} {value : Concatenation} {d d' : MacroData}
    (h : GivesDefault names value d) (h' : GivesDefault names value d') : d = d' := by
  rcases h with ⟨hknown, h⟩ | ⟨hunknown, rfl⟩ <;> rcases h' with ⟨hknown', h'⟩ | ⟨hunknown', rfl⟩
  · exact Except.ok.inj (h.symm.trans h')
  · exact absurd hknown hunknown'
  · exact absurd hknown' hunknown
  · rfl

/-! ## Operands -/

namespace Operand

/-- There is something in the operand. -/
def HasContent : Operand → Prop
  | .empty _ => False
  | .concatenation c _ => Concatenation.clean c ≠ []
  | _ => True

/-- Apart from fragments without text, the operand is a variable symbol, alone or in front of an
equals sign and a value. -/
inductive Presents : Operand → VariableSymbol → Option Concatenation → Prop where
  | alone {c : Concatenation} {v : VariableSymbol} (range : Range) :
      Concatenation.clean c = [.reference v] → Presents (.concatenation c range) v none
  | valued {c value : Concatenation} {v : VariableSymbol} (range : Range) :
      Concatenation.clean c = .reference v :: .equals :: value →
      Presents (.concatenation c range) v (some value)

/-- The variable symbol of the operand is written and has no subscript, so that it can be declared
under its name. -/
def Declares (o : Operand) (name : NameId) (value : Option Concatenation) : Prop :=
  ∃ place, o.Presents (.named name [] place) value

/-- The operand of a prototype gives the parameter and the complaint, where some names are taken. -/
inductive ReadsAs (names : NameTable) (taken : NameId → Prop) (o : Operand) :
    Parameter → Option Diagnostic → Prop where
  | positional {name : NameId} : o.Declares name none → ¬ taken name →
      ReadsAs names taken o (.positional name) none
  | keyword {name : NameId} {value : Concatenation} {d : MacroData} :
      o.Declares name (some value) → ¬ taken name → GivesDefault names value d →
      ReadsAs names taken o (.keyword name d) none
  | duplicate {name : NameId} {value : Option Concatenation} : o.Declares name value → taken name →
      ReadsAs names taken o .placeholder
        (some ⟨.duplicateSymbolicParameter, ["Symbolic parameter"], o.range⟩)
  | nameless {v : VariableSymbol} {value : Option Concatenation} : o.Presents v value →
      v.plainName? = none →
      ReadsAs names taken o .placeholder
        (some { code := .invalidPrototypeVariable, range := v.range })
  | other : o.HasContent → (∀ v value, ¬ o.Presents v value) →
      ReadsAs names taken o .placeholder
        (some { code := .invalidPrototypeOperand, range := o.range })
  | blank : ¬ o.HasContent → ReadsAs names taken o .placeholder none

variable {names : NameTable} {taken taken' : NameId → Prop} {o : Operand} {param : Parameter}
  {blame : Option Diagnostic} {name : NameId} {v v' : VariableSymbol}
  {value value' : Option Concatenation}

/-- An operand presents one variable symbol at most, with one value at most. -/
theorem Presents.unique (h : o.Presents v value) (h' : o.Presents v' value') :
    v = v' ∧ value = value' := by
  cases h with
  | alone range h =>
      cases h' with
      | alone _ h' => simpa using h.symm.trans h'
      | valued _ h' => simpa using h.symm.trans h'
  | valued range h =>
      cases h' with
      | alone _ h' => simpa using h.symm.trans h'
      | valued _ h' => simpa using h.symm.trans h'

theorem Presents.hasContent (h : o.Presents v value) : o.HasContent := by
  cases h with
  | alone _ h => simp [HasContent, h]
  | valued _ h => simp [HasContent, h]

theorem Declares.unique {name' : NameId} (h : o.Declares name value)
    (h' : o.Declares name' value') :
    name = name' ∧ value = value' := by
  obtain ⟨place, h⟩ := h
  obtain ⟨place', h'⟩ := h'
  obtain ⟨heq, hvalue⟩ := h.unique h'
  cases heq
  exact ⟨rfl, hvalue⟩

theorem plainName?_eq_some_iff : v.plainName? = some name ↔ ∃ place, v = .named name [] place := by
  cases v with
  | named name' subscript place => cases subscript <;> simp [VariableSymbol.plainName?,
      VariableSymbol.subscript, VariableSymbol.name?]
  | created => simp [VariableSymbol.plainName?, VariableSymbol.name?]

namespace ReadsAs

/-- Only the names that are taken matter. -/
theorem congr (h : ReadsAs names taken o param blame) (htaken : ∀ n, taken n ↔ taken' n) :
    ReadsAs names taken' o param blame := by
  obtain rfl : taken = taken' := funext fun n => propext (htaken n)
  exact h

/-- How an operand is read that declares a name. -/
theorem of_declares (h : ReadsAs names taken o param blame) (hdeclares : o.Declares name value) :
    taken name ∧ param = .placeholder ∨
      ¬ taken name ∧ (value = none ∧ param = .positional name ∨
        ∃ c d, value = some c ∧ GivesDefault names c d ∧ param = .keyword name d) := by
  cases h with
  | positional hdeclares' hfree =>
      obtain ⟨rfl, rfl⟩ := hdeclares.unique hdeclares'
      exact .inr ⟨hfree, .inl ⟨rfl, rfl⟩⟩
  | keyword hdeclares' hfree hdefault =>
      obtain ⟨rfl, rfl⟩ := hdeclares.unique hdeclares'
      exact .inr ⟨hfree, .inr ⟨_, _, rfl, hdefault, rfl⟩⟩
  | duplicate hdeclares' htaken =>
      obtain ⟨rfl, rfl⟩ := hdeclares.unique hdeclares'
      exact .inl ⟨htaken, rfl⟩
  | nameless hpresents hplain =>
      obtain ⟨place, hdeclares⟩ := hdeclares
      obtain ⟨rfl, -⟩ := hpresents.unique hdeclares
      cases hplain
  | other _ hnone =>
      obtain ⟨place, hdeclares⟩ := hdeclares
      exact absurd hdeclares (hnone _ _)
  | blank hblank =>
      obtain ⟨place, hdeclares⟩ := hdeclares
      exact absurd hdeclares.hasContent hblank

theorem positional_iff (h : ReadsAs names taken o param blame) :
    param = .positional name ↔ o.Declares name none ∧ ¬ taken name := by
  constructor
  · rintro rfl
    cases h with
    | positional hdeclares hfree => exact ⟨hdeclares, hfree⟩
  · rintro ⟨hdeclares, hfree⟩
    obtain ⟨htaken, -⟩ | ⟨-, ⟨-, hparam⟩ | ⟨_, _, hvalue, -⟩⟩ := h.of_declares hdeclares
    · exact absurd htaken hfree
    · exact hparam
    · cases hvalue

theorem keyword_iff (h : ReadsAs names taken o param blame) {d : MacroData} :
    param = .keyword name d ↔
      ∃ value, o.Declares name (some value) ∧ ¬ taken name ∧ GivesDefault names value d := by
  constructor
  · rintro rfl
    cases h with
    | keyword hdeclares hfree hdefault => exact ⟨_, hdeclares, hfree, hdefault⟩
  · rintro ⟨value, hdeclares, hfree, hdefault⟩
    obtain ⟨htaken, -⟩ | ⟨-, ⟨hvalue, -⟩ | ⟨_, d', hvalue, hdefault', rfl⟩⟩ :=
      h.of_declares hdeclares
    · exact absurd htaken hfree
    · cases hvalue
    · cases hvalue
      rw [hdefault.unique hdefault']

/-- A placeholder is left exactly if nothing is declared. -/
theorem placeholder_iff (h : ReadsAs names taken o param blame) :
    param = .placeholder ↔ ∀ name value, o.Declares name value → taken name := by
  constructor
  · rintro rfl name value hdeclares
    obtain ⟨htaken, -⟩ | ⟨-, ⟨-, hparam⟩ | ⟨_, _, -, -, hparam⟩⟩ := h.of_declares hdeclares
    · exact htaken
    · cases hparam
    · cases hparam
  · intro hall
    cases h with
    | positional hdeclares hfree => exact absurd (hall _ _ hdeclares) hfree
    | keyword hdeclares hfree _ => exact absurd (hall _ _ hdeclares) hfree
    | duplicate | nameless | other | blank => rfl

/-- There is a complaint exactly about an operand with something in it that leaves a placeholder. -/
theorem blame_iff (h : ReadsAs names taken o param blame) :
    blame.isSome ↔ o.HasContent ∧ param = .placeholder := by
  cases h with
  | positional | keyword => simp
  | duplicate hdeclares =>
      obtain ⟨place, hdeclares⟩ := hdeclares
      exact iff_of_true rfl ⟨hdeclares.hasContent, rfl⟩
  | nameless hpresents => exact iff_of_true rfl ⟨hpresents.hasContent, rfl⟩
  | other hcontent => exact iff_of_true rfl ⟨hcontent, rfl⟩
  | blank hblank => simp [hblank]

/-- A parameter has a name that was not taken. -/
theorem not_taken (h : ReadsAs names taken o param blame) (hname : param.name? = some name) :
    ¬ taken name := by
  cases h with
  | positional _ hfree | keyword _ hfree _ =>
      cases hname
      exact hfree
  | duplicate | nameless | other | blank => cases hname

/-- A name is taken behind an operand if it was before or the operand declares it. -/
theorem taken_iff (h : ReadsAs names taken o param blame) (name : NameId) :
    taken name ∨ param.name? = some name ↔ taken name ∨ ∃ value, o.Declares name value := by
  refine or_congr_right' fun hfree => ⟨fun hname => ?_, fun ⟨value, hdeclares⟩ => ?_⟩
  · cases h with
    | positional hdeclares _ | keyword hdeclares _ _ =>
        cases hname
        exact ⟨_, hdeclares⟩
    | duplicate | nameless | other | blank => cases hname
  · obtain ⟨htaken, -⟩ | ⟨-, ⟨-, rfl⟩ | ⟨_, _, -, -, rfl⟩⟩ := h.of_declares hdeclares
    · exact absurd htaken hfree
    · rfl
    · rfl

end ReadsAs

end Operand

/-! ## Prototypes -/

/-- The operands of a prototype give the parameters and the complaints, one after the other, where
some names are taken. -/
inductive OperandsReadAs (names : NameTable) :
    (NameId → Prop) → List Operand → List Parameter → List (Option Diagnostic) → Prop where
  | nil (taken : NameId → Prop) : OperandsReadAs names taken [] [] []
  | cons {taken : NameId → Prop} {o : Operand} {param : Parameter} {blame : Option Diagnostic}
      {os : List Operand} {params : List Parameter} {blames : List (Option Diagnostic)} :
      o.ReadsAs names taken param blame →
      OperandsReadAs names (fun name => taken name ∨ param.name? = some name) os params blames →
      OperandsReadAs names taken (o :: os) (param :: params) (blame :: blames)

namespace OperandsReadAs

variable {names : NameTable} {taken : NameId → Prop} {os : List Operand} {params : List Parameter}
  {blames : List (Option Diagnostic)}

theorem length_eq (h : OperandsReadAs names taken os params blames) :
    params.length = os.length ∧ blames.length = os.length := by
  induction h with
  | nil => exact ⟨rfl, rfl⟩
  | cons _ _ ih => simp [ih]

/-- The parameters have different names, none of which was taken. -/
theorem nodup (h : OperandsReadAs names taken os params blames) :
    (params.filterMap (·.name?)).Nodup ∧ ∀ name ∈ params.filterMap (·.name?), ¬ taken name := by
  induction h with
  | nil => simp
  | @cons taken o param blame os params blames hfirst _ ih =>
      obtain ⟨hnodup, hfree⟩ := ih
      cases hname : param.name? with
      | none =>
          rw [List.filterMap_cons_none hname]
          exact ⟨hnodup, fun name hmem htaken => hfree name hmem (.inl htaken)⟩
      | some name =>
          rw [List.filterMap_cons_some hname]
          refine ⟨List.nodup_cons.2 ⟨fun hmem => hfree name hmem (.inr hname), hnodup⟩, ?_⟩
          intro name' hmem htaken
          rcases List.mem_cons.1 hmem with rfl | hmem
          · exact hfirst.not_taken hname htaken
          · exact hfree name' hmem (.inl htaken)

/-- Each operand is read where the names are taken that the operands before it declare. -/
theorem getElem? (h : OperandsReadAs names taken os params blames) {i : Nat} {o : Operand}
    {param : Parameter} {blame : Option Diagnostic} (ho : os[i]? = some o)
    (hparam : params[i]? = some param) (hblame : blames[i]? = some blame) :
    o.ReadsAs names (fun name => taken name ∨ ∃ o' ∈ os.take i, ∃ value, o'.Declares name value)
      param blame := by
  induction h generalizing i with
  | nil => simp at ho
  | @cons taken o' param' blame' os params blames hfirst _ ih =>
      cases i with
      | zero =>
          cases ho
          cases hparam
          cases hblame
          exact hfirst.congr fun name => by simp
      | succ i =>
          refine (ih ho hparam hblame).congr fun name => ?_
          dsimp only
          rw [hfirst.taken_iff, List.take_succ_cons, List.exists_mem_cons_iff, or_assoc]

end OperandsReadAs

namespace Collector

variable {declared : List NameId} {v : VariableSymbol} {range : Range}

/-- A variable symbol is declared if it is written, has no subscript, and its name is free. -/
theorem declare_cases (v : VariableSymbol) (range : Range) (declared : List NameId) :
    (∃ name place, v = .named name [] place ∧ name ∉ declared ∧
        declare v range declared = .ok name) ∨
      (∃ name place, v = .named name [] place ∧ name ∈ declared ∧ declare v range declared =
        .error ⟨.duplicateSymbolicParameter, ["Symbolic parameter"], range⟩) ∨
      v.plainName? = none ∧ declare v range declared =
        .error { code := .invalidPrototypeVariable, range := v.range } := by
  unfold declare
  cases hplain : v.plainName? with
  | none => exact .inr (.inr ⟨rfl, rfl⟩)
  | some name =>
      obtain ⟨place, rfl⟩ := Operand.plainName?_eq_some_iff.1 hplain
      by_cases hmem : name ∈ declared
      · exact .inr (.inl ⟨name, place, rfl, hmem, if_pos hmem⟩)
      · exact .inl ⟨name, place, rfl, hmem, if_neg hmem⟩

theorem defaultData_gives (a : Assembly) (value : Concatenation) :
    GivesDefault a.names value (defaultData a value).1 ∧
    (defaultData a value).2.names = a.names := by
  have hsucceeds := Concatenation.data_succeeds a.names value
  unfold defaultData
  cases hdata : Concatenation.data a.names value with
  | ok d => exact ⟨.inl ⟨hsucceeds.1 ⟨d, hdata⟩, hdata⟩, rfl⟩
  | error e =>
      refine ⟨.inr ⟨fun hknown => ?_, rfl⟩, rfl⟩
      obtain ⟨d, hd⟩ := hsucceeds.2 hknown
      cases hdata.symm.trans hd

/-- One operand is read by the rules, and the names stay. -/
theorem readParameter_readsAs (a : Assembly) (declared : List NameId) (o : Operand) :
    ∃ blame : Option Diagnostic, (readParameter a declared o).2.1 = blame.toList ∧
      (readParameter a declared o).2.2.names = a.names ∧
      o.ReadsAs a.names (· ∈ declared) (readParameter a declared o).1 blame := by
  cases o with
  | empty range => exact ⟨none, rfl, rfl, .blank id⟩
  | machine | expr => exact ⟨some _, rfl, rfl, .other trivial fun v value h => by cases h⟩
  | concatenation c range =>
      unfold readParameter
      dsimp only
      split
      · rename_i hclean
        exact ⟨none, rfl, rfl, .blank fun hcontent => hcontent hclean⟩
      · rename_i v hclean
        have hpresents : (Operand.concatenation c range).Presents v none := .alone range hclean
        obtain ⟨name, place, rfl, hfree, heq⟩ | ⟨name, place, rfl, htaken, heq⟩ | ⟨hplain, heq⟩ :=
          declare_cases v range declared
        · rw [heq]
          exact ⟨none, rfl, rfl, .positional ⟨place, hpresents⟩ hfree⟩
        · rw [heq]
          exact ⟨some _, rfl, rfl, .duplicate ⟨place, hpresents⟩ htaken⟩
        · rw [heq]
          exact ⟨some _, rfl, rfl, .nameless hpresents hplain⟩
      · rename_i v value hclean
        have hpresents : (Operand.concatenation c range).Presents v (some value) :=
          .valued range hclean
        obtain ⟨hdefault, hnames⟩ := defaultData_gives a value
        obtain ⟨name, place, rfl, hfree, heq⟩ | ⟨name, place, rfl, htaken, heq⟩ | ⟨hplain, heq⟩ :=
          declare_cases v range declared
        · rw [heq]
          exact ⟨none, rfl, hnames, .keyword ⟨place, hpresents⟩ hfree hdefault⟩
        · rw [heq]
          exact ⟨some _, rfl, rfl, .duplicate ⟨place, hpresents⟩ htaken⟩
        · rw [heq]
          exact ⟨some _, rfl, rfl, .nameless hpresents hplain⟩
      · rename_i hnil halone hvalued
        refine ⟨some _, rfl, rfl, .other hnil fun v value h => ?_⟩
        cases h with
        | alone _ hclean => exact halone v hclean
        | valued _ hclean => exact hvalued v _ hclean

/-- All operands are read by the rules, and the names stay. -/
theorem readParameters_readAs (a : Assembly) (declared : List NameId) (os : List Operand) :
    ∃ blames, (readParameters a declared os).2.1 = blames.reduceOption ∧
      (readParameters a declared os).2.2.names = a.names ∧
      OperandsReadAs a.names (· ∈ declared) os (readParameters a declared os).1 blames := by
  induction os generalizing a declared with
  | nil => exact ⟨[], rfl, rfl, .nil _⟩
  | cons o os ih =>
      obtain ⟨blame, hblame, hnames, hfirst⟩ := readParameter_readsAs a declared o
      rw [readParameters]
      generalize readParameter a declared o = first at hblame hnames hfirst
      obtain ⟨param, faults, b⟩ := first
      obtain ⟨blames, hblames, hnames', hrest⟩ := ih b (declared ++ param.name?.toList)
      dsimp only at hblame hnames hfirst hrest ⊢
      have htaken : (fun name => name ∈ declared ∨ param.name? = some name) =
          fun name => name ∈ declared ++ param.name?.toList := by
        funext name
        simp
      refine ⟨blame :: blames, ?_, hnames'.trans hnames, .cons hfirst ?_⟩
      · rw [hblame, hblames]
        cases blame <;> rfl
      · rw [htaken, ← hnames]
        exact hrest

/-- No operand of a prototype is a fault where it is read. -/
theorem read_macroOperands (s : Statement OperandField) (a : Assembly) :
    (a.read s .macroOperands).2.1 = [] := by
  have hoperand (names : NameTable) (p : Piece) :
      ∃ o names', Field.readOperand .macroOperands names p = (.ok o, names') := by
    unfold Field.readOperand
    split <;> exact ⟨_, _, rfl⟩
  have hoperands (names : NameTable) (ps : List Piece) :
      (Field.readOperands .macroOperands names ps).2.1 = [] := by
    induction ps generalizing names with
    | nil => rfl
    | cons p ps ih =>
        obtain ⟨o, names', heq⟩ := hoperand names p
        rw [Field.readOperands, heq]
        exact ih names'
  unfold Assembly.read Statement.read
  cases s.operands with
  | operands list => rfl
  | text field range => exact hoperands _ _

/-- The label of a prototype is a parameter if it is a variable symbol that is written and has no
subscript. -/
theorem labelParameter_eq_some_iff {label : Label} {name : NameId} :
    (labelParameter label).1 = some name ↔ ∃ place, label = .reference (.named name [] place) := by
  unfold labelParameter
  split
  · simp
  · rename_i v
    simp only [Label.reference.injEq, ← Operand.plainName?_eq_some_iff]
    cases v.plainName? <;> simp
  · rename_i hempty hreference
    refine iff_of_false (by simp) fun ⟨place, heq⟩ => hreference _ heq

/-- A name is declared by the label of a prototype or by one of the operands. -/
def DeclaredBy (label : Label) (os : List Operand) (name : NameId) : Prop :=
  (∃ place, label = .reference (.named name [] place)) ∨
    ∃ o ∈ os, ∃ value, o.Declares name value

/-- A prototype is read off a label and operands, with those names in the table and one place for a
complaint about each operand. -/
structure ReadOff (names : NameTable) (label : Label) (os : List Operand) (p : Prototype)
    (blames : List (Option Diagnostic)) : Prop where
  params_length : p.params.length = os.length
  blames_length : blames.length = os.length
  nodup : p.declared.Nodup
  label_iff : ∀ name, p.label = some name ↔ ∃ place, label = .reference (.named name [] place)
  /-- An operand is read where the label and the operands before it have declared their names. -/
  reads : ∀ {i : Nat} {o : Operand} {param : Parameter} {blame : Option Diagnostic},
    os[i]? = some o → p.params[i]? = some param → blames[i]? = some blame →
      o.ReadsAs names (DeclaredBy label (os.take i)) param blame

/-- The prototype of a definition is read off its label and operands, and there is no complaint
apart from those about them. -/
theorem readPrototype_readOff (c : Collector) (a : Assembly) (s : Statement OperandField) :
    ∃ p blames a', c.readPrototype a s =
        ({ c with
            expectsPrototype := false
            definition := { c.definition with prototype := p }
            diagnostics :=
              c.diagnostics ++ (labelParameter s.label).2 ++ blames.reduceOption }, a') ∧
      p.name = s.opcode.name ∧
      ReadOff (a.read s .macroOperands).2.2.names s.label (a.read s .macroOperands).1.operands p
        blames := by
  have hfaults := read_macroOperands s a
  have hlabel : (a.read s .macroOperands).1.label = s.label := s.label_read _ a.names
  have hopcode : (a.read s .macroOperands).1.opcode = s.opcode := s.opcode_read _ a.names
  unfold readPrototype
  generalize a.read s .macroOperands = read at hfaults hlabel hopcode
  obtain ⟨st, faults, b⟩ := read
  dsimp only at hfaults hlabel hopcode ⊢
  subst hfaults
  rw [hlabel, hopcode]
  obtain ⟨blames, hblames, -, hread⟩ :=
    readParameters_readAs b (labelParameter s.label).1.toList st.operands
  obtain ⟨hparams, hlength⟩ := hread.length_eq
  obtain ⟨hnodup, hfree⟩ := hread.nodup
  have hlabel' : (labelParameter s.label).1.toList.Nodup := by
    cases (labelParameter s.label).1 <;> simp
  refine ⟨_, blames, _, by rw [hblames, List.append_nil], rfl, hparams, hlength, ?_,
    fun name => labelParameter_eq_some_iff, fun ho hparam hblame => ?_⟩
  · refine List.nodup_append.2 ⟨hnodup, hlabel', fun name hname name' hname' heq => ?_⟩
    exact hfree name hname (heq ▸ hname')
  · refine (hread.getElem? ho hparam hblame).congr fun name => or_congr_left ?_
    exact Option.mem_toList.trans labelParameter_eq_some_iff

/-- The name of a macro, and the table that has it: what its operation field is rendered as, if that
is not empty and can be rendered. -/
def macroName (names : NameTable) : Operation → NameId × NameTable
  | .ordinary id _ => (id, names)
  | .empty _ => names.insert missingName
  | .concatenation chain _ =>
      match Concatenation.render names chain with
      | .ok text => names.insert text
      | .error _ => names.insert missingName

/-- A statement is the prototype of a definition: it names the macro, and the parameters are read
off its label and its operands. -/
def IsPrototype (names : NameTable) (st : Statement OperandField) (p : Prototype) : Prop :=
  let (id, named) := macroName names st.operation
  let (read, _, known) := st.read .macroOperands named
  p.name = some id ∧ ∃ blames, ReadOff known st.label read.operands p blames

/-- What a definition reads its first statement as is the prototype that this statement declares. -/
theorem isPrototype_prototypeOf (a : Assembly) (st : Statement OperandField) :
    IsPrototype a.names st (prototypeOf a st) := by
  let c : Collector := { definition := {} }
  obtain ⟨id, ds, b, hname, hreading⟩ : ∃ id ds b, macroName a.names st.operation = (id, b.names) ∧
      c.prototypeReading a st.operation =
        ({ reader := .definition, form := .macroOperands, opcode := ⟨some id, .definedMacro⟩ },
          c.complain ds, b) := by
    unfold macroName prototypeReading
    cases st.operation with
    | ordinary id => exact ⟨id, [], a, rfl, rfl⟩
    | empty range => exact ⟨_, [{ code := .missingMacroName, range }], _, rfl, rfl⟩
    | concatenation chain range =>
        dsimp only
        cases Concatenation.render a.names chain <;> exact ⟨_, [], _, rfl, rfl⟩
  have htake : prototypeOf a st = ((c.complain ds).readPrototype
      (b.report (.statementRead .definition st.range .macroOperands))
      { st with opcode := ⟨some id, .definedMacro⟩ }).1.definition.prototype := by
    unfold prototypeOf take reading
    rw [if_pos rfl, hreading]
    rfl
  obtain ⟨p, blames, a', hread, hid, hoff⟩ := (c.complain ds).readPrototype_readOff
    (b.report (.statementRead .definition st.range .macroOperands))
    { st with opcode := ⟨some id, .definedMacro⟩ }
  unfold IsPrototype
  rw [htake, hread, hname]
  refine ⟨hid, blames, ?_⟩
  -- the operation code has no part in the reading of the operands
  unfold Assembly.read Statement.read at hoff
  cases hoperands : st.operands <;> rw [hoperands] at hoff <;> exact hoff

/-- The first statement of a definition is read as its prototype. There is one parameter for each
operand, in order, and one place for a complaint about it, and no two parameters have the same
name, the one for the label included. An operand gives a positional parameter exactly if, apart
from fragments without text, it is a variable symbol that is written, has no subscript and stands
alone, and neither the label nor an operand before it declares that name. It gives a keyword
exactly if an equals sign follows the symbol; what is behind that sign is the default, which is
omitted if it mentions a name that is not in the table. Every other operand leaves a placeholder.
There is one complaint about each operand with something in it that leaves a placeholder, and no
other complaint apart from that about the label. -/
theorem prototype_declares {c : Collector} (hopen : c.finished = false)
    (hfirst : c.expectsPrototype = true) (a : Assembly) (s : Statement OperandField) :
    ∃ (c' : Collector) (a' : Assembly) (blames : List (Option Diagnostic)),
      c.process a s = .ok (c', a') ∧
      let p := c'.definition.prototype
      let os := (a.read s .macroOperands).1.operands
      let names := (a.read s .macroOperands).2.2.names
      p.params.length = os.length ∧ blames.length = os.length ∧ p.declared.Nodup ∧
      (∀ name, p.label = some name ↔ ∃ place, s.label = .reference (.named name [] place)) ∧
      (∀ (i : Nat) (o : Operand) (param : Parameter) (blame : Option Diagnostic),
        os[i]? = some o → p.params[i]? = some param → blames[i]? = some blame →
        (∀ name, param = .positional name ↔
          o.Declares name none ∧ ¬ DeclaredBy s.label (os.take i) name) ∧
        (∀ name d, param = .keyword name d ↔ ∃ value, o.Declares name (some value) ∧
          ¬ DeclaredBy s.label (os.take i) name ∧ GivesDefault names value d) ∧
        (param = .placeholder ↔
          ∀ name value, o.Declares name value → DeclaredBy s.label (os.take i) name) ∧
        (blame.isSome ↔ o.HasContent ∧ param = .placeholder) ∧
        o.ReadsAs names (DeclaredBy s.label (os.take i)) param blame) ∧
      c'.diagnostics = c.diagnostics ++ (labelParameter s.label).2 ++ blames.reduceOption := by
  obtain ⟨p, blames, a', hread, -, hoff⟩ := c.readPrototype_readOff a s
  have hprocess := process_of_open hopen a s
  rw [hfirst, if_pos rfl, hread] at hprocess
  refine ⟨_, a', blames, hprocess, hoff.params_length, hoff.blames_length, hoff.nodup,
    hoff.label_iff, fun i o param blame ho hparam hblame => ?_, rfl⟩
  have hreads := hoff.reads ho hparam hblame
  exact ⟨fun name => hreads.positional_iff, fun name d => hreads.keyword_iff,
    hreads.placeholder_iff, hreads.blame_iff, hreads⟩

/-- `&L M &P,&K=1,,&K,&S(2),X,&D=&U,&L`, where the name U of the default of D is not in the
table. -/
def crowdedPrototype : Statement OperandField :=
  let symbol (n : Nat) : Fragment := .reference (.named ⟨n⟩ [] {})
  let operand (c : Concatenation) : Operand := .concatenation c {}
  { label := .reference (.named ⟨0⟩ [] {})
    operation := .ordinary ⟨5⟩ {}
    opcode := {}
    operands := .operands
      [operand [symbol 1], operand [symbol 2, .equals, .text "1"], .empty {}, operand [symbol 2],
        operand [.reference (.named ⟨3⟩ [.number 2 {}] {})], operand [.text "", .text "X"],
        operand [symbol 4, .equals, symbol 9], operand [symbol 0]]
    range := {} }

/-- Three of the operands declare a parameter, and there is a complaint about each of the others but
the empty one. -/
theorem crowdedPrototype_declares :
    let c : Collector := { definition := {} }
    let a : Assembly := { names := .ofList ["L", "P", "K", "S", "D", "M"] }
    c.finished = false ∧ c.expectsPrototype = true ∧
    ∃ (c' : Collector) (a' : Assembly) (blames : List (Option Diagnostic)),
      c.process a crowdedPrototype = .ok (c', a') ∧
      c'.definition.prototype.declared.Nodup ∧ c'.definition.prototype.label = some ⟨0⟩ ∧
      c'.definition.prototype.params =
        [.positional ⟨1⟩, .keyword ⟨2⟩ (.single "1"), .placeholder, .placeholder, .placeholder,
          .placeholder, .keyword ⟨4⟩ .omitted, .placeholder] ∧
      blames.length = 8 ∧ c'.diagnostics = blames.reduceOption ∧
      c'.diagnostics.map (·.code) = [.duplicateSymbolicParameter, .invalidPrototypeVariable,
        .invalidPrototypeOperand, .duplicateSymbolicParameter] := by
  intro c a
  obtain ⟨c', a', blames, hok, -, hlength, hnodup, hlabel, -, hdiagnostics⟩ :=
    prototype_declares (c := c) rfl rfl a crowdedPrototype
  have hparams : (c.process a crowdedPrototype).map (·.1.definition.prototype.params) = .ok
      [.positional ⟨1⟩, .keyword ⟨2⟩ (.single "1"), .placeholder, .placeholder, .placeholder,
        .placeholder, .keyword ⟨4⟩ .omitted, .placeholder] := by cbv
  have hcodes : (c.process a crowdedPrototype).map (·.1.diagnostics.map (·.code)) = .ok
      [.duplicateSymbolicParameter, .invalidPrototypeVariable, .invalidPrototypeOperand,
        .duplicateSymbolicParameter] := by rfl
  rw [hok] at hparams hcodes
  exact ⟨rfl, rfl, c', a', blames, hok, hnodup, (hlabel ⟨0⟩).2 ⟨{}, rfl⟩, Except.ok.inj hparams,
    hlength, hdiagnostics, Except.ok.inj hcodes⟩

end Collector

end MacroAssembler
