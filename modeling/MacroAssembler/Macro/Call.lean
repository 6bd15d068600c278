import MacroAssembler.Diagnostic
import MacroAssembler.Macro.Definition

/-!
# Macro calls

The arguments of a call are bound to the parameters of the macro. Positional arguments fill the
positional parameters and placeholders in order; the surplus is reached through the list of
arguments only. A keyword argument replaces the default of its parameter. A keyword that the
prototype does not declare is reported, and the argument is taken as a positional one.
-/

namespace MacroAssembler

/-- An argument of a call. -/
inductive Argument where
  | positional (value : MacroData)
  | keyword (name : NameId) (value : MacroData)

/-- A call with its arguments bound. -/
structure MacroCall where
  name : NameId
  params : Bindings NameId MacroData
  /-- The name field, followed by all positional arguments. -/
  syslist : List MacroData

namespace Prototype

/-- The keyword parameters with their defaults. -/
def defaults (p : Prototype) : Bindings NameId MacroData :=
  p.params.foldl (fun b param =>
    match param with
    | .keyword name value => b.set name value
    | _ => b) []

/-- The parameters that positional arguments fill, in order. -/
def slots (p : Prototype) : List Parameter := p.params.filter fun param => !param.isKeyword

/-- The prototype has a keyword parameter of that name. -/
def declares (p : Prototype) (name : NameId) : Bool :=
  p.params.any fun param => param.isKeyword && param.name? == some name

end Prototype

/-- The arguments of a call, sorted: what keywords bind, the positional arguments in order, and
the complaints about undeclared keywords. -/
structure SortedArguments where
  keywords : Bindings NameId MacroData
  positional : List MacroData := []
  diagnostics : List Diagnostic := []

namespace SortedArguments

/-- Add an argument that stands at a range. -/
def add (p : Prototype) (names : NameTable) (s : SortedArguments) (argument : Argument × Range) :
    SortedArguments :=
  match argument with
  | (.positional value, _) => { s with positional := s.positional ++ [value] }
  | (.keyword name value, range) =>
      if p.declares name then { s with keywords := s.keywords.set name value }
      else
        let key := names.nameOf name
        { s with
          positional := s.positional ++ [.single (key ++ "=" ++ value.text)]
          diagnostics := s.diagnostics ++ [⟨.unknownKeywordParameter, [key], range⟩] }

/-- Sort the arguments of a call. -/
def ofList (p : Prototype) (names : NameTable) (args : List (Argument × Range)) :
    SortedArguments :=
  args.foldl (add p names) { keywords := p.defaults }

end SortedArguments

/-- Bind a slot to a value; a placeholder binds nothing. -/
def bindSlot (b : Bindings NameId MacroData) (slot : Parameter) (value : MacroData) :
    Bindings NameId MacroData :=
  match slot.name? with
  | some name => b.set name value
  | none => b

/-- Let each positional argument take the next slot. An argument that comes behind the last slot
takes none. The slots that are left come with the bindings. -/
def fillSlots (b : Bindings NameId MacroData) (slots : List Parameter) :
    List MacroData → Bindings NameId MacroData × List Parameter
  | [] => (b, slots)
  | value :: values =>
      match slots with
      | slot :: slots => fillSlots (bindSlot b slot value) slots values
      | [] => fillSlots b [] values

/-- Bind the slots that no argument has taken to omitted arguments. -/
def omitSlots (b : Bindings NameId MacroData) (slots : List Parameter) :
    Bindings NameId MacroData :=
  slots.foldl (fun b slot => bindSlot b slot .omitted) b

/-- Bind the arguments of a call of the macro with a name. -/
def MacroDefinition.call (d : MacroDefinition) (name : NameId) (label : MacroData)
    (args : List (Argument × Range)) (names : NameTable) : MacroCall × List Diagnostic :=
  let sorted := SortedArguments.ofList d.prototype names args
  let (params, slots) := fillSlots sorted.keywords d.prototype.slots sorted.positional
  let params := omitSlots params slots
  let params := match d.prototype.label with
    | some param => params.set param label
    | none => params
  (⟨name, params, label :: sorted.positional⟩, sorted.diagnostics)

/-- The places, counted from 1, of the positional arguments of a call that no slot takes. -/
def MacroDefinition.surplus (d : MacroDefinition) (c : MacroCall) : List Nat :=
  (List.range (c.syslist.length - 1 - d.prototype.slots.length)).map fun n =>
    d.prototype.slots.length + n + 1

end MacroAssembler
