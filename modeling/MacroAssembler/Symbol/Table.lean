import MacroAssembler.Symbol.Address
import MacroAssembler.Symbol.Expr

/-!
# The symbol table

What is known about symbols and spaces, and what follows from it: the address with all known
lengths added, the value of an expression, and the symbols and spaces an expression still waits
for. An expression that waits for nothing has a value or an error, and neither depends on what is
learned later.
-/

namespace MacroAssembler

/-- The value of an ordinary symbol. -/
inductive SymbolValue where
  | absolute (i : Int32)
  | relocatable (a : Address)
  /-- The symbol is defined, but its value waits for others. -/
  | undefined
  deriving DecidableEq

/-- The kind of statement that defined a symbol. -/
inductive SymbolOrigin where
  | machine
  | equate
  | storage
  deriving DecidableEq

/-- What a definition says about a symbol besides its value. -/
structure SymbolAttributes where
  length : Option Nat
  type : Char
  origin : SymbolOrigin
  deriving DecidableEq

namespace SymbolAttributes

/-- The attributes of the label of a machine instruction. -/
def machine (length : Nat) : SymbolAttributes := ⟨some length, 'I', .machine⟩

/-- The attributes of an equated symbol. -/
def equate (length : Option Nat) : SymbolAttributes := ⟨length, 'U', .equate⟩

/-- The attributes of the label of a storage area. -/
def storage (length : Option Nat) : SymbolAttributes := ⟨length, 'F', .storage⟩

end SymbolAttributes

/-- An ordinary symbol. -/
structure OrdinarySymbol where
  name : NameId
  value : SymbolValue
  attributes : SymbolAttributes
  location : Location
  deriving DecidableEq

/-- What kind of length a space stands for. -/
inductive SpaceKind where
  /-- The padding that aligns the place `anchor`. -/
  | alignment (anchor : Address) (alignment : Alignment)
  /-- The value of an expression. -/
  | length
  deriving DecidableEq

/-- A stretch of the section, with its length once that is known. -/
structure Space where
  kind : SpaceKind
  length : Option Int32 := none
  deriving DecidableEq

/-- Something that can be waited for: the value of a symbol, or the length of a space. -/
inductive Unknown where
  | symbol (name : NameId)
  | space (id : SpaceId)
  deriving DecidableEq

namespace Unknown

/-- The names of symbols among unknowns, in the order of their numbers and each once. -/
def names (us : List Unknown) : List NameId :=
  let ids := us.filterMap fun
    | symbol name => some name
    | space _ => none
  ids.eraseDups.mergeSort fun a b => a.index ≤ b.index

/-- The spaces among unknowns, in the order of their numbers and each once. -/
def spaces (us : List Unknown) : List SpaceId :=
  let ids := us.filterMap fun
    | symbol _ => none
    | space id => some id
  ids.eraseDups.mergeSort fun a b => a.index ≤ b.index

end Unknown

/-- Why an expression has no value. -/
inductive ValueError where
  | undefinedSymbol (name : NameId)
  /-- Only numbers can be negated, multiplied and divided. -/
  | relocatableOperand (op : ArithmeticOp)
  /-- The operation makes no sense of the addresses. -/
  | incompatibleAddresses
  deriving DecidableEq

/-- The failure in words. -/
def ValueError.message (names : NameTable) : ValueError → Except UnknownName String
  | undefinedSymbol name => do
      let text ← names.get name
      return "Undefined symbol " ++ text
  | relocatableOperand op => .ok ("Operand of " ++ op.text ++ " must be absolute")
  | incompatibleAddresses => .ok "Addresses cannot be combined"

/-- The symbols in the order of definition, and the spaces by their numbers. -/
structure SymbolTable where
  symbols : List OrdinarySymbol := []
  spaces : Array Space := #[]
  deriving DecidableEq

namespace SymbolTable

/-- The symbol with a name. -/
def symbol? (t : SymbolTable) (name : NameId) : Option OrdinarySymbol :=
  t.symbols.find? (·.name == name)

/-- A symbol of that name is defined, with or without a value. -/
def defines (t : SymbolTable) (name : NameId) : Bool := (t.symbol? name).isSome

/-- The value of a symbol; one that is not defined has none. -/
def valueOf (t : SymbolTable) (name : NameId) : SymbolValue :=
  match t.symbol? name with
  | some s => s.value
  | none => .undefined

/-- The length of a space, once it is known. -/
def length? (t : SymbolTable) (s : SpaceId) : Option Int32 :=
  t.spaces[s.index]?.bind (·.length)

/-- The address with every known length added to its offset. -/
def normalize (t : SymbolTable) (a : Address) : Address where
  offset := a.offset + (a.spaces.filterMap t.length?).sum
  spaces := a.spaces.filter fun s => (t.length? s).isNone

/-- The spaces whose lengths an address lacks. -/
def unknownsOfAddress (t : SymbolTable) (a : Address) : List Unknown :=
  (t.normalize a).spaces.map .space

/-- What the value of a symbol waits for. -/
def unknownsOfSymbol (t : SymbolTable) (name : NameId) : List Unknown :=
  match t.valueOf name with
  | .absolute _ => []
  | .relocatable a => t.unknownsOfAddress a
  | .undefined => [.symbol name]

/-- What the value of an expression waits for. -/
def unknowns (t : SymbolTable) : OrdinaryExpr NameId → List Unknown
  | .constant _ _ => []
  | .symbol name _ => t.unknownsOfSymbol name
  | .negate e _ => t.unknowns e
  | .binary _ l r _ => t.unknowns l ++ t.unknowns r

/-- The result of an operation on two values. Addresses can be moved by a number, and subtracted
from each other if the same spaces lie before both. -/
def combine (op : ArithmeticOp) (l r : SymbolValue) : Except ValueError SymbolValue :=
  match l, r with
  | .undefined, _ => .error .incompatibleAddresses
  | _, .undefined => .error .incompatibleAddresses
  | .absolute l, .absolute r => .ok (.absolute (op.apply l r))
  | .relocatable a, .absolute i =>
      match op with
      | .add => .ok (.relocatable (a.shift i))
      | .sub => .ok (.relocatable (a.shift (-i)))
      | op => .error (.relocatableOperand op)
  | .absolute i, .relocatable a =>
      match op with
      | .add => .ok (.relocatable (a.shift i))
      | .sub => .error .incompatibleAddresses
      | op => .error (.relocatableOperand op)
  | .relocatable a, .relocatable b =>
      match op with
      | .add => .error .incompatibleAddresses
      | .sub =>
          if a.sameSpaces b then .ok (.absolute (a.offset - b.offset))
          else .error .incompatibleAddresses
      | op => .error (.relocatableOperand op)

/-- The value of an expression. -/
def evaluate (t : SymbolTable) : OrdinaryExpr NameId → Except ValueError SymbolValue
  | .constant i _ => .ok (.absolute i)
  | .symbol name _ =>
      match t.valueOf name with
      | .absolute i => .ok (.absolute i)
      | .relocatable a => .ok (.relocatable (t.normalize a))
      | .undefined => .error (.undefinedSymbol name)
  | .negate e _ => do
      match ← t.evaluate e with
      | .absolute i => return .absolute (-i)
      | _ => .error (.relocatableOperand .sub)
  | .binary op l r _ => do
      let left ← t.evaluate l
      let right ← t.evaluate r
      combine op left right

/-- Give a defined symbol its value. -/
def setValue (t : SymbolTable) (name : NameId) (value : SymbolValue) : SymbolTable :=
  { t with symbols := t.symbols.map fun s => if s.name == name then { s with value } else s }

/-- Give a space its length. -/
def setLength (t : SymbolTable) (s : SpaceId) (length : Int32) : SymbolTable :=
  { t with spaces := t.spaces.modify s.index fun space => { space with length := some length } }

/-- Add a space, and give its number. -/
def addSpace (t : SymbolTable) (kind : SpaceKind) : SpaceId × SymbolTable :=
  (⟨t.spaces.size⟩, { t with spaces := t.spaces.push { kind } })

/-- The length of a padding whose place is known by now. -/
def padding? (t : SymbolTable) (space : Space) : Option Int32 :=
  match space with
  | ⟨.alignment anchor alignment, none⟩ =>
      let place := t.normalize anchor
      if place.hasSpaces then none else some (alignment.padding place.offset)
  | _ => none

/-- Give a space its length if it is a padding whose place is known by now. -/
def settleSpace (t : SymbolTable) (s : SpaceId) : SymbolTable :=
  match t.spaces[s.index]?.bind t.padding? with
  | some length => t.setLength s length
  | none => t

/-- Give lengths to the paddings whose places are known by now, from the first to the last. -/
def settleSpaces (t : SymbolTable) : SymbolTable :=
  (List.range t.spaces.size).foldl (fun t n => t.settleSpace ⟨n⟩) t

end SymbolTable

/-- What a value can be computed from: an expression, or an address. -/
inductive Source where
  | expr (e : OrdinaryExpr NameId)
  | address (a : Address)
  deriving DecidableEq

namespace SymbolTable

/-- What a source waits for. -/
def unknownsOfSource (t : SymbolTable) : Source → List Unknown
  | .expr e => t.unknowns e
  | .address a => t.unknownsOfAddress a

/-- The value of a source. -/
def evaluateSource (t : SymbolTable) : Source → Except ValueError SymbolValue
  | .expr e => t.evaluate e
  | .address a => .ok (.relocatable (t.normalize a))

end SymbolTable

end MacroAssembler
