import MacroAssembler.Text.Letters

/-!
# Instructions

The operation codes the assembler knows, in four tables: instructions of conditional assembly,
machine instructions, extended mnemonics, which abbreviate a machine instruction with some
operands fixed, and instructions to the assembler. Names are found without regard to case.
-/

namespace MacroAssembler

/-- What a machine instruction takes as an operand. -/
inductive OperandFormat where
  /-- A general register, 0 to 15. -/
  | register
  /-- A branch condition, 0 to 15. -/
  | mask
  /-- A number of the given width in bits. -/
  | immediate (bits : Nat) (isSigned : Bool)
  /-- The place in the program to branch to. -/
  | relative
  /-- A displacement, an index register and a base register: `D(X,B)`. -/
  | indexedAddress
  /-- A displacement and a base register: `D(B)`. -/
  | baseAddress
  /-- A displacement, a length and a base register: `D(L,B)`. -/
  | lengthAddress
  deriving DecidableEq

/-- The layout of an encoded instruction. -/
inductive InstructionFormat where
  | RR | RX | RS | SI | SS | RI
  deriving DecidableEq

/-- A machine instruction. -/
structure MachineInstruction where
  name : String
  format : InstructionFormat
  /-- The length of the encoded instruction in bits. -/
  bits : Nat
  operands : List OperandFormat
  deriving DecidableEq

/-- The length of the encoded instruction in bytes. -/
def MachineInstruction.bytes (i : MachineInstruction) : Nat := i.bits / 8

/-- An extended mnemonic: another name for an instruction that takes fewer operands. -/
structure Mnemonic where
  name : String
  instruction : String
  operands : List OperandFormat
  deriving DecidableEq

/-- An instruction of conditional assembly. -/
structure ConditionalInstruction where
  name : String
  /-- The instruction takes no operands. -/
  operandless : Bool
  deriving DecidableEq

/-- What an instruction to the assembler does. -/
inductive AssemblerAction where
  | equate
  | reserve
  | copy
  | other
  deriving DecidableEq

/-- An instruction to the assembler. -/
structure AssemblerInstruction where
  name : String
  action : AssemblerAction
  deriving DecidableEq

/-- The table an operation code stands in. -/
inductive InstructionKind where
  | conditional
  | machine
  | mnemonic
  | assembler
  deriving DecidableEq

namespace Instruction

open OperandFormat InstructionFormat

/-- The machine instructions. -/
def machineTable : List MachineInstruction :=
  [⟨"AR", RR, 16, [register, register]⟩,
    ⟨"BALR", RR, 16, [register, register]⟩,
    ⟨"BCR", RR, 16, [mask, register]⟩,
    ⟨"CR", RR, 16, [register, register]⟩,
    ⟨"LR", RR, 16, [register, register]⟩,
    ⟨"SR", RR, 16, [register, register]⟩,
    ⟨"A", RX, 32, [register, indexedAddress]⟩,
    ⟨"BAL", RX, 32, [register, indexedAddress]⟩,
    ⟨"BC", RX, 32, [mask, indexedAddress]⟩,
    ⟨"C", RX, 32, [register, indexedAddress]⟩,
    ⟨"IC", RX, 32, [register, indexedAddress]⟩,
    ⟨"L", RX, 32, [register, indexedAddress]⟩,
    ⟨"LA", RX, 32, [register, indexedAddress]⟩,
    ⟨"LH", RX, 32, [register, indexedAddress]⟩,
    ⟨"S", RX, 32, [register, indexedAddress]⟩,
    ⟨"ST", RX, 32, [register, indexedAddress]⟩,
    ⟨"STC", RX, 32, [register, indexedAddress]⟩,
    ⟨"STH", RX, 32, [register, indexedAddress]⟩,
    ⟨"LM", RS, 32, [register, register, baseAddress]⟩,
    ⟨"STM", RS, 32, [register, register, baseAddress]⟩,
    ⟨"CLI", SI, 32, [baseAddress, immediate 8 false]⟩,
    ⟨"MVI", SI, 32, [baseAddress, immediate 8 false]⟩,
    ⟨"CLC", SS, 48, [lengthAddress, baseAddress]⟩,
    ⟨"MVC", SS, 48, [lengthAddress, baseAddress]⟩,
    ⟨"AHI", RI, 32, [register, immediate 16 true]⟩,
    ⟨"LHI", RI, 32, [register, immediate 16 true]⟩,
    ⟨"BRC", RI, 32, [mask, relative]⟩]

/-- The extended mnemonics. -/
def mnemonicTable : List Mnemonic :=
  [⟨"B", "BC", [indexedAddress]⟩,
    ⟨"BE", "BC", [indexedAddress]⟩,
    ⟨"BNE", "BC", [indexedAddress]⟩,
    ⟨"NOP", "BC", [indexedAddress]⟩,
    ⟨"BR", "BCR", [register]⟩,
    ⟨"NOPR", "BCR", [register]⟩,
    ⟨"J", "BRC", [relative]⟩]

/-- The instructions of conditional assembly. -/
def conditionalTable : List ConditionalInstruction :=
  [⟨"ACTR", false⟩, ⟨"AEJECT", true⟩, ⟨"AGO", false⟩, ⟨"AIF", false⟩, ⟨"AINSERT", false⟩,
    ⟨"ANOP", true⟩, ⟨"AREAD", false⟩, ⟨"GBLA", false⟩, ⟨"GBLB", false⟩, ⟨"GBLC", false⟩,
    ⟨"LCLA", false⟩, ⟨"LCLB", false⟩, ⟨"LCLC", false⟩, ⟨"MACRO", true⟩, ⟨"MEND", true⟩,
    ⟨"MEXIT", true⟩, ⟨"MHELP", false⟩, ⟨"SETA", false⟩, ⟨"SETB", false⟩, ⟨"SETC", false⟩]

/-- The instructions to the assembler. -/
def assemblerTable : List AssemblerInstruction :=
  [⟨"COPY", .copy⟩, ⟨"CSECT", .other⟩, ⟨"DC", .other⟩, ⟨"DROP", .other⟩, ⟨"DS", .reserve⟩,
    ⟨"END", .other⟩, ⟨"EQU", .equate⟩, ⟨"USING", .other⟩]

/-- The machine instruction with a name. -/
def machine? (name : String) : Option MachineInstruction :=
  machineTable.find? fun i => Text.sameLetters i.name name

/-- The extended mnemonic with a name. -/
def mnemonic? (name : String) : Option Mnemonic :=
  mnemonicTable.find? fun m => Text.sameLetters m.name name

/-- The instruction of conditional assembly with a name. -/
def conditional? (name : String) : Option ConditionalInstruction :=
  conditionalTable.find? fun i => Text.sameLetters i.name name

/-- The instruction to the assembler with a name. -/
def assembler? (name : String) : Option AssemblerInstruction :=
  assemblerTable.find? fun i => Text.sameLetters i.name name

/-- The first table that has a name. -/
def kind? (name : String) : Option InstructionKind :=
  if (conditional? name).isSome then some .conditional
  else if (machine? name).isSome then some .machine
  else if (mnemonic? name).isSome then some .mnemonic
  else if (assembler? name).isSome then some .assembler
  else none

/-- The machine instruction a name stands for, and the operands that a statement must supply:
those of the mnemonic, if the name is one. -/
def encoded? (name : String) : Option (MachineInstruction × List OperandFormat) :=
  match mnemonic? name with
  | some m => (machine? m.instruction).map fun i => (i, m.operands)
  | none => (machine? name).map fun i => (i, i.operands)

end Instruction

end MacroAssembler
