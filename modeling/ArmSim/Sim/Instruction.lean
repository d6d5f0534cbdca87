import Mathlib.Data.BitVec

/-! The decoded-instruction record and the opcode table. -/
namespace ArmSim.Sim

/-- The mnemonics that `opcode_table` lists. -/
inductive Name
  | addsExtendedRegister | addsImmediate | subsExtendedRegister | subsImmediate | hlt
  | andsShiftedRegister | eorShifterRegister | orrShiftedRegister | b | br | bcond
  | lslImmediate | lsrImmediate | stur | sturb | sturh | ldur | ldurh | ldurb | movz
  | addExtendedRegister | addImmediate | mul | cbz | cbnz | subImmediate | andImmediate
deriving DecidableEq, Repr

/-- What a `char *` holds: null, an address that is no readable string, a string that is
no mnemonic of the table, or one that is. -/
inductive CharPtr
  | null | invalid | other | name (n : Name)
deriving DecidableEq, Repr

/-- The contents of `type[20]`; `other` is every string that the decoder does not test for,
the empty one included. -/
inductive InstrType
  | I | X | IW | R | CB | B | D | other
deriving DecidableEq, Repr

/-- `instruction`. -/
structure Instruction where
  opcode : BitVec 32
  rd : BitVec 32
  rn : BitVec 32
  rm : BitVec 32
  rt : BitVec 32
  shamt : BitVec 32
  aluImmediate : BitVec 32
  dtAddress : BitVec 32
  brAddress : BitVec 32
  condBrAddress : BitVec 32
  movImmediate : BitVec 32
  type : InstrType
  name : CharPtr
deriving DecidableEq, Repr

def opcodeTableSize : ℕ := 50
def mask21 : BitVec 32 := 0x7FF
def mask26 : BitVec 32 := 0x3F
def mask24 : BitVec 32 := 0xFF
def mask22 : BitVec 32 := 0x3FF
def mask9bits : BitVec 32 := 0x1FF
def mask5bits : BitVec 32 := 0x1F
def mask11bits : BitVec 32 := 0xFFF
def mask16bits : BitVec 32 := 0xFFFF
def mask19bits : BitVec 32 := 0x7FFFF
def mask2bits : BitVec 32 := 0x3

/-- A table row: every field between the opcode and the type is 0. -/
def tableRow (opcode : BitVec 32) (type : InstrType) (name : CharPtr) : Instruction :=
  { opcode, rd := 0, rn := 0, rm := 0, rt := 0, shamt := 0, aluImmediate := 0, dtAddress := 0,
    brAddress := 0, condBrAddress := 0, movImmediate := 0, type, name }

/-- The initialised rows. The last two opcodes have no `0b` in the source, so their digits
are decimal. -/
def namedRows : List Instruction := [
  tableRow 0b1010101100 .X (.name .addsExtendedRegister),
  tableRow 0b10110001 .I (.name .addsImmediate),
  tableRow 0b1110101100 .X (.name .subsExtendedRegister),
  tableRow 0b11110001 .I (.name .subsImmediate),
  tableRow 0b11010100010 .CB (.name .hlt),
  tableRow 0b11101010 .X (.name .andsShiftedRegister),
  tableRow 0b11001010 .X (.name .eorShifterRegister),
  tableRow 0b10101010000 .I (.name .orrShiftedRegister),
  tableRow 0b000101 .B (.name .b),
  tableRow 0b11010110000 .I (.name .br),
  tableRow 0b01010100 .CB (.name .bcond),
  tableRow 0b11010011011 .R (.name .lslImmediate),
  tableRow 0b11010011010 .R (.name .lsrImmediate),
  tableRow 0b11111000000 .D (.name .stur),
  tableRow 0b00111000000 .D (.name .sturb),
  tableRow 0b0111100000 .D (.name .sturh),
  tableRow 0b11111000010 .D (.name .ldur),
  tableRow 0b01111000010 .D (.name .ldurh),
  tableRow 0b0011100001 .D (.name .ldurb),
  tableRow 0b11010010 .IW (.name .movz),
  tableRow 0b1000101100 .R (.name .addExtendedRegister),
  tableRow 0b10010001 .I (.name .addImmediate),
  tableRow 0b10011011000 .X (.name .mul),
  tableRow 0b10110100 .CB (.name .cbz),
  tableRow 0b10110101 .CB (.name .cbnz),
  tableRow 11010001 .I (.name .subImmediate),
  tableRow 1001001000 .I (.name .andImmediate)]

/-- A slot without initialiser: opcode 0, empty type and a null name. -/
def emptySlot : Instruction := tableRow 0 .other .null

def opcodeTable : List Instruction :=
  namedRows ++ List.replicate (opcodeTableSize - namedRows.length) emptySlot

example : opcodeTable.length = opcodeTableSize := by decide

end ArmSim.Sim
