import ArmSim.Sim.Instruction

/-! The decoder. Both passes fill in the caller's record, so a field that neither of them
assigns keeps the value it had. -/
namespace ArmSim.Sim

/-- One pass over the whole table. -/
def findOpcode (field : BitVec 32) : Option Instruction :=
  opcodeTable.find? fun e => e.opcode == field

def opcode21 (bytecode : BitVec 32) : BitVec 32 := (bytecode >>> 21) &&& mask21
def opcode26 (bytecode : BitVec 32) : BitVec 32 := (bytecode >>> 26) &&& mask26
def opcode24 (bytecode : BitVec 32) : BitVec 32 := (bytecode >>> 24) &&& mask24
def opcode22 (bytecode : BitVec 32) : BitVec 32 := (bytecode >>> 22) &&& mask22

/-- What a pass copies from the row that it stops at. -/
def copyRow (instr row : Instruction) : Instruction :=
  { instr with opcode := row.opcode, name := row.name, type := row.type }

def decodeInstructionOpcode (instr : Instruction) (bytecode : BitVec 32) : Instruction :=
  match findOpcode (opcode21 bytecode) with
  | some row => copyRow instr row
  | none =>
    match findOpcode (opcode26 bytecode) with
    | some row => copyRow instr row
    | none =>
      match findOpcode (opcode24 bytecode) with
      | some row => copyRow instr row
      | none =>
        match findOpcode (opcode22 bytecode) with
        | some row => copyRow instr row
        | none => instr

def decodeCompletelyInstruction (instr : Instruction) (bytecode : BitVec 32) : Instruction :=
  match instr.type with
  | .I => { instr with
      rd := bytecode &&& mask5bits
      rn := (bytecode >>> 5) &&& mask5bits
      aluImmediate := (bytecode >>> 10) &&& mask11bits
      shamt := (bytecode >>> 22) &&& mask2bits }
  | .X => { instr with
      rd := bytecode &&& mask5bits
      rn := (bytecode >>> 5) &&& mask5bits
      rm := (bytecode >>> 16) &&& mask5bits }
  | .IW => { instr with
      rd := bytecode &&& mask5bits
      movImmediate := (bytecode >>> 5) &&& mask16bits
      shamt := (bytecode >>> 21) &&& mask2bits }
  | .R => { instr with
      rd := bytecode &&& mask5bits
      rn := (bytecode >>> 5) &&& mask5bits
      shamt := (bytecode >>> 10) &&& mask26
      rm := (bytecode >>> 16) &&& mask26 }
  | .CB => { instr with
      condBrAddress := (bytecode >>> 5) &&& mask19bits
      rt := bytecode &&& mask5bits }
  | .B => { instr with brAddress := bytecode &&& mask26 }
  | .D => { instr with
      rd := bytecode &&& mask5bits
      rn := (bytecode >>> 5) &&& mask5bits
      dtAddress := (bytecode >>> 12) &&& mask9bits }
  | .other => instr

/-- `instrDef` is what the uninitialised local holds on entry. -/
def decodeInstruction (instrDef : Instruction) (bytecode : BitVec 32) : Instruction :=
  decodeCompletelyInstruction (decodeInstructionOpcode instrDef bytecode) bytecode

end ArmSim.Sim
