import ArmSim.Shell.State
import ArmSim.Sim.Instruction

/-! The `implement_*` functions. Each one takes the decoded record and the machine whose
`NEXT_STATE.PC` is already advanced, and gives the machine it leaves. -/
namespace ArmSim.Sim
open Shell

/-- The ways in which a cycle has no defined continuation. -/
inductive Fault
  | name
  | register (i : BitVec 32)
  | shift (n : BitVec 64)
deriving DecidableEq, Repr

/-- What C leaves open in one cycle: the contents of the uninitialised local of
`decode_instruction`, the value of `REGS[i]` for `i` past the array, and the result of a
shift by 64 or more. `none` is an access that faults. -/
structure Indeterminate where
  instrDef : Instruction
  register : BitVec 32 → Option (BitVec 64)
  shift : BitVec 64 → BitVec 64 → Option (BitVec 64)

/-- Every access past the register file and every oversized shift faults. -/
def Indeterminate.strict (instrDef : Instruction) : Indeterminate :=
  { instrDef, register := fun _ => none, shift := fun _ _ => none }

/-- What C leaves open is settled as zero. -/
def Indeterminate.zeroed : Indeterminate :=
  { instrDef := emptySlot, register := fun _ => some 0, shift := fun _ _ => some 0 }

/-- `REGS[i]` as an operand. -/
def readReg (u : Indeterminate) (s : CpuState) (i : BitVec 32) : Except Fault (BitVec 64) :=
  if h : i.toNat < armRegs then .ok s.regs[i.toNat]
  else match u.register i with
    | some v => .ok v
    | none => .error (.register i)

/-- `REGS[i] = v`. A write past the array has no defined effect. -/
def writeReg (s : CpuState) (i : BitVec 32) (v : BitVec 64) : Except Fault CpuState :=
  if h : i.toNat < armRegs then .ok { s with regs := s.regs.set i.toNat v }
  else .error (.register i)

def shiftLeft (u : Indeterminate) (x n : BitVec 64) : Except Fault (BitVec 64) :=
  if n.toNat < 64 then .ok (x <<< n)
  else match u.shift x n with
    | some v => .ok v
    | none => .error (.shift n)

def shiftRight (u : Indeterminate) (x n : BitVec 64) : Except Fault (BitVec 64) :=
  if n.toNat < 64 then .ok (x >>> n)
  else match u.shift x n with
    | some v => .ok v
    | none => .error (.shift n)

def setNextReg (m : Machine) (i : BitVec 32) (v : BitVec 64) : Except Fault Machine := do
  let s ← writeReg m.nextState i v
  return { m with nextState := s }

def setNextPc (m : Machine) (pc : BitVec 64) : Machine :=
  { m with nextState := { m.nextState with pc } }

def flagNOf (result : BitVec 64) : BitVec 32 := ((result >>> 63) &&& 1).setWidth 32

def flagZOf (result : BitVec 64) : BitVec 32 := if result = 0 then 1 else 0

def setNextFlags (m : Machine) (result : BitVec 64) : Machine :=
  { m with nextState := { m.nextState with flagN := flagNOf result, flagZ := flagZOf result } }

/-- The end of every function that computes a register: the flags if it sets them, then
`REGS[rd]` unless it is one of those that test `rd != 31`. -/
def writeResult (m : Machine) (rd : BitVec 32) (result : BitVec 64) (flags guarded : Bool) :
    Except Fault Machine :=
  let m := if flags then setNextFlags m result else m
  if guarded && rd == 31 then .ok m else setNextReg m rd result

/-- The common body of the arithmetic functions: `op1` is `REGS[rn]`. -/
def binary (u : Indeterminate) (instruct : Instruction) (m : Machine)
    (op2 : Except Fault (BitVec 64)) (f : BitVec 64 → BitVec 64 → Except Fault (BitVec 64))
    (flags guarded : Bool) : Except Fault Machine := do
  let op1 ← readReg u m.currentState instruct.rn
  let op2 ← op2
  let result ← f op1 op2
  writeResult m instruct.rd result flags guarded

section Arithmetic
variable (u : Indeterminate) (instruct : Instruction) (m : Machine)

def implementADDSImmediate : Except Fault Machine :=
  binary u instruct m (.ok (instruct.aluImmediate.setWidth 64))
    (fun op1 op2 => .ok (op1 + op2)) true false

def implementADDSExtendedRegister : Except Fault Machine :=
  binary u instruct m (readReg u m.currentState instruct.rm)
    (fun op1 op2 => .ok (op1 + op2)) true false

def implementSUBSImmediate : Except Fault Machine :=
  binary u instruct m (.ok (instruct.aluImmediate.setWidth 64))
    (fun op1 op2 => .ok (op1 - op2)) true true

def implementSUBSExtendedRegister : Except Fault Machine :=
  binary u instruct m (readReg u m.currentState instruct.rm)
    (fun op1 op2 => .ok (op1 - op2)) true true

def implementANDSShiftedRegister : Except Fault Machine :=
  binary u instruct m (readReg u m.currentState instruct.rm)
    (fun op1 op2 => .ok (op1 &&& op2)) true false

/-- `shift_amount = 64 - instruct.rm` is a 32-bit subtraction. -/
def implementLSLImmediate : Except Fault Machine :=
  binary u instruct m (.ok ((64 - instruct.rm).setWidth 64)) (shiftLeft u) true false

def implementEORShiftedRegister : Except Fault Machine :=
  binary u instruct m (readReg u m.currentState instruct.rm)
    (fun op1 op2 => .ok (op1 ^^^ op2)) false false

/-- The second operand is numbered by `shamt`, not by `rm`. -/
def implementORRShiftedRegister : Except Fault Machine :=
  binary u instruct m (readReg u m.currentState instruct.shamt)
    (fun op1 op2 => .ok (op1 ||| op2)) false false

def implementMUL : Except Fault Machine :=
  binary u instruct m (readReg u m.currentState instruct.rm)
    (fun op1 op2 => .ok (op1 * op2)) false false

def implementADDImmediate : Except Fault Machine :=
  binary u instruct m (.ok (instruct.aluImmediate.setWidth 64))
    (fun op1 op2 => .ok (op1 + op2)) false false

def implementLSRImmediate : Except Fault Machine :=
  binary u instruct m (.ok (instruct.rm.setWidth 64)) (shiftRight u) false false

def implementADDExtendedRegister : Except Fault Machine :=
  binary u instruct m (readReg u m.currentState instruct.rm)
    (fun op1 op2 => .ok (op1 + op2)) false true

end Arithmetic

def implementMOVZ (instruct : Instruction) (m : Machine) : Except Fault Machine :=
  writeResult m instruct.rd (instruct.movImmediate.setWidth 64) true false

def implementHLT (m : Machine) : Machine := { m with runBit := 0 }

/-- `dt_address` as a signed nine-bit offset. -/
def signedOffset9 (dtAddress : BitVec 32) : BitVec 64 :=
  if dtAddress &&& (1#32 <<< 8) ≠ 0 then dtAddress.setWidth 64 ||| 0xFFFFFFFFFFFFFF00
  else (dtAddress &&& 0x1FF).setWidth 64

/-- The address of every load and store. -/
def effectiveAddress (u : Indeterminate) (instruct : Instruction) (m : Machine) :
    Except Fault (BitVec 64) := do
  let base ← readReg u m.currentState instruct.rn
  return base + signedOffset9 instruct.dtAddress

/-- `uint32_t aligned_address = address & ~0x3`: the constant is a negative `int`, and the
result keeps 32 bits. -/
def alignedAddress (address : BitVec 64) : BitVec 32 :=
  (address &&& 0xFFFFFFFFFFFFFFFC).setWidth 32

/-- `mem_read_32` and `mem_write_32` called with a `uint32_t`. -/
def read (m : Machine) (address : BitVec 32) : BitVec 32 :=
  memRead32 m.memory (address.setWidth 64)

def write (m : Machine) (address value : BitVec 32) : Machine :=
  { m with memory := memWrite32 m.memory (address.setWidth 64) value }

section LoadStore
variable (u : Indeterminate) (instruct : Instruction) (m : Machine)

def implementSTUR : Except Fault Machine := do
  let address ← effectiveAddress u instruct m
  let rd ← readReg u m.currentState instruct.rd
  let value := (rd &&& 0xFFFFFFFF).setWidth 32
  return { m with memory := memWrite32 m.memory address value }

def implementSTURB : Except Fault Machine := do
  let address ← effectiveAddress u instruct m
  let rd ← readReg u m.currentState instruct.rd
  let value : BitVec 8 := (rd &&& 0xFF).setWidth 8
  let alignedValue := read m (alignedAddress address)
  let byteShift := ((address &&& mask2bits.setWidth 64) * 8).setWidth 32
  let alignedValue := (alignedValue &&& ~~~(0xFF#32 <<< byteShift)) |||
    (value.setWidth 32 <<< byteShift)
  return write m (alignedAddress address) alignedValue

def implementSTURH : Except Fault Machine := do
  let address ← effectiveAddress u instruct m
  let rd ← readReg u m.currentState instruct.rd
  let value : BitVec 16 := (rd &&& 0xFFFF).setWidth 16
  let alignedValue := read m (alignedAddress address)
  let halfwordShift := ((address &&& 0x2) * 8).setWidth 32
  let alignedValue := (alignedValue &&& ~~~(0xFFFF#32 <<< halfwordShift)) |||
    (value.setWidth 32 <<< halfwordShift)
  return write m (alignedAddress address) alignedValue

/-- `aligned_address + 4` is a 32-bit sum. The word at `address` itself is read as well and
dropped. -/
def implementLDUR : Except Fault Machine := do
  let address ← effectiveAddress u instruct m
  let alignedValue := read m (alignedAddress address)
  let alignedHigh := read m (alignedAddress address + 4)
  let concatenado := (alignedHigh.setWidth 64 <<< 32) ||| alignedValue.setWidth 64
  setNextReg m instruct.rd concatenado

def implementLDURB : Except Fault Machine := do
  let address ← effectiveAddress u instruct m
  let alignedValue := read m (alignedAddress address)
  let byteShift := ((address &&& mask2bits.setWidth 64) * 8).setWidth 32
  let value : BitVec 8 := ((alignedValue >>> byteShift) &&& 0xFF).setWidth 8
  setNextReg m instruct.rd (value.setWidth 64)

/-- The one function that assigns to `CURRENT_STATE`. -/
def implementLDURH : Except Fault Machine := do
  let address ← effectiveAddress u instruct m
  let alignedValue := read m (alignedAddress address)
  let halfwordShift := ((address &&& 0x2) * 8).setWidth 32
  let loadedValue : BitVec 16 := ((alignedValue >>> halfwordShift) &&& 0xFFFF).setWidth 16
  let s ← writeReg m.currentState instruct.rd (loadedValue.setWidth 64)
  return { m with currentState := s }

end LoadStore

/-- The branch offset: the sign is bit 18 of `tested`, the low bits are those of `address`. -/
def signedOffset19 (tested address : BitVec 32) : BitVec 64 :=
  if tested &&& (1#32 <<< 18) ≠ 0 then address.setWidth 64 ||| 0xFFFFFFFFFFFC0000
  else (address &&& 0x3FFFF).setWidth 64

/-- The `switch (cond)` of B.cond; other conditions leave `branch` at 0. -/
def branchTaken (cond flagN flagZ : BitVec 32) : Bool :=
  if cond = 0b0000 then flagZ != 0
  else if cond = 0b0001 then flagZ == 0
  else if cond = 0b1100 then flagZ == 0 && flagN == 0
  else if cond = 0b1011 then flagN != 0
  else if cond = 0b1010 then flagN == 0
  else if cond = 0b1101 then flagZ != 0 || flagN != 0
  else false

section Branch
variable (u : Indeterminate) (instruct : Instruction) (m : Machine)

def implementBCOND : Machine :=
  if branchTaken instruct.rt m.currentState.flagN m.currentState.flagZ then
    setNextPc m (m.currentState.pc +
      (signedOffset19 instruct.condBrAddress instruct.condBrAddress <<< 2))
  else m

/-- The taken side of CBZ and CBNZ, which refuses a misaligned target. -/
def compareBranch (signedOffset : BitVec 64) : Machine :=
  let address := m.currentState.pc + (signedOffset <<< 2)
  if address % 4 ≠ 0 then m else setNextPc m address

def implementCBZ : Except Fault Machine := do
  let rt ← readReg u m.currentState instruct.rt
  if rt = 0 then
    return compareBranch m (signedOffset19 instruct.condBrAddress instruct.condBrAddress)
  else return setNextPc m (m.currentState.pc + 4)

/-- The sign is taken from `br_address`, which the decoder does not set for this type. -/
def implementCBNZ : Except Fault Machine := do
  let rt ← readReg u m.currentState instruct.rt
  if rt = 0 then return setNextPc m (m.currentState.pc + 4)
  else return compareBranch m (signedOffset19 instruct.brAddress instruct.condBrAddress)

def implementB : Machine :=
  setNextPc m (m.currentState.pc +
    (signedOffset19 instruct.brAddress instruct.brAddress <<< 2))

def implementBR : Except Fault Machine := do
  let address ← readReg u m.currentState instruct.rn
  if address % 4 ≠ 0 then return m else return setNextPc m address

end Branch

end ArmSim.Sim
