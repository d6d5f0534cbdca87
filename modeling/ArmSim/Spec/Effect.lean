import ArmSim.Sim.Process

/-! A cycle as a transaction on the latch. An instruction only reads the current state and
the memory; what it writes is collected in an `Effect`, which is committed in one go. -/
namespace ArmSim.Spec
open Shell Sim

/-- The writes of one instruction; `none` leaves the component as it is. -/
structure Effect where
  /-- `NEXT_STATE.REGS`. -/
  reg : Option (Fin armRegs × BitVec 64) := none
  /-- The result from which both flags are set. -/
  flags : Option (BitVec 64) := none
  /-- One aligned or unaligned word of memory. -/
  store : Option (BitVec 64 × BitVec 32) := none
  pc : Option (BitVec 64) := none
  halt : Bool := false
  /-- A register of `CURRENT_STATE`, which the end of the cycle overwrites. -/
  lost : Option (Fin armRegs × BitVec 64) := none

namespace Effect

def setReg (s : CpuState) : Option (Fin armRegs × BitVec 64) → CpuState
  | some (k, v) => { s with regs := s.regs.set k v }
  | none => s

def setFlags (s : CpuState) : Option (BitVec 64) → CpuState
  | some result => { s with flagN := flagNOf result, flagZ := flagZOf result }
  | none => s

def setMemory (mem : Memory) : Option (BitVec 64 × BitVec 32) → Memory
  | some (address, value) => memWrite32 mem address value
  | none => mem

/-- The state that the writes leave in `NEXT_STATE`. -/
def latch (e : Effect) (s : CpuState) : CpuState :=
  let s := setFlags (setReg s e.reg) e.flags
  { s with pc := e.pc.getD s.pc }

/-- Commit to a machine, before the latch is copied. -/
def commit (e : Effect) (m : Machine) : Machine :=
  { m with
    currentState := setReg m.currentState e.lost
    nextState := e.latch m.nextState
    memory := setMemory m.memory e.store
    runBit := if e.halt then 0 else m.runBit }

end Effect

def regIndex (i : BitVec 32) : Except Fault (Fin armRegs) :=
  if h : i.toNat < armRegs then .ok ⟨i.toNat, h⟩ else .error (.register i)

def resultEffect (rd : BitVec 32) (result : BitVec 64) (flags guarded : Bool) :
    Except Fault Effect :=
  let e : Effect := { flags := if flags then some result else none }
  if guarded && rd == 31 then .ok e
  else (regIndex rd).map fun k => { e with reg := some (k, result) }

section
variable (u : Indeterminate) (s : CpuState) (mem : Memory) (i : Instruction)

def binaryEffect (op2 : Except Fault (BitVec 64))
    (f : BitVec 64 → BitVec 64 → Except Fault (BitVec 64)) (flags guarded : Bool) :
    Except Fault Effect := do
  let op1 ← readReg u s i.rn
  let op2 ← op2
  let result ← f op1 op2
  resultEffect i.rd result flags guarded

/-- The 64-bit address of a load or store. -/
def address : Except Fault (BitVec 64) :=
  (readReg u s i.rn).map fun base => base + signedOffset9 i.dtAddress

/-- The address after rounding down and narrowing to 32 bits. -/
def narrowed (a : BitVec 64) : BitVec 64 := (alignedAddress a).setWidth 64

/-- The bit position of a byte lane or halfword lane within its word. -/
def byteLane (a : BitVec 64) : BitVec 32 := ((a &&& mask2bits.setWidth 64) * 8).setWidth 32
def halfwordLane (a : BitVec 64) : BitVec 32 := ((a &&& 0x2) * 8).setWidth 32

/-- `old` with the bits of `mask`, moved to `lane`, replaced by those of `value`. -/
def insertLane (mask old value lane : BitVec 32) : BitVec 32 :=
  (old &&& ~~~(mask <<< lane)) ||| (value <<< lane)

def loadDoubleword (a : BitVec 64) : BitVec 64 :=
  ((memRead32 mem ((alignedAddress a + 4).setWidth 64)).setWidth 64 <<< 32) |||
    (memRead32 mem (narrowed a)).setWidth 64

def loadByte (a : BitVec 64) : BitVec 8 :=
  ((memRead32 mem (narrowed a) >>> byteLane a) &&& 0xFF).setWidth 8

def loadHalfword (a : BitVec 64) : BitVec 16 :=
  ((memRead32 mem (narrowed a) >>> halfwordLane a) &&& 0xFFFF).setWidth 16

def branchEffect (signedOffset : BitVec 64) : Effect :=
  { pc := some (s.pc + (signedOffset <<< 2)) }

/-- A branch that is dropped when its target is misaligned. -/
def alignedBranchEffect (target : BitVec 64) : Effect :=
  if target % 4 ≠ 0 then {} else { pc := some target }

/-- The writes of each mnemonic, as a function of the state before the cycle. -/
def effect : Name → Except Fault Effect
  | .addsImmediate => binaryEffect u s i (.ok (i.aluImmediate.setWidth 64))
      (fun op1 op2 => .ok (op1 + op2)) true false
  | .addsExtendedRegister => binaryEffect u s i (readReg u s i.rm)
      (fun op1 op2 => .ok (op1 + op2)) true false
  | .subsImmediate => binaryEffect u s i (.ok (i.aluImmediate.setWidth 64))
      (fun op1 op2 => .ok (op1 - op2)) true true
  | .subsExtendedRegister => binaryEffect u s i (readReg u s i.rm)
      (fun op1 op2 => .ok (op1 - op2)) true true
  | .andsShiftedRegister => binaryEffect u s i (readReg u s i.rm)
      (fun op1 op2 => .ok (op1 &&& op2)) true false
  | .eorShifterRegister => binaryEffect u s i (readReg u s i.rm)
      (fun op1 op2 => .ok (op1 ^^^ op2)) false false
  | .orrShiftedRegister => binaryEffect u s i (readReg u s i.shamt)
      (fun op1 op2 => .ok (op1 ||| op2)) false false
  | .mul => binaryEffect u s i (readReg u s i.rm)
      (fun op1 op2 => .ok (op1 * op2)) false false
  | .addImmediate => binaryEffect u s i (.ok (i.aluImmediate.setWidth 64))
      (fun op1 op2 => .ok (op1 + op2)) false false
  | .addExtendedRegister => binaryEffect u s i (readReg u s i.rm)
      (fun op1 op2 => .ok (op1 + op2)) false true
  | .lslImmediate => binaryEffect u s i (.ok ((64 - i.rm).setWidth 64)) (shiftLeft u) true false
  | .lsrImmediate => binaryEffect u s i (.ok (i.rm.setWidth 64)) (shiftRight u) false false
  | .movz => resultEffect i.rd (i.movImmediate.setWidth 64) true false
  | .hlt => .ok { halt := true }
  | .stur => do
      let a ← address u s i
      let v ← readReg u s i.rd
      return { store := some (a, (v &&& 0xFFFFFFFF).setWidth 32) }
  | .sturb => do
      let a ← address u s i
      let v ← readReg u s i.rd
      let value : BitVec 8 := (v &&& 0xFF).setWidth 8
      return { store := some (narrowed a,
        insertLane 0xFF (memRead32 mem (narrowed a)) (value.setWidth 32) (byteLane a)) }
  | .sturh => do
      let a ← address u s i
      let v ← readReg u s i.rd
      let value : BitVec 16 := (v &&& 0xFFFF).setWidth 16
      return { store := some (narrowed a,
        insertLane 0xFFFF (memRead32 mem (narrowed a)) (value.setWidth 32) (halfwordLane a)) }
  | .ldur => do
      let a ← address u s i
      let k ← regIndex i.rd
      return { reg := some (k, loadDoubleword mem a) }
  | .ldurb => do
      let a ← address u s i
      let k ← regIndex i.rd
      return { reg := some (k, (loadByte mem a).setWidth 64) }
  | .ldurh => do
      let a ← address u s i
      let k ← regIndex i.rd
      return { lost := some (k, (loadHalfword mem a).setWidth 64) }
  | .bcond => .ok <|
      if branchTaken i.rt s.flagN s.flagZ then
        branchEffect s (signedOffset19 i.condBrAddress i.condBrAddress)
      else {}
  | .b => .ok (branchEffect s (signedOffset19 i.brAddress i.brAddress))
  | .br => (readReg u s i.rn).map alignedBranchEffect
  | .cbz => do
      let rt ← readReg u s i.rt
      return if rt = 0 then
        alignedBranchEffect (s.pc + (signedOffset19 i.condBrAddress i.condBrAddress <<< 2))
      else { pc := some (s.pc + 4) }
  | .cbnz => do
      let rt ← readReg u s i.rt
      return if rt = 0 then { pc := some (s.pc + 4) }
      else alignedBranchEffect (s.pc + (signedOffset19 i.brAddress i.condBrAddress <<< 2))
  | .subImmediate | .andImmediate => .ok {}

end

end ArmSim.Spec

namespace ArmSim.Sim.Name

/-- The mnemonics whose effect can name a register of the next state. -/
def writesReg : Name → Bool
  | stur | sturb | sturh | b | bcond | br | cbz | cbnz | hlt | ldurh => false
  | subImmediate | andImmediate => false
  | _ => true

/-- The mnemonics whose function assigns both flags. -/
def setsFlags : Name → Bool
  | addsImmediate | addsExtendedRegister | subsImmediate | subsExtendedRegister => true
  | andsShiftedRegister | movz | lslImmediate => true
  | _ => false

def isStore : Name → Bool
  | stur | sturb | sturh => true
  | _ => false

def isBranch : Name → Bool
  | b | bcond | br | cbz | cbnz => true
  | _ => false

end ArmSim.Sim.Name
