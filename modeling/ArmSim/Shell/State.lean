import ArmSim.Shell.Memory

/-! The latched processor state and the globals of the simulator. -/
namespace ArmSim.Shell

/-- `ARM_REGS`. -/
def armRegs : ℕ := 32

/-- `CPU_State`; the C `int` flags keep their 32 bits. -/
@[ext] structure CpuState where
  pc : BitVec 64
  regs : Vector (BitVec 64) armRegs
  flagN : BitVec 32
  flagZ : BitVec 32
deriving DecidableEq

/-- `CURRENT_STATE`, `NEXT_STATE`, the region buffers, `RUN_BIT` and `INSTRUCTION_COUNT`. -/
@[ext] structure Machine where
  currentState : CpuState
  nextState : CpuState
  memory : Memory
  runBit : BitVec 32
  instructionCount : BitVec 32

/-- The value of register `k` under its five-bit number. -/
def CpuState.reg (s : CpuState) (k : BitVec 5) : BitVec 64 :=
  have hk : k.toNat < armRegs := k.isLt
  s.regs[k.toNat]

end ArmSim.Shell
