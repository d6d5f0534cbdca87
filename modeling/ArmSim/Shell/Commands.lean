import ArmSim.Core.Loop
import ArmSim.Sim.Process

/-! The shell around the simulator: one cycle, the two loops over it, program loading and
the commands that touch the machine. -/
namespace ArmSim.Shell
open Sim

def cycle (u : Indeterminate) (m : Machine) : Except Fault Machine := do
  let m ← processInstruction u m
  return { m with currentState := m.nextState, instructionCount := m.instructionCount + 1 }

/-- `RUN_BIT == FALSE`. -/
def halted (m : Machine) : Bool := m.runBit == 0

section Loops
variable (u : Machine → Indeterminate)

/-- One cycle as a function of the machine: `u` settles what C leaves open. -/
def step (m : Machine) : Except Fault Machine := cycle (u m) m

/-- `run(int num_cycles)`; a negative count runs no cycle. -/
def run (numCycles : BitVec 32) (m : Machine) : Except Fault Machine :=
  if halted m then .ok m else Loop.counted (step u) halted numCycles.toInt.toNat m

/-- `go` for at most `fuel` cycles; `none` when it would go on. -/
def go (fuel : ℕ) (m : Machine) : Except Fault (Option Machine) :=
  if halted m then .ok (some m) else Loop.unbounded (step u) halted fuel m

end Loops

/-- The `input` command: both copies of the register are patched. With a number past the array the
assignment is undefined in C, and a fault here. -/
def input (registerNo : BitVec 32) (registerValue : BitVec 64) (m : Machine) :
    Except Fault Machine := do
  let current ← writeReg m.currentState registerNo registerValue
  let next ← writeReg m.nextState registerNo registerValue
  return { m with currentState := current, nextState := next }

/-- One dump loop of `mdump` for at most `fuel` iterations: the addresses printed, each with
its word. The address is an `int`, so it is sign-extended for the read. -/
def mdumpLoop (mem : Memory) (stop : BitVec 32) :
    ℕ → BitVec 32 → Option (List (BitVec 32 × BitVec 32))
  | 0, _ => none
  | fuel + 1, address =>
    if address.sle stop then
      (mdumpLoop mem stop fuel (address + 4)).map
        ((address, memRead32 mem (address.signExtend 64)) :: ·)
    else some []

/-- A line that `get_command` accepts, with the numbers that `scanf` reads from it. -/
inductive Command
  | go
  | run (cycles : BitVec 32)
  | mdump (start stop : BitVec 32)
  | rdump
  | help
  | input (registerNo : BitVec 32) (registerValue : BitVec 64)
  | invalid

/-- The command returns to the prompt and leaves the machine `m'`. -/
def Command.Completes (u : Machine → Indeterminate) (m m' : Machine) : Command → Prop
  | .go => ∃ fuel, Shell.go u fuel m = .ok (some m')
  | .run cycles => Shell.run u cycles m = .ok m'
  | .mdump start stop => (∃ fuel, (mdumpLoop m.memory stop fuel start).isSome) ∧ m' = m
  | .rdump | .help | .invalid => m' = m
  | .input registerNo registerValue => Shell.input registerNo registerValue m = .ok m'

/-- The commands complete one after the other. -/
def CompleteAll (u : Machine → Indeterminate) (m : Machine) : List Command → Machine → Prop
  | [], m' => m' = m
  | c :: cs, m' => ∃ m₁, c.Completes u m m₁ ∧ CompleteAll u m₁ cs m'

/-- The `fscanf` loop: `ii` and the sum with the start of the text are `int`, and the sum
is sign-extended to the address. -/
def loadWords (ii : BitVec 32) : List (BitVec 32) → Memory → Memory
  | [], mem => mem
  | word :: rest, mem =>
    loadWords (ii + 4) rest
      (memWrite32 mem ((memTextStart.setWidth 32 + ii).signExtend 64) word)

/-- `load_program` on a file whose words are all parsed. -/
def loadProgram (words : List (BitVec 32)) (m : Machine) : Machine :=
  { m with
    memory := loadWords 0 words m.memory
    currentState := { m.currentState with pc := memTextStart } }

/-- The globals before `main`. -/
def bootState : CpuState :=
  { pc := 0, regs := Vector.replicate armRegs 0, flagN := 0, flagZ := 0 }

/-- `initialize` from the zeroed globals; `slack` is the unset tail of each `malloc`. -/
def initializeMachine (slack : Memory) (programs : List (List (BitVec 32))) : Machine :=
  let boot : Machine :=
    { currentState := bootState, nextState := bootState, memory := initMemory slack,
      runBit := 0, instructionCount := 0 }
  let m := programs.foldl (fun m words => loadProgram words m) boot
  { m with nextState := m.currentState, runBit := 1 }

/-- The machines met in a session that starts at `m₀`: between commands, each of which
resolves what C leaves open in its own way, and between the cycles of a running command. -/
inductive Session (m₀ : Machine) : Machine → Prop
  | start : Session m₀ m₀
  | command {m m' : Machine} (u : Machine → Indeterminate) (c : Command) :
      Session m₀ m → c.Completes u m m' → Session m₀ m'
  | cycle {m m' : Machine} (u : Indeterminate) :
      Session m₀ m → Shell.cycle u m = .ok m' → Session m₀ m'

end ArmSim.Shell
