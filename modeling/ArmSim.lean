import ArmSim.Core.Bytes
import ArmSim.Core.Choice
import ArmSim.Core.Codec
import ArmSim.Core.Hoare
import ArmSim.Core.Lookup
import ArmSim.Core.Loop
import ArmSim.Core.Numeral
import ArmSim.Core.Overlay
import ArmSim.Core.Progress
import ArmSim.Core.Scan
import ArmSim.Core.SignedLoop
import ArmSim.Core.Simulation
import ArmSim.Inputs.Asm2hex
import ArmSim.Shell.Commands
import ArmSim.Shell.Console
import ArmSim.Shell.Memory
import ArmSim.Shell.State
import ArmSim.Sim.Decode
import ArmSim.Sim.Execute
import ArmSim.Sim.Instruction
import ArmSim.Sim.Process
import ArmSim.Spec.Effect
import ArmSim.Spec.Encoding
import ArmSim.Spec.Operands
import ArmSim.Spec.Pattern
import ArmSim.Spec.Transfer
import ArmSim.Verify.Access
import ArmSim.Verify.Aliasing
import ArmSim.Verify.Arithmetic
import ArmSim.Verify.Branches
import ArmSim.Verify.Chunking
import ArmSim.Verify.Compare
import ArmSim.Verify.Control
import ArmSim.Verify.Cycle
import ArmSim.Verify.DataProcessing
import ArmSim.Verify.Decoder
import ArmSim.Verify.Definedness
import ArmSim.Verify.Dump
import ArmSim.Verify.DumpFile
import ArmSim.Verify.Faithful
import ArmSim.Verify.Flags
import ArmSim.Verify.Flow
import ArmSim.Verify.Forward
import ArmSim.Verify.Frame
import ArmSim.Verify.Lanes
import ArmSim.Verify.Listing
import ArmSim.Verify.Loading
import ArmSim.Verify.Lockstep
import ArmSim.Verify.MemoryLaw
import ArmSim.Verify.Operands
import ArmSim.Verify.Process
import ArmSim.Verify.ProgramFile
import ArmSim.Verify.Prompt
import ArmSim.Verify.Refinement
import ArmSim.Verify.Session
import ArmSim.Verify.Settled
import ArmSim.Verify.Shifts
import ArmSim.Verify.Slack
import ArmSim.Verify.Static
import ArmSim.Verify.Step
import ArmSim.Verify.SubWord
import ArmSim.Verify.Transfers
import ArmSim.Verify.Typing
import ArmSim.Verify.ZeroRegister
import ArmSim.Arch.Accesses
import ArmSim.Arch.Assembled
import ArmSim.Arch.Counted
import ArmSim.Arch.Euclid
import ArmSim.Arch.Instruction
import ArmSim.Arch.Operations
import ArmSim.Arch.Program
import ArmSim.Arch.Represents
import ArmSim.Arch.Run
import ArmSim.Arch.Session
import ArmSim.Arch.Step
