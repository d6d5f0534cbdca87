import ArmSim.Sim.Decode
import ArmSim.Sim.Execute

/-! One instruction: fetch, decode and dispatch on the mnemonic. -/
namespace ArmSim.Sim
open Shell

/-- The word at `CURRENT_STATE.PC`. -/
def fetch (m : Machine) : BitVec 32 := memRead32 m.memory m.currentState.pc

/-- The chain of `strcmp` tests. The two rows without an `implement_*` call fall through. -/
def dispatch (u : Indeterminate) (n : Name) (instruct : Instruction) (m : Machine) :
    Except Fault Machine :=
  match n with
  | .addsImmediate => implementADDSImmediate u instruct m
  | .addsExtendedRegister => implementADDSExtendedRegister u instruct m
  | .subsImmediate => implementSUBSImmediate u instruct m
  | .subsExtendedRegister => implementSUBSExtendedRegister u instruct m
  | .hlt => .ok (implementHLT m)
  | .andsShiftedRegister => implementANDSShiftedRegister u instruct m
  | .eorShifterRegister => implementEORShiftedRegister u instruct m
  | .orrShiftedRegister => implementORRShiftedRegister u instruct m
  | .b => .ok (implementB instruct m)
  | .bcond => .ok (implementBCOND instruct m)
  | .br => implementBR u instruct m
  | .lslImmediate => implementLSLImmediate u instruct m
  | .lsrImmediate => implementLSRImmediate u instruct m
  | .stur => implementSTUR u instruct m
  | .sturb => implementSTURB u instruct m
  | .sturh => implementSTURH u instruct m
  | .ldur => implementLDUR u instruct m
  | .ldurb => implementLDURB u instruct m
  | .ldurh => implementLDURH u instruct m
  | .movz => implementMOVZ instruct m
  | .addExtendedRegister => implementADDExtendedRegister u instruct m
  | .addImmediate => implementADDImmediate u instruct m
  | .mul => implementMUL u instruct m
  | .cbz => implementCBZ u instruct m
  | .cbnz => implementCBNZ u instruct m
  | .subImmediate | .andImmediate => .ok m

/-- `printf` and `strcmp` both dereference the name, so a null or wild one faults. -/
def processInstruction (u : Indeterminate) (m : Machine) : Except Fault Machine :=
  let instruct := decodeInstruction u.instrDef (fetch m)
  let m := setNextPc m (m.currentState.pc + 4)
  match instruct.name with
  | .null | .invalid => .error .name
  | .other => .ok m
  | .name n => dispatch u n instruct m

end ArmSim.Sim
