import ArmSim.Spec.Effect
import ArmSim.Shell.Commands

/-! The simulator's functions refine the transaction view: dispatching a decoded record and
committing its `Effect` are the same machine function, faults included. -/
namespace ArmSim.Verify
open Shell Sim Spec

theorem writeReg_eq (s : CpuState) (i : BitVec 32) (v : BitVec 64) :
    writeReg s i v = (regIndex i).map fun k => Effect.setReg s (some (k, v)) := by
  unfold writeReg regIndex
  split <;> rfl

theorem setNextReg_eq (m : Machine) (i : BitVec 32) (v : BitVec 64) :
    setNextReg m i v =
      (regIndex i).map fun k => Effect.commit { reg := some (k, v) } m := by
  rw [setNextReg, writeReg_eq]
  cases regIndex i <;> rfl

theorem writeResult_eq (m : Machine) (rd : BitVec 32) (result : BitVec 64) (flags guarded : Bool) :
    writeResult m rd result flags guarded =
      (resultEffect rd result flags guarded).map (Effect.commit · m) := by
  unfold writeResult resultEffect
  dsimp only
  split
  · cases flags <;> rfl
  · rw [setNextReg_eq]
    cases regIndex rd <;> cases flags <;> rfl

theorem binary_eq (u : Indeterminate) (i : Instruction) (m : Machine)
    (op2 : Except Fault (BitVec 64)) (f : BitVec 64 → BitVec 64 → Except Fault (BitVec 64))
    (flags guarded : Bool) :
    binary u i m op2 f flags guarded =
      (binaryEffect u m.currentState i op2 f flags guarded).map (Effect.commit · m) := by
  unfold binary binaryEffect
  cases readReg u m.currentState i.rn with
  | error e => rfl
  | ok op1 =>
    cases op2 with
    | error e => rfl
    | ok op2 =>
      cases hf : f op1 op2 with
      | error e => simp only [bind, Except.bind, hf]; rfl
      | ok result => simpa only [bind, Except.bind, hf] using writeResult_eq m i.rd result _ _

theorem effectiveAddress_eq (u : Indeterminate) (i : Instruction) (m : Machine) :
    effectiveAddress u i m = address u m.currentState i := by
  unfold effectiveAddress address
  cases readReg u m.currentState i.rn <;> rfl

theorem compareBranch_eq (m : Machine) (signedOffset : BitVec 64) :
    compareBranch m signedOffset =
      (alignedBranchEffect (m.currentState.pc + (signedOffset <<< 2))).commit m := by
  unfold compareBranch alignedBranchEffect
  dsimp only
  split <;> rfl

theorem dispatch_eq (u : Indeterminate) (n : Name) (i : Instruction) (m : Machine) :
    dispatch u n i m = (effect u m.currentState m.memory i n).map (Effect.commit · m) := by
  cases n with
  | addsImmediate | addsExtendedRegister | subsImmediate | subsExtendedRegister
  | andsShiftedRegister | eorShifterRegister | orrShiftedRegister | mul | addImmediate
  | addExtendedRegister | lslImmediate | lsrImmediate => exact binary_eq ..
  | movz => exact writeResult_eq m i.rd (i.movImmediate.setWidth 64) true false
  | hlt | b | subImmediate | andImmediate => rfl
  | stur | sturb | sturh =>
    simp only [dispatch, implementSTUR, implementSTURB, implementSTURH, effect,
      effectiveAddress_eq]
    cases address u m.currentState i with
    | error e => rfl
    | ok a => cases readReg u m.currentState i.rd <;> rfl
  | ldur | ldurb =>
    simp only [dispatch, implementLDUR, implementLDURB, effect, effectiveAddress_eq,
      setNextReg_eq]
    cases address u m.currentState i with
    | error e => rfl
    | ok a => cases regIndex i.rd <;> rfl
  | ldurh =>
    simp only [dispatch, implementLDURH, effect, effectiveAddress_eq, writeReg_eq]
    cases address u m.currentState i with
    | error e => rfl
    | ok a => cases regIndex i.rd <;> rfl
  | bcond =>
    simp only [dispatch, implementBCOND, effect]
    split <;> rfl
  | br =>
    simp only [dispatch, implementBR, effect]
    cases readReg u m.currentState i.rn with
    | error e => rfl
    | ok a =>
      simp only [bind, Except.bind, Except.map, alignedBranchEffect]
      split <;> rfl
  | cbz | cbnz =>
    simp only [dispatch, implementCBZ, implementCBNZ, effect, compareBranch_eq]
    cases readReg u m.currentState i.rt with
    | error e => rfl
    | ok rt =>
      simp only [bind, Except.bind]
      split <;> rfl

/-- What one instruction writes, mnemonic included; a name that cannot be read has no effect
to speak of, and one that is no mnemonic writes nothing. -/
def instructionEffect (u : Indeterminate) (m : Machine) : Except Fault Effect :=
  let i := decodeInstruction u.instrDef (fetch m)
  match i.name with
  | .null | .invalid => .error .name
  | .other => .ok {}
  | .name n => effect u m.currentState m.memory i n

theorem processInstruction_eq (u : Indeterminate) (m : Machine) :
    processInstruction u m = (instructionEffect u m).map
      fun e => e.commit (setNextPc m (m.currentState.pc + 4)) := by
  unfold processInstruction instructionEffect
  dsimp only
  cases (decodeInstruction u.instrDef (fetch m)).name with
  | null | invalid | other => rfl
  | name n => exact dispatch_eq ..

end ArmSim.Verify
