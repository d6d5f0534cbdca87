import ArmSim.Verify.Refinement

/-! What one cycle can do, said once: it succeeds exactly when its effect is defined, the
effect decides the machine it leaves, and each mnemonic confines its effect. -/
namespace ArmSim.Verify
open Shell Sim Spec Loop

/-- The machine after a whole cycle: the latch is copied and the cycle counted. -/
def finish (e : Effect) (m : Machine) : Machine :=
  let next := e.latch { m.nextState with pc := m.currentState.pc + 4 }
  { currentState := next
    nextState := next
    memory := Effect.setMemory m.memory e.store
    runBit := if e.halt then 0 else m.runBit
    instructionCount := m.instructionCount + 1 }

/-- Every completed cycle is the commit of one effect. -/
theorem cycle_ok_iff {u : Indeterminate} {m m' : Machine} :
    cycle u m = .ok m' ↔ ∃ e, instructionEffect u m = .ok e ∧ m' = finish e m := by
  unfold cycle
  rw [processInstruction_eq]
  cases instructionEffect u m with
  | error e => simp [Except.map, bind, Except.bind]
  | ok e =>
    simp only [Except.ok.injEq, exists_eq_left']
    change Except.ok (finish e m) = .ok m' ↔ _
    rw [Except.ok.injEq, eq_comm]

theorem latched_of_cycle {u : Indeterminate} {m m' : Machine} (h : cycle u m = .ok m') :
    m'.currentState = m'.nextState := by
  obtain ⟨e, -, rfl⟩ := cycle_ok_iff.mp h
  rfl

section Finish
variable (e : Effect) (m : Machine)

@[simp] theorem finish_currentState : (finish e m).currentState = (finish e m).nextState := rfl

@[simp] theorem finish_memory : (finish e m).memory = Effect.setMemory m.memory e.store := rfl

@[simp] theorem finish_runBit : (finish e m).runBit = if e.halt then 0 else m.runBit := rfl

@[simp] theorem finish_instructionCount :
    (finish e m).instructionCount = m.instructionCount + 1 := rfl

@[simp] theorem finish_pc :
    (finish e m).nextState.pc = e.pc.getD (m.currentState.pc + 4) := by
  rcases e with ⟨reg, flags, -, -, -, -⟩
  cases reg <;> cases flags <;> rfl

theorem finish_flags : (finish e m).nextState.flagN = e.flags.elim m.nextState.flagN flagNOf ∧
    (finish e m).nextState.flagZ = e.flags.elim m.nextState.flagZ flagZOf := by
  rcases e with ⟨reg, flags, -, -, -, -⟩
  cases reg <;> cases flags <;> exact ⟨rfl, rfl⟩

end Finish

theorem reg_finish (e : Effect) (m : Machine) (k : BitVec 5) :
    (finish e m).nextState.reg k = match e.reg with
      | some (j, v) => if j.val = k.toNat then v else m.nextState.reg k
      | none => m.nextState.reg k := by
  rcases e with ⟨_ | ⟨j, v⟩, flags, -, -, -, -⟩
  · cases flags <;> rfl
  · cases flags <;> exact Vector.getElem_set j.isLt k.isLt

theorem regIndex_ok_iff {i : BitVec 32} {k : Fin armRegs} :
    regIndex i = .ok k ↔ k.val = i.toNat := by
  unfold regIndex
  split
  · simp only [Except.ok.injEq, Fin.ext_iff]
    exact eq_comm
  · have := k.isLt
    simp only [reduceCtorEq, false_iff]
    omega

theorem resultEffect_ok_iff {rd : BitVec 32} {result : BitVec 64} {flags guarded : Bool}
    {e : Effect} :
    resultEffect rd result flags guarded = .ok e ↔
      guarded = true ∧ rd = 31 ∧ e = { flags := if flags then some result else none } ∨
        ¬ (guarded = true ∧ rd = 31) ∧ ∃ k : Fin armRegs, k.val = rd.toNat ∧
          e = { reg := some (k, result), flags := if flags then some result else none } := by
  unfold resultEffect
  by_cases h : guarded = true ∧ rd = 31
  · simp [h, eq_comm]
  · have hc : (guarded && rd == 31) = false := by simpa using h
    simp only [hc, Bool.false_eq_true, if_false, map_ok_iff, regIndex_ok_iff, h, not_false_iff,
      true_and]
    constructor
    · rintro ⟨k, hk, rfl⟩
      exact .inr ⟨k, hk, rfl⟩
    · rintro (⟨hg, hrd, -⟩ | ⟨k, hk, rfl⟩)
      · exact absurd ⟨hg, hrd⟩ h
      · exact ⟨k, hk, rfl⟩

theorem binaryEffect_ok_iff {u : Indeterminate} {s : CpuState} {i : Instruction}
    {op2 : Except Fault (BitVec 64)} {f : BitVec 64 → BitVec 64 → Except Fault (BitVec 64)}
    {flags guarded : Bool} {e : Effect} :
    binaryEffect u s i op2 f flags guarded = .ok e ↔ ∃ a, readReg u s i.rn = .ok a ∧
      ∃ b, op2 = .ok b ∧ ∃ r, f a b = .ok r ∧ resultEffect i.rd r flags guarded = .ok e := by
  simp only [binaryEffect, bind_ok_iff]

/-- Shifting a branch offset by two keeps the alignment of the address it is added to. -/
theorem add_shift_two_mod (p o : BitVec 64) : (p + (o <<< 2)) % 4 = p % 4 := by
  have h4 : (4 : BitVec 64).toNat = 4 := rfl
  apply BitVec.eq_of_toNat_eq
  simp only [BitVec.toNat_umod, BitVec.toNat_add, BitVec.toNat_shiftLeft, Nat.shiftLeft_eq, h4]
  omega

/-- From an aligned address no shifted offset leads to a misaligned one. -/
theorem alignedBranchEffect_of_aligned {p : BitVec 64} (hp : p % 4 = 0) (o : BitVec 64) :
    alignedBranchEffect (p + (o <<< 2)) = { pc := some (p + (o <<< 2)) } :=
  if_neg (not_not.mpr ((add_shift_two_mod p o).trans hp))

/-- Where each mnemonic may write. Everything that a frame theorem needs of the twenty-seven
cases is here. -/
structure Confined (n : Name) (s : CpuState) (i : Instruction) (e : Effect) : Prop where
  reg : ∀ k v, e.reg = some (k, v) → k.val = i.rd.toNat ∧ n.writesReg = true
  flags : ∀ r, e.flags = some r → n.setsFlags = true
  store : ∀ w, e.store = some w → n.isStore = true
  pc : ∀ t, e.pc = some t → n.isBranch = true ∧ (s.pc % 4 = 0 → t % 4 = 0)
  halt : e.halt = (n == .hlt)

theorem Confined.of_result {n : Name} {s : CpuState} {i : Instruction} {r : BitVec 64}
    {flags guarded : Bool} {e : Effect} (h : resultEffect i.rd r flags guarded = .ok e)
    (hreg : n.writesReg = true) (hflags : flags = true → n.setsFlags = true)
    (hhlt : (n == .hlt) = false) : Confined n s i e := by
  have hset : ∀ r', (if flags then some r else none) = some r' → n.setsFlags = true := by
    cases flags with
    | true => exact fun _ _ => hflags rfl
    | false => simp
  rcases resultEffect_ok_iff.mp h with ⟨-, -, rfl⟩ | ⟨-, k, hk, rfl⟩
  · exact ⟨by simp, hset, by simp, by simp, hhlt.symm⟩
  · refine ⟨?_, hset, by simp, by simp, hhlt.symm⟩
    rintro k' v ⟨⟩
    exact ⟨hk, hreg⟩

section Control
variable {n : Name} {s : CpuState} {i : Instruction}

/-- Nothing is written but perhaps `RUN_BIT`. -/
theorem Confined.of_halt {b : Bool} (hhlt : b = (n == .hlt)) : Confined n s i { halt := b } :=
  ⟨by simp, by simp, by simp, by simp, hhlt⟩

theorem Confined.of_pc {t : BitVec 64} (hn : n.isBranch = true) (hhlt : (n == .hlt) = false)
    (ht : s.pc % 4 = 0 → t % 4 = 0) : Confined n s i { pc := some t } := by
  refine ⟨by simp, by simp, by simp, ?_, hhlt.symm⟩
  rintro t' ⟨⟩
  exact ⟨hn, ht⟩

theorem Confined.of_branch (o : BitVec 64) (hn : n.isBranch = true)
    (hhlt : (n == .hlt) = false) : Confined n s i (branchEffect s o) :=
  .of_pc hn hhlt (add_shift_two_mod s.pc o).trans

theorem Confined.of_next (hn : n.isBranch = true) (hhlt : (n == .hlt) = false) :
    Confined n s i { pc := some (s.pc + 4) } :=
  .of_pc hn hhlt (add_shift_two_mod s.pc 1).trans

theorem Confined.of_alignedBranch {t : BitVec 64} (hn : n.isBranch = true)
    (hhlt : (n == .hlt) = false) : Confined n s i (alignedBranchEffect t) := by
  unfold alignedBranchEffect
  split
  · exact .of_halt hhlt.symm
  · rename_i ht
    exact .of_pc hn hhlt fun _ => not_not.mp ht

end Control

theorem effect_confined {u : Indeterminate} {s : CpuState} {mem : Memory} {i : Instruction}
    {n : Name} {e : Effect} (h : effect u s mem i n = .ok e) : Confined n s i e := by
  cases n with
  | addsImmediate | addsExtendedRegister | subsImmediate | subsExtendedRegister
  | andsShiftedRegister | lslImmediate =>
    obtain ⟨-, -, -, -, r, -, h⟩ := binaryEffect_ok_iff.mp h
    exact .of_result h rfl (fun _ => rfl) rfl
  | eorShifterRegister | orrShiftedRegister | mul | addImmediate | addExtendedRegister
  | lsrImmediate =>
    obtain ⟨-, -, -, -, r, -, h⟩ := binaryEffect_ok_iff.mp h
    exact .of_result h rfl nofun rfl
  | movz =>
    have h : resultEffect i.rd (i.movImmediate.setWidth 64) true false = .ok e := h
    exact .of_result h rfl (fun _ => rfl) rfl
  | hlt | subImmediate | andImmediate => exact Except.ok.inj h ▸ .of_halt rfl
  | b => exact Except.ok.inj h ▸ .of_branch _ rfl rfl
  | bcond =>
    obtain rfl := Except.ok.inj h
    split
    · exact .of_branch _ rfl rfl
    · exact .of_halt rfl
  | br =>
    obtain ⟨a, -, rfl⟩ := map_ok_iff.mp h
    exact .of_alignedBranch rfl rfl
  | cbz =>
    obtain ⟨rt, -, h⟩ := bind_ok_iff.mp h
    obtain rfl := Except.ok.inj h
    split
    · exact .of_alignedBranch rfl rfl
    · exact .of_next rfl rfl
  | cbnz =>
    obtain ⟨rt, -, h⟩ := bind_ok_iff.mp h
    obtain rfl := Except.ok.inj h
    split
    · exact .of_next rfl rfl
    · exact .of_alignedBranch rfl rfl
  | stur | sturb | sturh =>
    obtain ⟨a, -, h⟩ := bind_ok_iff.mp h
    obtain ⟨v, -, h⟩ := bind_ok_iff.mp h
    exact Except.ok.inj h ▸ ⟨by simp, by simp, fun _ _ => rfl, by simp, rfl⟩
  | ldur | ldurb =>
    obtain ⟨a, -, h⟩ := bind_ok_iff.mp h
    obtain ⟨k, hk, h⟩ := bind_ok_iff.mp h
    refine Except.ok.inj h ▸ ⟨?_, by simp, by simp, by simp, rfl⟩
    rintro k' v ⟨⟩
    exact ⟨regIndex_ok_iff.mp hk, rfl⟩
  | ldurh =>
    obtain ⟨a, -, h⟩ := bind_ok_iff.mp h
    obtain ⟨k, -, h⟩ := bind_ok_iff.mp h
    exact Except.ok.inj h ▸ ⟨by simp, by simp, by simp, by simp, rfl⟩

end ArmSim.Verify
