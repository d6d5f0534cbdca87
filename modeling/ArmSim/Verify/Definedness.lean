import ArmSim.Spec.Encoding
import ArmSim.Verify.Session
import ArmSim.Verify.Operands

/-! Where the outcome of an instruction is left open by C: accesses past the register file,
words that select no mnemonic, and the field that CBNZ tests without its being set. -/
namespace ArmSim.Verify
open Shell Sim Spec Loop

theorem processInstruction_ok_iff {u : Indeterminate} {m : Machine} :
    (∃ m', processInstruction u m = .ok m') ↔ ∃ e, instructionEffect u m = .ok e := by
  rw [processInstruction_eq]
  cases instructionEffect u m <;> simp [Except.map]

section OutOfRange

/-- ADD is the one mnemonic whose words can have these eleven bits. -/
theorem DecodesTo.eq_add {w : BitVec 32} {n : Name} (h : DecodesTo w n)
    (h21 : topBits 11 w = 0b10001011001) : n = .addExtendedRegister := by
  have hp := topBits_prefix w
  rw [decodesTo_iff, tableOpcode_eq] at h
  cases n <;> simp [pattern] at h ⊢ <;> omega

/-- With bit 21 set the second operand lies past the register file. -/
theorem DecodesTo.ok_iff_of_add {u : Indeterminate} {s : CpuState} {mem : Memory}
    {w : BitVec 32} (h : DecodesTo w .addExtendedRegister)
    (h21 : topBits 11 w = 0b10001011001) (g : Instruction) :
    (∃ e, effect u s mem (decodeInstruction g w) .addExtendedRegister = .ok e) ↔
      ∃ v, u.register ((w >>> 16) &&& mask26) = some v := by
  have hidx : ¬ ((w >>> 16) &&& mask26).toNat < armRegs := by
    rw [toNat_field w mask26 16 6 rfl, h.add_rm, if_pos h21, armRegs]
    omega
  have hread : ∀ v, readReg u s ((w >>> 16) &&& mask26) = .ok v ↔
      u.register ((w >>> 16) &&& mask26) = some v := by
    intro v
    rw [readReg, dif_neg hidx]
    cases u.register ((w >>> 16) &&& mask26) <;> simp
  constructor
  · rintro ⟨e, he⟩
    rw [h.record_eq g] at he
    obtain ⟨-, -, v, hv, -⟩ := binaryEffect_ok_iff.mp he
    exact ⟨v, (hread v).mp hv⟩
  · rintro ⟨v, hv⟩
    exact h.effect_defined u s mem (fun _ => ⟨v, (hread v).mpr hv⟩) g

theorem DecodesTo.effect_ok_iff {w : BitVec 32} {n : Name} (h : DecodesTo w n)
    (u : Indeterminate) (s : CpuState) (mem : Memory) (g : Instruction) :
    (∃ e, effect u s mem (decodeInstruction g w) n = .ok e) ↔
      (topBits 11 w = 0b10001011001 → ∃ v, u.register ((w >>> 16) &&& mask26) = some v) := by
  by_cases h21 : topBits 11 w = 0b10001011001
  · obtain rfl := h.eq_add h21
    simp only [h21, true_imp_iff]
    exact h.ok_iff_of_add h21 g
  · simp only [h21, false_imp_iff, iff_true]
    exact h.effect_defined u s mem (fun hadd => absurd hadd h21) g

/-- A word that selects a mnemonic keeps every register access below `ARM_REGS` and every
shift below 64 unless it is an ADD with bit 21 set. -/
theorem inRange_iff {m : Machine} {n : Name} (h : DecodesTo (fetch m) n) :
    (∀ g, ∃ m', processInstruction (.strict g) m = .ok m') ↔
      topBits 11 (fetch m) ≠ 0b10001011001 := by
  simp only [processInstruction_ok_iff, h.instructionEffect_eq, h.effect_ok_iff,
    Indeterminate.strict, reduceCtorEq, exists_false, imp_false]
  exact ⟨fun hall => hall emptySlot, fun hne _ => hne⟩

/-- MOVZ X0, #1. -/
theorem inRange_movz : DecodesTo (fetch (oneWord 0xD2800020)) .movz ∧
    ∀ g, ∃ m', processInstruction (.strict g) (oneWord 0xD2800020) = .ok m' := by
  have hd : DecodesTo 0xD2800020 .movz := by decide +kernel
  exact ⟨hd.oneWord, (inRange_iff hd.oneWord).mpr (by rw [fetch_oneWord]; decide)⟩

/-- ADD X0, X0, X0 with bit 21 set numbers its second operand 32. -/
theorem not_inRange : ¬ ∀ (m : Machine) (n : Name), DecodesTo (fetch m) n →
    ∀ g, ∃ m', processInstruction (.strict g) m = .ok m' := by
  intro hall
  have hd : DecodesTo 0x8B200000 .addExtendedRegister := by decide +kernel
  obtain ⟨m', hm'⟩ := hall _ _ hd.oneWord emptySlot
  have hfault : processInstruction (.strict emptySlot) (oneWord 0x8B200000) =
      .error (.register 32) := by rfl
  rw [hfault] at hm'
  exact absurd hm' nofun

end OutOfRange

section Record

/-- What `process_instruction` leaves in `NEXT_STATE`, the memory and `RUN_BIT`. -/
def outcome (u : Indeterminate) (m : Machine) : Except Fault (CpuState × Memory × BitVec 32) :=
  (processInstruction u m).map fun m' => (m'.nextState, m'.memory, m'.runBit)

theorem DecodesTo.outcome_eq {u : Indeterminate} {m : Machine} {n : Name}
    (h : DecodesTo (fetch m) n) : outcome u m =
      (effect u m.currentState m.memory (decodeInstruction u.instrDef (fetch m)) n).map
        fun e => ((finish e m).nextState, (finish e m).memory, (finish e m).runBit) := by
  rw [outcome, processInstruction_eq, h.instructionEffect_eq]
  cases effect u m.currentState m.memory (decodeInstruction u.instrDef (fetch m)) n <;> rfl

/-- The sign bit decides bit 61 of a branch offset. -/
theorem getLsbD_signedOffset19 (tested address : BitVec 32) :
    (signedOffset19 tested address).getLsbD 61 = tested.getLsbD 18 := by
  have htest := and_bit_ne_zero_iff tested (k := 18) (by decide)
  unfold signedOffset19
  split_ifs with h
  · have hm : (0xFFFFFFFFFFFC0000 : BitVec 64).getLsbD 61 = true := by decide
    rw [BitVec.getLsbD_or, hm, Bool.or_true, htest.mp h]
  · rw [BitVec.getLsbD_setWidth, BitVec.getLsbD_of_ge _ 61 (by omega), Bool.and_false]
    exact (Bool.eq_false_iff.mpr (mt htest.mpr h)).symm

/-- The sign of a branch offset always matters for the target. -/
theorem signedOffset19_target_iff (pc : BitVec 64) (t t' address : BitVec 32) :
    pc + (signedOffset19 t address <<< 2) = pc + (signedOffset19 t' address <<< 2) ↔
      t.getLsbD 18 = t'.getLsbD 18 := by
  constructor
  · intro h
    have hshift (x : BitVec 64) : (x <<< 2).getLsbD 63 = x.getLsbD 61 := by
      rw [BitVec.getLsbD_shiftLeft]
      rfl
    have hbit := congrArg (fun x => x.getLsbD 63) (add_left_cancel h)
    simpa only [hshift, getLsbD_signedOffset19] using hbit
  · intro h
    have htest : t &&& (1#32 <<< 18) ≠ 0 ↔ t' &&& (1#32 <<< 18) ≠ 0 := by
      rw [and_bit_ne_zero_iff t (by decide), and_bit_ne_zero_iff t' (by decide), h]
    simp only [signedOffset19, htest]

/-- A taken CBNZ with an aligned program counter goes where the leftover sign points. -/
theorem DecodesTo.outcome_ne {m : Machine} (h : DecodesTo (fetch m) .cbnz)
    (hreg : m.currentState.reg (rd (fetch m)) ≠ 0) (hpc : m.currentState.pc % 4 = 0)
    (u : Indeterminate) :
    outcome { u with instrDef := { emptySlot with brAddress := 0 } } m ≠
      outcome { u with instrDef := { emptySlot with brAddress := 1#32 <<< 18 } } m := by
  simp only [h.outcome_eq, h.effect_cbnz, if_neg hreg, alignedBranchEffect_of_aligned hpc,
    Except.map]
  intro heq
  have hpc' := congrArg (fun x => x.1.pc) (Except.ok.inj heq)
  simp only [finish_pc, Option.getD_some] at hpc'
  exact absurd ((signedOffset19_target_iff _ _ _ _).mp hpc') (by decide)

/-- The outcome of a word that selects a mnemonic depends on the uninitialised record at a
taken CBNZ with an aligned program counter, and nowhere else. -/
theorem outcome_eq_iff {m : Machine} {n : Name} (h : DecodesTo (fetch m) n)
    (u : Indeterminate) :
    (∀ g g', outcome { u with instrDef := g } m = outcome { u with instrDef := g' } m) ↔
      ¬ (n = .cbnz ∧ m.currentState.reg (rd (fetch m)) ≠ 0 ∧ m.currentState.pc % 4 = 0) := by
  constructor
  · rintro hall ⟨rfl, hreg, hpc⟩
    exact h.outcome_ne hreg hpc u (hall _ _)
  · intro hcond g g'
    rw [h.outcome_eq, h.outcome_eq]
    by_cases hn : n = .cbnz
    · subst hn
      simp only [h.effect_cbnz]
      by_cases hreg : m.currentState.reg (rd (fetch m)) = 0
      · simp only [hreg, if_true]
      · have hpc : ¬ m.currentState.pc % 4 = 0 := fun hpc => hcond ⟨rfl, hreg, hpc⟩
        have hdropped (o : BitVec 64) :
            alignedBranchEffect (m.currentState.pc + (o <<< 2)) = {} :=
          if_pos (by rwa [ne_eq, add_shift_two_mod])
        simp only [hreg, if_false, hdropped]
    · rw [h.effect_record u m.currentState m.memory hn g g']

/-- MOVZ X0, #1. -/
theorem outcome_eq_movz : DecodesTo (fetch (oneWord 0xD2800020)) .movz ∧ ∀ g g',
    outcome { Indeterminate.zeroed with instrDef := g } (oneWord 0xD2800020) =
      outcome { Indeterminate.zeroed with instrDef := g' } (oneWord 0xD2800020) := by
  have hd : DecodesTo 0xD2800020 .movz := by decide +kernel
  exact ⟨hd.oneWord, (outcome_eq_iff hd.oneWord .zeroed).mpr fun hc => absurd hc.1 (by decide)⟩

/-- CBNZ X0 with X0 = 1. -/
theorem outcome_ne_cbnz : ¬ ∀ (m : Machine) (n : Name), DecodesTo (fetch m) n →
    ∀ (u : Indeterminate) (g g' : Instruction),
      outcome { u with instrDef := g } m = outcome { u with instrDef := g' } m := by
  intro hall
  let m := { oneWord 0xB5000040 with
    currentState := Effect.setReg (oneWord 0xB5000040).currentState (some (regNo 0, 1)) }
  have hd : DecodesTo 0xB5000040 .cbnz := by decide +kernel
  have hm : DecodesTo (fetch m) .cbnz := hd.oneWord
  have hreg : m.currentState.reg (rd (fetch m)) ≠ 0 := by decide +kernel
  have hpc : m.currentState.pc % 4 = 0 := by decide +kernel
  exact hm.outcome_ne hreg hpc .zeroed (hall m .cbnz hm .zeroed _ _)

end Record

section NoCrash

end NoCrash

end ArmSim.Verify
