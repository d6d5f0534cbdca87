import ArmSim.Spec.Operands
import ArmSim.Verify.Cycle
import ArmSim.Verify.Decoder

/-! The effect of a word that selects a mnemonic, in terms of the word's own fields. Since the
type column fixes which fields the decoder sets, what the record held before drops out. -/
namespace ArmSim.Verify
open Shell Sim Spec Loop

theorem readReg_eq (u : Indeterminate) (s : CpuState) {i : BitVec 32} {k : BitVec 5}
    (h : i.toNat = k.toNat) : readReg u s i = .ok (s.reg k) := by
  have hk := k.isLt
  unfold readReg CpuState.reg
  rw [dif_pos (by rw [h]; exact hk)]
  simp only [h]
  rfl

theorem readReg_regAt (u : Indeterminate) (s : CpuState) (i : ℕ) (w : BitVec 32) :
    readReg u s ((w >>> i) &&& mask5bits) = .ok (s.reg (regAt i w)) :=
  readReg_eq u s (field_regAt i w)

theorem regIndex_eq {i : BitVec 32} {k : BitVec 5} (h : i.toNat = k.toNat) :
    regIndex i = .ok (regNo k) :=
  regIndex_ok_iff.mpr h.symm

theorem resultEffect_eq {i : BitVec 32} {k : BitVec 5} (h : i.toNat = k.toNat) (r : BitVec 64)
    (flags guarded : Bool) :
    resultEffect i r flags guarded = .ok
      { reg := if guarded ∧ k = 31 then none else some (regNo k, r)
        flags := if flags then some r else none } := by
  have h31 : i = 31 ↔ k = 31 := by
    rw [← BitVec.toNat_inj, ← BitVec.toNat_inj, h]
    rfl
  rw [resultEffect_ok_iff, h31]
  by_cases hg : guarded = true ∧ k = 31
  · exact .inl ⟨hg.1, hg.2, by rw [if_pos hg]⟩
  · exact .inr ⟨hg, regNo k, h.symm, by rw [if_neg hg]⟩

theorem DecodesTo.record_eq {w : BitVec 32} {n : Name} (h : DecodesTo w n)
    (instr : Instruction) : decodeInstruction instr w =
      decodeCompletelyInstruction { decodeInstructionOpcode instr w with type := rowType n } w := by
  rw [← h.type_eq instr]
  rfl

theorem DecodesTo.lsl_immr {w : BitVec 32} (h : DecodesTo w .lslImmediate) :
    32 ≤ immr w ∧ immr w < 64 := by
  have hp := topBits_prefix w
  rw [decodesTo_iff, tableOpcode_eq] at h
  simp only [topBits, pattern, reduceCtorEq, false_and, false_or, immr, bits] at h hp ⊢
  omega

theorem DecodesTo.lsr_immr {w : BitVec 32} (h : DecodesTo w .lsrImmediate) : immr w < 32 := by
  have hp := topBits_prefix w
  rw [decodesTo_iff, tableOpcode_eq] at h
  simp only [topBits, pattern, reduceCtorEq, false_and, false_or, immr, bits] at h hp ⊢
  omega

/-- Bits 23:22, which number the second operand of ORR, belong to its opcode. -/
theorem DecodesTo.orr_shamt {w : BitVec 32} (h : DecodesTo w .orrShiftedRegister) :
    bits 22 2 w = 0 := by
  have hp := topBits_prefix w
  rw [decodesTo_iff, tableOpcode_eq] at h
  simp only [topBits, pattern, reduceCtorEq, false_and, false_or, bits] at h hp ⊢
  omega

/-- The six-bit register field of ADD is a register number unless bit 21 is set. -/
theorem DecodesTo.add_rm {w : BitVec 32} (h : DecodesTo w .addExtendedRegister) :
    bits 16 6 w = (rm w).toNat + if topBits 11 w = 0b10001011001 then 32 else 0 := by
  have hp := topBits_prefix w
  rw [decodesTo_iff, tableOpcode_eq] at h
  rw [rm, toNat_regAt]
  simp only [pattern, reduceCtorEq, false_and, false_or] at h
  split
  all_goals
    simp only [topBits, bits] at *
    omega

section Named
variable (u : Indeterminate) (s : CpuState) (mem : Memory) {w : BitVec 32} {n : Name}

private theorem binaryEffect_eq {i : Instruction} {op2 : Except Fault (BitVec 64)}
    {f : BitVec 64 → BitVec 64 → Except Fault (BitVec 64)} {a b r : BitVec 64} {k : BitVec 5}
    (ha : readReg u s i.rn = .ok a) (hb : op2 = .ok b) (hf : f a b = .ok r)
    (hrd : i.rd.toNat = k.toNat) (flags guarded : Bool) :
    binaryEffect u s i op2 f flags guarded = .ok
      { reg := if guarded ∧ k = 31 then none else some (regNo k, r)
        flags := if flags then some r else none } :=
  binaryEffect_ok_iff.mpr ⟨a, ha, b, hb, r, hf, resultEffect_eq hrd r flags guarded⟩

theorem DecodesTo.address_eq (h : DecodesTo w n) (hD : rowType n = .D) (g : Instruction) :
    address u s (decodeInstruction g w) = .ok (accessAddress s w) := by
  rw [h.record_eq g, hD]
  unfold address
  change Except.map _ (readReg u s ((w >>> 5) &&& mask5bits)) = _
  rw [readReg_regAt u s 5 w]
  rfl

/-- Every mnemonic with a result commits exactly that result. The bit that lets ADD number
its second operand past the register file has to be clear. -/
theorem DecodesTo.effect_eq (h : DecodesTo w n)
    (hadd : n = .addExtendedRegister → topBits 11 w ≠ 0b10001011001) {r : BitVec 64}
    (hr : result s mem w n = some r) (g : Instruction) :
    effect u s mem (decodeInstruction g w) n = .ok (writeback n w r) := by
  rw [h.record_eq g]
  have hn := readReg_regAt u s 5 w
  have hm := readReg_regAt u s 16 w
  have hd := field_rd w
  cases n with
  | addsImmediate | subsImmediate | addImmediate =>
    obtain rfl := Option.some.inj hr
    exact binaryEffect_eq u s hn rfl rfl hd _ _
  | addsExtendedRegister | subsExtendedRegister | andsShiftedRegister | eorShifterRegister
  | mul =>
    obtain rfl := Option.some.inj hr
    exact binaryEffect_eq u s hn hm rfl hd _ _
  | orrShiftedRegister =>
    obtain rfl := Option.some.inj hr
    have h0 : ((w >>> 22) &&& mask2bits).toNat = (0 : BitVec 5).toNat :=
      (toNat_field w mask2bits 22 2 rfl).trans h.orr_shamt
    exact binaryEffect_eq u s hn (readReg_eq u s h0) rfl hd _ _
  | addExtendedRegister =>
    obtain rfl := Option.some.inj hr
    have hrm : ((w >>> 16) &&& mask26).toNat = (rm w).toNat := by
      rw [toNat_field w mask26 16 6 rfl, h.add_rm, if_neg (hadd rfl), Nat.add_zero]
    exact binaryEffect_eq u s hn (readReg_eq u s hrm) rfl hd _ _
  | lslImmediate =>
    obtain rfl := Option.some.inj hr
    have hi := h.lsl_immr
    have hf : shiftLeft u (s.reg (rn w)) ((64 - ((w >>> 16) &&& mask26)).setWidth 64) =
        .ok (s.reg (rn w) <<< (64 - immr w)) := by
      have ht : ((64 - ((w >>> 16) &&& mask26)).setWidth 64).toNat = 64 - immr w := by
        rw [BitVec.toNat_setWidth, BitVec.toNat_sub, toNat_field w mask26 16 6 rfl]
        change (2 ^ 32 - immr w + 64) % 2 ^ 32 % 2 ^ 64 = 64 - immr w
        omega
      rw [shiftLeft, if_pos (by omega), BitVec.shiftLeft_eq', ht]
    exact binaryEffect_eq u s hn rfl hf hd _ _
  | lsrImmediate =>
    obtain rfl := Option.some.inj hr
    have hi := h.lsr_immr
    have hf : shiftRight u (s.reg (rn w)) (((w >>> 16) &&& mask26).setWidth 64) =
        .ok (s.reg (rn w) >>> immr w) := by
      have ht : (((w >>> 16) &&& mask26).setWidth 64).toNat = immr w := by
        rw [BitVec.toNat_setWidth, toNat_field w mask26 16 6 rfl]
        change immr w % 2 ^ 64 = immr w
        omega
      rw [shiftRight, if_pos (by omega), BitVec.ushiftRight_eq', ht]
    exact binaryEffect_eq u s hn rfl hf hd _ _
  | movz =>
    obtain rfl := Option.some.inj hr
    exact resultEffect_eq hd _ true false
  | ldur | ldurb =>
    obtain rfl := Option.some.inj hr
    have ha := h.record_eq g ▸ h.address_eq u s rfl g
    exact bind_ok_iff.mpr ⟨_, ha, bind_ok_iff.mpr ⟨_, regIndex_eq hd, rfl⟩⟩
  | hlt | b | br | bcond | stur | sturb | sturh | ldurh | cbz | cbnz | subImmediate
  | andImmediate => simp [result] at hr

theorem DecodesTo.effect_store (h : DecodesTo w n) (hn : n.isStore = true) (g : Instruction) :
    effect u s mem (decodeInstruction g w) n = .ok
      { store := some (storeBase n (accessAddress s w),
          storeWord mem (accessAddress s w) (s.reg (rd w)) n) } := by
  have hD : rowType n = .D := by
    cases n <;> first | rfl | exact absurd hn (by decide)
  have hv : readReg u s (decodeInstruction g w).rd = .ok (s.reg (rd w)) := by
    rw [h.rd_eq (by rw [hD]; decide) g]
    exact readReg_eq u s (field_rd w)
  cases n with
  | stur | sturb | sturh =>
    exact bind_ok_iff.mpr ⟨_, h.address_eq u s rfl g, bind_ok_iff.mpr ⟨_, hv, rfl⟩⟩
  | _ => exact absurd hn (by decide)

/-- A named word can only fail at the second operand of ADD. -/
theorem DecodesTo.effect_defined (h : DecodesTo w n)
    (hadd : topBits 11 w = 0b10001011001 → ∃ v, readReg u s ((w >>> 16) &&& mask26) = .ok v)
    (g : Instruction) : ∃ e, effect u s mem (decodeInstruction g w) n = .ok e := by
  have hresult : ∀ r, result s mem w n = some r → n ≠ .addExtendedRegister →
      ∃ e, effect u s mem (decodeInstruction g w) n = .ok e :=
    fun r hr hn => ⟨_, h.effect_eq u s mem (fun hn' => absurd hn' hn) hr g⟩
  cases n with
  | addsImmediate | subsImmediate | addImmediate | addsExtendedRegister | subsExtendedRegister
  | andsShiftedRegister | eorShifterRegister | mul | orrShiftedRegister | lslImmediate
  | lsrImmediate | movz | ldur | ldurb => exact hresult _ rfl nofun
  | addExtendedRegister =>
    by_cases h21 : topBits 11 w = 0b10001011001
    · obtain ⟨v, hv⟩ := hadd h21
      rw [h.record_eq g]
      exact ⟨_, binaryEffect_eq u s (readReg_regAt u s 5 w) hv rfl (field_rd w) _ _⟩
    · exact ⟨_, h.effect_eq u s mem (fun _ => h21) rfl g⟩
  | stur | sturb | sturh => exact ⟨_, h.effect_store u s mem rfl g⟩
  | ldurh =>
    have hk : regIndex (decodeInstruction g w).rd = .ok (regNo (rd w)) := by
      rw [h.rd_eq (by decide) g]
      exact regIndex_eq (field_rd w)
    exact ⟨_, bind_ok_iff.mpr ⟨_, h.address_eq u s rfl g, bind_ok_iff.mpr ⟨_, hk, rfl⟩⟩⟩
  | cbz | cbnz =>
    have hv : readReg u s (decodeInstruction g w).rt = .ok (s.reg (rd w)) := by
      rw [h.record_eq g]
      exact readReg_eq u s (field_rd w)
    exact ⟨_, bind_ok_iff.mpr ⟨_, hv, rfl⟩⟩
  | br =>
    have hv : readReg u s (decodeInstruction g w).rn = .ok (s.reg (rn w)) := by
      rw [h.record_eq g]
      exact readReg_regAt u s 5 w
    exact ⟨_, map_ok_iff.mpr ⟨_, hv, rfl⟩⟩
  | hlt | b | bcond | subImmediate | andImmediate => exact ⟨_, rfl⟩

/-- Only CBNZ looks at a field that the decoder leaves as it was. -/
theorem DecodesTo.effect_record (h : DecodesTo w n) (hn : n ≠ .cbnz) (g g' : Instruction) :
    effect { u with instrDef := g } s mem (decodeInstruction g w) n =
      effect { u with instrDef := g' } s mem (decodeInstruction g' w) n := by
  rw [h.record_eq g, h.record_eq g']
  cases n <;> first | contradiction | rfl

theorem DecodesTo.effect_cbz (h : DecodesTo w .cbz) (g : Instruction) :
    effect u s mem (decodeInstruction g w) .cbz = .ok
      (if s.reg (rd w) = 0 then alignedBranchEffect (s.pc +
        (signedOffset19 ((w >>> 5) &&& mask19bits) ((w >>> 5) &&& mask19bits) <<< 2))
      else { pc := some (s.pc + 4) }) := by
  have hv : readReg u s (w &&& mask5bits) = .ok (s.reg (rd w)) := readReg_eq u s (field_rd w)
  rw [h.record_eq g]
  exact bind_ok_iff.mpr ⟨_, hv, rfl⟩

theorem DecodesTo.effect_cbnz (h : DecodesTo w .cbnz) (g : Instruction) :
    effect u s mem (decodeInstruction g w) .cbnz = .ok
      (if s.reg (rd w) = 0 then { pc := some (s.pc + 4) }
      else alignedBranchEffect (s.pc +
        (signedOffset19 g.brAddress ((w >>> 5) &&& mask19bits) <<< 2))) := by
  have hbr : (decodeInstructionOpcode g w).brAddress = g.brAddress := by
    rw [decodeInstructionOpcode_eq]
    cases selectedRow w <;> rfl
  have hv : readReg u s (w &&& mask5bits) = .ok (s.reg (rd w)) := readReg_eq u s (field_rd w)
  rw [h.record_eq g, ← hbr]
  exact bind_ok_iff.mpr ⟨_, hv, rfl⟩

end Named

/-- The effect that a named word commits, whatever the record held. -/
theorem DecodesTo.instructionEffect_eq {u : Indeterminate} {m : Machine} {n : Name}
    (h : DecodesTo (fetch m) n) : instructionEffect u m =
      effect u m.currentState m.memory (decodeInstruction u.instrDef (fetch m)) n := by
  simp only [instructionEffect, h.name_eq]

theorem DecodesTo.cycle_ok_iff {u : Indeterminate} {m m' : Machine} {n : Name}
    (h : DecodesTo (fetch m) n) : cycle u m = .ok m' ↔ ∃ e,
      effect u m.currentState m.memory (decodeInstruction u.instrDef (fetch m)) n = .ok e ∧
        m' = finish e m := by
  rw [Verify.cycle_ok_iff, h.instructionEffect_eq]

theorem DecodesTo.cycle_defined {u : Indeterminate} {m : Machine} {n : Name}
    (h : DecodesTo (fetch m) n) (hadd : topBits 11 (fetch m) = 0b10001011001 →
      ∃ v, readReg u m.currentState ((fetch m >>> 16) &&& mask26) = .ok v) :
    ∃ m', cycle u m = .ok m' := by
  obtain ⟨e, he⟩ := h.effect_defined u m.currentState m.memory hadd u.instrDef
  exact ⟨_, h.cycle_ok_iff.mpr ⟨e, he, rfl⟩⟩

end ArmSim.Verify
