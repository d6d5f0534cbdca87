import ArmSim.Verify.Flags
import ArmSim.Verify.Lanes

/-! Register 31. SUBS and ADD (extended) test the destination before they write; the other
register writers do not, so the register stays zero as long as none of them is given it
together with operands that make its result nonzero. -/
namespace ArmSim.Verify
open Shell Sim Spec Loop Relation Bytes

/-- The word has destination 31, its mnemonic does not test for that, and its operands do not
cancel out. -/
def Clobbers (n : Name) (w : BitVec 32) (s : CpuState) (mem : Memory) : Prop :=
  rd w = 31 ∧ match n with
  | .addsImmediate | .addImmediate => s.reg (rn w) ≠ -imm12 w
  | .addsExtendedRegister => s.reg (rn w) ≠ -s.reg (rm w)
  | .andsShiftedRegister =>
    ∃ i, (s.reg (rn w)).getLsbD i = true ∧ (s.reg (rm w)).getLsbD i = true
  | .eorShifterRegister => s.reg (rn w) ≠ s.reg (rm w)
  | .orrShiftedRegister => s.reg (rn w) ≠ 0 ∨ s.reg 0 ≠ 0
  | .mul => ¬ 2 ^ 64 ∣ (s.reg (rn w)).toNat * (s.reg (rm w)).toNat
  | .movz => imm16 w ≠ 0
  | .lslImmediate => (s.reg (rn w)).toNat % 2 ^ immr w ≠ 0
  | .lsrImmediate => 2 ^ immr w ≤ (s.reg (rn w)).toNat
  | .ldur => memRead32 mem (narrowed (accessAddress s w)) ≠ 0 ∨
      memRead32 mem ((alignedAddress (accessAddress s w) + 4).setWidth 64) ≠ 0
  | .ldurb => byte (memRead32 mem (narrowed (accessAddress s w)))
      ((accessAddress s w).toNat % 4) ≠ 0
  | _ => False

theorem and_ne_zero_iff (a b : BitVec 64) :
    a &&& b ≠ 0 ↔ ∃ i, a.getLsbD i = true ∧ b.getLsbD i = true := by
  constructor
  · intro h
    by_contra hnone
    refine h (BitVec.eq_of_getLsbD_eq fun i _ => ?_)
    have hi : ¬ (a.getLsbD i = true ∧ b.getLsbD i = true) := fun hi => hnone ⟨i, hi⟩
    simpa using hi
  · rintro ⟨i, ha, hb⟩ h
    have := congrArg (fun x => x.getLsbD i) h
    simp [ha, hb] at this

theorem mul_eq_zero_iff (a b : BitVec 64) : a * b = 0 ↔ 2 ^ 64 ∣ a.toNat * b.toNat := by
  rw [← BitVec.toNat_inj, BitVec.toNat_mul, Nat.dvd_iff_mod_eq_zero]
  rfl

theorem ushiftRight_eq_zero_iff (a : BitVec 64) (i : ℕ) : a >>> i = 0 ↔ a.toNat < 2 ^ i := by
  rw [← BitVec.toNat_inj, BitVec.toNat_ushiftRight, Nat.shiftRight_eq_div_pow]
  change a.toNat / 2 ^ i = 0 ↔ _
  rw [Nat.div_eq_zero_iff_lt (by positivity)]

theorem loadDoubleword_eq_zero_iff (mem : Memory) (a : BitVec 64) :
    loadDoubleword mem a = 0 ↔ memRead32 mem (narrowed a) = 0 ∧
      memRead32 mem ((alignedAddress a + 4).setWidth 64) = 0 := by
  constructor
  · intro h
    refine ⟨eq_of_bytes (n := 4) rfl fun i hi => ?_, eq_of_bytes (n := 4) rfl fun i hi => ?_⟩
    · have hb := byte_loadDoubleword mem a (show i < 8 by omega)
      rw [h, if_pos hi] at hb
      interval_cases i <;> exact hb.symm
    · have hb := byte_loadDoubleword mem a (show i + 4 < 8 by omega)
      rw [h, if_neg (by omega), Nat.add_sub_cancel] at hb
      interval_cases i <;> exact hb.symm
  · rintro ⟨hlow, hhigh⟩
    rw [loadDoubleword, hlow, hhigh]
    rfl

/-- For the register writers without a test, clobbering is a nonzero result for register 31. -/
theorem DecodesTo.clobbers_iff {n : Name} {w : BitVec 32} {s : CpuState} {mem : Memory}
    {r : BitVec 64} (h : DecodesTo w n) (hr : result s mem w n = some r)
    (hg : n.guardsZero = false) : Clobbers n w s mem ↔ rd w = 31 ∧ r ≠ 0 := by
  refine and_congr_right fun _ => ?_
  cases n with
  | addsImmediate | addImmediate | addsExtendedRegister =>
    obtain rfl := Option.some.inj hr
    exact not_congr eq_neg_iff_add_eq_zero
  | andsShiftedRegister =>
    obtain rfl := Option.some.inj hr
    exact (and_ne_zero_iff _ _).symm
  | eorShifterRegister =>
    obtain rfl := Option.some.inj hr
    exact not_congr BitVec.xor_eq_zero_iff.symm
  | orrShiftedRegister =>
    obtain rfl := Option.some.inj hr
    exact not_and_or.symm.trans (not_congr BitVec.or_eq_zero_iff.symm)
  | mul =>
    obtain rfl := Option.some.inj hr
    exact not_congr (mul_eq_zero_iff _ _).symm
  | movz =>
    obtain rfl := Option.some.inj hr
    exact Iff.rfl
  | lslImmediate =>
    obtain rfl := Option.some.inj hr
    have hi := h.lsl_immr
    exact not_congr (shiftLeft_eq_zero_iff (by omega) _).symm
  | lsrImmediate =>
    obtain rfl := Option.some.inj hr
    exact not_lt.symm.trans (not_congr (ushiftRight_eq_zero_iff _ _).symm)
  | ldur =>
    obtain rfl := Option.some.inj hr
    exact not_and_or.symm.trans (not_congr (loadDoubleword_eq_zero_iff _ _).symm)
  | ldurb =>
    obtain rfl := Option.some.inj hr
    have hz (b : BitVec 8) : b.setWidth 64 = 0 ↔ b = 0 := by
      have := b.isLt
      rw [← BitVec.toNat_inj, ← BitVec.toNat_inj, BitVec.toNat_setWidth,
        Nat.mod_eq_of_lt (by omega)]
      rfl
    exact not_congr ((hz _).trans (by rw [loadByte_eq])).symm
  | subsImmediate | subsExtendedRegister | addExtendedRegister => exact absurd hg (by decide)
  | hlt | b | br | bcond | stur | sturb | sturh | ldurh | cbz | cbnz | subImmediate
  | andImmediate => simp [result] at hr

section Guard
variable {u : Indeterminate} {s : CpuState} {mem : Memory} {i : Instruction} {n : Name}
  {e : Effect}

/-- The three tests of the destination work. -/
theorem effect_guarded (he : effect u s mem i n = .ok e) (hg : n.guardsZero = true)
    (h31 : i.rd = 31) : e.reg = none := by
  have hnone : ∀ r flags, resultEffect i.rd r flags true = .ok e → e.reg = none := by
    intro r flags hr
    rcases resultEffect_ok_iff.mp hr with ⟨-, -, rfl⟩ | ⟨hne, -⟩
    · rfl
    · exact absurd ⟨rfl, h31⟩ hne
  cases n with
  | subsImmediate | subsExtendedRegister | addExtendedRegister =>
    obtain ⟨-, -, -, -, r, -, hr⟩ := binaryEffect_ok_iff.mp he
    exact hnone r _ hr
  | _ => exact absurd hg (by decide)

/-- Only an unguarded write with destination 31 reaches register 31, whatever the record holds. -/
theorem reg31_of_effect (he : effect u s mem i n = .ok e)
    (h31 : n.writesReg = true → n.guardsZero = false → i.rd ≠ 31) (m : Machine) :
    (finish e m).currentState.reg 31 = m.nextState.reg 31 := by
  rw [finish_currentState, reg_finish]
  cases hreg : e.reg with
  | none => rfl
  | some w =>
    obtain ⟨hk, hw⟩ := (effect_confined he).reg w.1 w.2 hreg
    refine if_neg fun hval => ?_
    have hrd : i.rd = 31 := BitVec.eq_of_toNat_eq (hk.symm.trans hval)
    cases hg : n.guardsZero with
    | false => exact h31 hw hg hrd
    | true =>
      rw [effect_guarded he hg hrd] at hreg
      exact absurd hreg nofun

end Guard

theorem DecodesTo.guarded {u : Indeterminate} {s : CpuState} {mem : Memory} {g : Instruction}
    {n : Name} {w : BitVec 32} {e : Effect} (h : DecodesTo w n)
    (he : effect u s mem (decodeInstruction g w) n = .ok e) (hg : n.guardsZero = true)
    (hrd : rd w = 31) : e.reg = none := by
  refine effect_guarded he hg (BitVec.eq_of_toNat_eq ?_)
  have ht : rowType n ∈ [.I, .X, .IW, .R, .D] := by
    cases n <;> first | (exact absurd hg (by decide)) | decide
  rw [h.rd_eq ht, field_rd, hrd]
  rfl

/-- The step lemma. -/
theorem DecodesTo.zero_iff {u : Indeterminate} {m m' : Machine} {n : Name}
    (h : DecodesTo (fetch m) n) (hm : m.currentState = m.nextState)
    (hz : m.currentState.reg 31 = 0) (hc : cycle u m = .ok m') :
    m'.currentState.reg 31 = 0 ↔ ¬ Clobbers n (fetch m) m.currentState m.memory := by
  by_cases hrd : rd (fetch m) = 31
  · by_cases hg : n.guardsZero = true
    · obtain ⟨e, he, rfl⟩ := h.cycle_ok_iff.mp hc
      have hno : ¬ Clobbers n (fetch m) m.currentState m.memory := by
        cases n <;> first | (exact absurd hg (by decide)) | exact fun hcl => hcl.2
      refine iff_of_true ?_ hno
      rw [finish_currentState, reg_finish, h.guarded he hg hrd, ← hm, hz]
    · cases hr : result m.currentState m.memory (fetch m) n with
      | none =>
        have hw : n.writesReg = false := by
          cases n <;> first | rfl | simp [result] at hr
        have hno : ¬ Clobbers n (fetch m) m.currentState m.memory := by
          cases n <;> first | (exact fun hcl => hcl.2) | simp [result] at hr
        rw [h.reg_kept hw hc, ← hm]
        exact iff_of_true hz hno
      | some r =>
        have hadd : n ≠ .addExtendedRegister := by
          rintro rfl
          exact absurd hg (by decide)
        obtain ⟨m'', hc', hreg, -⟩ := h.cycle_computes (u := u) (absurd · hadd) hr hrd
          (absurd · hg)
        obtain rfl := Except.ok.inj (hc.symm.trans hc')
        rw [h.clobbers_iff hr (by simpa using hg), hreg, not_and, not_not]
        exact ⟨fun hz' _ => hz', fun himp => himp hrd⟩
  · have hfr := (h.frame hm hc).reg 31 (.inl fun heq => hrd heq.symm)
    exact iff_of_true (hfr.trans hz) fun hcl => hrd hcl.1

/-- One completed cycle of a word that does not clobber register 31; a word that selects no
mnemonic must not find an unguarded one for register 31 left over in the record either. -/
def ZeroStep (m m' : Machine) : Prop :=
  ∃ u, cycle u m = .ok m' ∧
    (∀ n, DecodesTo (fetch m) n → ¬ Clobbers n (fetch m) m.currentState m.memory) ∧
    ((∀ n, ¬ DecodesTo (fetch m) n) → ∀ n, u.instrDef.name = .name n → n.writesReg = true →
      n.guardsZero = false → (decodeInstruction u.instrDef (fetch m)).rd ≠ 31)

theorem ZeroStep.zero {m m' : Machine} (hm : m.currentState = m.nextState)
    (hz : m.currentState.reg 31 = 0) (h : ZeroStep m m') : m'.currentState.reg 31 = 0 := by
  obtain ⟨u, hc, hnamed, hother⟩ := h
  by_cases hn : ∃ n, DecodesTo (fetch m) n
  · obtain ⟨n, hn⟩ := hn
    exact (hn.zero_iff hm hz hc).mpr (hnamed n hn)
  · have hleft := hother fun n h => hn ⟨n, h⟩
    obtain ⟨e, he, rfl⟩ := cycle_ok_iff.mp hc
    rcases instructionEffect_cases he with rfl | ⟨n, hname, he⟩
    · rw [finish_currentState, reg_finish, ← hm, hz]
    · rw [decodeInstruction_name, decodeInstructionOpcode_eq] at hname
      cases hs : selectedRow (fetch m) with
      | none =>
        rw [hs] at hname
        rw [reg31_of_effect he (hleft n hname), ← hm, hz]
      | some row =>
        rw [hs] at hname
        exact absurd ⟨n, decodesTo_iff_row.mpr ⟨row, hs, hname⟩⟩ hn

/-- Register 31 is zero in every state that a run of such cycles reaches, however long it is,
and the next cycle keeps it there exactly when its word does not clobber it. -/
theorem zero_register {m₀ m : Machine} (hm : m₀.currentState = m₀.nextState)
    (hz : m₀.currentState.reg 31 = 0) (hrun : ReflTransGen ZeroStep m₀ m) :
    m.currentState.reg 31 = 0 ∧
      ∀ (u : Indeterminate) (m' : Machine) (n : Name), DecodesTo (fetch m) n →
        cycle u m = .ok m' →
          (m'.currentState.reg 31 = 0 ↔ ¬ Clobbers n (fetch m) m.currentState m.memory) := by
  have hinv : m.currentState = m.nextState ∧ m.currentState.reg 31 = 0 := by
    induction hrun with
    | refl => exact ⟨hm, hz⟩
    | tail _ hstep ih =>
      exact ⟨hstep.elim fun _ h => latched_of_cycle h.1, hstep.zero ih.1 ih.2⟩
  exact ⟨hinv.2, fun u m' n h hc => h.zero_iff hinv.1 hinv.2 hc⟩

/-- CMN X0, #1 and CMP X0, #1 with X0 = -1. -/
def twoCompares : Machine := withReg 0 (-1) (twoWords 0xB100041F 0xF100041F)

theorem zero_register_compares : ∃ m₁ m₂, cycle .zeroed twoCompares = .ok m₁ ∧
    cycle .zeroed m₁ = .ok m₂ ∧ m₂.currentState.reg 31 = 0 := by
  obtain ⟨hf₁, hf₂⟩ := fetch_twoWords 0xB100041F 0xF100041F
  have hf : fetch twoCompares = 0xB100041F := (fetch_withReg 0 (-1) _).trans hf₁
  have hd₁ : DecodesTo (fetch twoCompares) .addsImmediate := by
    rw [hf]
    decide +kernel
  obtain ⟨m₁, hc₁⟩ := hd₁.cycle_defined (u := .zeroed) fun h => absurd (hf ▸ h) (by decide)
  have hstep₁ : ZeroStep twoCompares m₁ := by
    refine ⟨.zeroed, hc₁, fun n hn hcl => ?_, fun hnone => absurd hd₁ (hnone _)⟩
    obtain rfl := hn.unique hd₁
    rw [hf] at hcl
    exact hcl.2 (by decide)
  have hframe := hd₁.frame rfl hc₁
  have hnext : fetch m₁ = 0xF100041F := by
    rw [fetch, hframe.memory (by decide), hframe.pc (by decide)]
    exact hf₂
  have hd₂ : DecodesTo (fetch m₁) .subsImmediate := by
    rw [hnext]
    decide +kernel
  obtain ⟨m₂, hc₂⟩ := hd₂.cycle_defined (u := .zeroed) fun h => absurd (hnext ▸ h) (by decide)
  have hstep₂ : ZeroStep m₁ m₂ := by
    refine ⟨.zeroed, hc₂, fun n hn hcl => ?_, fun hnone => absurd hd₂ (hnone _)⟩
    obtain rfl := hn.unique hd₂
    exact hcl.2
  have hz : twoCompares.currentState.reg 31 = 0 := by decide +kernel
  exact ⟨m₁, m₂, hc₁, hc₂, (zero_register rfl hz (.tail (.single hstep₁) hstep₂)).1⟩

/-- ADDS XZR, X0, #1 leaves 1 in register 31. -/
theorem zero_register_clobbered : ¬ ∀ (programs : List (List (BitVec 32))) (m : Machine),
    ReflTransGen (fun a b => ∃ u, cycle u a = .ok b)
      (initializeMachine (fun _ _ => 0) programs) m → m.currentState.reg 31 = 0 := by
  intro hall
  have hone : (cycle .zeroed (oneWord 0xB100041F)).map (·.currentState.reg 31) = .ok 1 := by
    decide +kernel
  obtain ⟨m', hc, hreg⟩ := map_ok_iff.mp hone
  have hz := hall [[0xB100041F]] m' (.single ⟨.zeroed, hc⟩)
  exact absurd (hreg.symm.trans hz) (by decide)

end ArmSim.Verify
