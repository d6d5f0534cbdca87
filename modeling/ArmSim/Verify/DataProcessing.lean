import ArmSim.Verify.Step

/-! The bitwise operations on two registers and the operations with an immediate. ORR takes its
second operand from X0, and no immediate is ever shifted. -/
namespace ArmSim.Verify
open Shell Sim Spec Loop

section Bitwise
variable {u : Indeterminate} {m : Machine} {xm xn xd : BitVec 5}

/-- A cycle of an operation on two registers. -/
theorem registerWord_cycle {op : BitVec 11} {n : Name} {imm6 : BitVec 6}
    (hd : DecodesTo (registerWord op 0 0 0 0) n)
    (hadd : n = .addExtendedRegister → op ≠ 0b10001011001)
    (hf : fetch m = registerWord op xm imm6 xn xd) {r : BitVec 64}
    (hr : result m.currentState m.memory (registerWord op xm imm6 xn xd) n = some r) :
    cycle u m = .ok (finish (writeback n (registerWord op xm imm6 xn xd) r) m) := by
  have h : DecodesTo (fetch m) n := hf ▸ registerWord_decodes hd xm imm6 xn xd
  have htop : n = .addExtendedRegister → topBits 11 (fetch m) ≠ 0b10001011001 := by
    intro hn heq
    rw [hf, topBits_registerWord] at heq
    exact hadd hn (BitVec.eq_of_toNat_eq heq)
  have hc := h.cycle_result (u := u) htop (hf ▸ hr)
  rwa [hf] at hc

theorem registerWord_computes {op : BitVec 11} {n : Name} {imm6 : BitVec 6}
    (hd : DecodesTo (registerWord op 0 0 0 0) n) (hn : n.guardsZero = false)
    (hf : fetch m = registerWord op xm imm6 xn xd) {r : BitVec 64}
    (hr : result m.currentState m.memory (registerWord op xm imm6 xn xd) n = some r) :
    ∃ m', cycle u m = .ok m' ∧ m'.currentState.reg xd = r := by
  have hadd : n ≠ .addExtendedRegister := by
    rintro rfl
    exact absurd hn (by decide)
  have hg : ¬ (n.guardsZero = true ∧ xd = 31) := fun hg => absurd (hn.symm.trans hg.1) (by decide)
  refine ⟨_, registerWord_cycle hd (absurd · hadd) hf hr, ?_⟩
  rw [reg_writeback, rd_registerWord, if_pos ⟨rfl, hg⟩]

theorem ands_yields (hf : fetch m = registerWord 0b11101010000 xm 0 xn xd) :
    Yields (cycle u m) fun m' => m'.currentState.reg xd =
      m.currentState.reg xn &&& m.currentState.reg xm :=
  registerWord_computes (n := .andsShiftedRegister) (by decide) rfl hf
    (by rw [result, rn_registerWord, rm_registerWord])

theorem eor_yields (hf : fetch m = registerWord 0b11001010000 xm 0 xn xd) :
    Yields (cycle u m) fun m' => m'.currentState.reg xd =
      m.currentState.reg xn ^^^ m.currentState.reg xm :=
  registerWord_computes (n := .eorShifterRegister) (by decide) rfl hf
    (by rw [result, rn_registerWord, rm_registerWord])

/-- Whatever `xm` is, ORR combines with X0. -/
theorem orr_yields_iff (hf : fetch m = registerWord 0b10101010000 xm 0 xn xd) (v : BitVec 64) :
    Yields (cycle u m) (fun m' => m'.currentState.reg xd = v) ↔
      m.currentState.reg xn ||| m.currentState.reg 0 = v := by
  obtain ⟨m', hc, hreg⟩ := registerWord_computes (u := u) (n := .orrShiftedRegister) (by decide)
    rfl hf (by rw [result, rn_registerWord])
  rw [yields_iff hc, hreg]

theorem or_eq_or_iff {w : ℕ} (a b c : BitVec w) : a ||| b = a ||| c ↔
    ∀ i, a.getLsbD i = false → b.getLsbD i = c.getLsbD i := by
  constructor
  · intro h i hi
    have hbit := congrArg (fun x => x.getLsbD i) h
    simpa only [BitVec.getLsbD_or, hi, Bool.false_or] using hbit
  · intro h
    apply BitVec.eq_of_getLsbD_eq
    intro i _
    rw [BitVec.getLsbD_or, BitVec.getLsbD_or]
    cases hi : a.getLsbD i with
    | true => rfl
    | false => rw [h i hi]

/-- AND and EOR are right. ORR is exactly when its second operand and X0 agree where the first
one has clear bits, and MOV exactly when its operand equals X0. -/
theorem bitwise_iff (u : Indeterminate) (m : Machine) (xm xn xd : BitVec 5) :
    (fetch m = registerWord 0b11101010000 xm 0 xn xd → Yields (cycle u m) fun m' =>
      m'.currentState.reg xd = m.currentState.reg xn &&& m.currentState.reg xm) ∧
    (fetch m = registerWord 0b11001010000 xm 0 xn xd → Yields (cycle u m) fun m' =>
      m'.currentState.reg xd = m.currentState.reg xn ^^^ m.currentState.reg xm) ∧
    (fetch m = registerWord 0b10101010000 xm 0 xn xd →
      (Yields (cycle u m) (fun m' =>
        m'.currentState.reg xd = m.currentState.reg xn ||| m.currentState.reg xm) ↔
        ∀ i, (m.currentState.reg xn).getLsbD i = false →
          (m.currentState.reg 0).getLsbD i = (m.currentState.reg xm).getLsbD i)) ∧
    (fetch m = registerWord 0b10101010000 xm 0 31 xd → m.currentState.reg 31 = 0 →
      (Yields (cycle u m) (fun m' => m'.currentState.reg xd = m.currentState.reg xm) ↔
        m.currentState.reg 0 = m.currentState.reg xm)) := by
  refine ⟨ands_yields, eor_yields, fun hf => ?_, fun hf hz => ?_⟩
  · rw [orr_yields_iff hf, or_eq_or_iff]
  · have hzero : (0 : BitVec 64) ||| m.currentState.reg 0 = m.currentState.reg 0 :=
      BitVec.zero_or
    rw [orr_yields_iff hf, hz, hzero]

/-- MOV X1, X0 with X0 = 7. -/
theorem bitwise_iff_mov :
    Yields (cycle .zeroed (withReg 0 7 (oneWord (registerWord 0b10101010000 0 0 31 1))))
      fun m' => m'.currentState.reg 1 = 7 := by
  have hf : fetch (withReg 0 7 (oneWord (registerWord 0b10101010000 0 0 31 1))) =
      registerWord 0b10101010000 0 0 31 1 := (fetch_withReg 0 7 _).trans (fetch_oneWord _)
  have hx : (withReg 0 7 (oneWord (registerWord 0b10101010000 0 0 31 1))).currentState.reg 0 =
      7 := by decide
  have hy := ((bitwise_iff .zeroed _ 0 31 1).2.2.2 hf (by decide)).mpr rfl
  rwa [hx] at hy

/-- MOV X2, X1 with X1 = 1 and X0 = 0. -/
theorem not_bitwise : ¬ ∀ (u : Indeterminate) (m : Machine) (xm xn xd : BitVec 5), xd ≠ 31 →
    (fetch m = registerWord 0b11101010000 xm 0 xn xd → Yields (cycle u m) fun m' =>
      m'.currentState.reg xd = m.currentState.reg xn &&& m.currentState.reg xm) ∧
    (fetch m = registerWord 0b11001010000 xm 0 xn xd → Yields (cycle u m) fun m' =>
      m'.currentState.reg xd = m.currentState.reg xn ^^^ m.currentState.reg xm) ∧
    (fetch m = registerWord 0b10101010000 xm 0 xn xd → Yields (cycle u m) fun m' =>
      m'.currentState.reg xd = m.currentState.reg xn ||| m.currentState.reg xm) := by
  intro hall
  have hf : fetch (withReg 1 1 (oneWord (registerWord 0b10101010000 1 0 31 2))) =
      registerWord 0b10101010000 1 0 31 2 := (fetch_withReg 1 1 _).trans (fetch_oneWord _)
  have hy := (hall .zeroed _ 1 31 2 (by decide)).2.2 hf
  exact absurd ((orr_yields_iff hf _).mp hy) (by decide)

end Bitwise

section Immediate
variable {u : Indeterminate} {m : Machine}

/-- An unshifted field is the shifted one only if nothing was to be shifted. -/
theorem setWidth_eq_shift_iff {n k : ℕ} (hk : n + k ≤ 64) (imm : BitVec n) :
    imm.setWidth 64 = imm.setWidth 64 <<< k ↔ k = 0 ∨ imm = 0 := by
  have hlt : imm.toNat * 2 ^ k < 2 ^ 64 := by
    calc imm.toNat * 2 ^ k < 2 ^ n * 2 ^ k := Nat.mul_lt_mul_of_pos_right imm.isLt (by positivity)
      _ = 2 ^ (n + k) := (pow_add 2 n k).symm
      _ ≤ 2 ^ 64 := Nat.pow_le_pow_right (by decide) hk
  have himm : imm.toNat < 2 ^ 64 := by
    refine lt_of_le_of_lt ?_ hlt
    exact Nat.le_mul_of_pos_right _ (by positivity)
  rw [← BitVec.toNat_inj, BitVec.toNat_shiftLeft, Nat.shiftLeft_eq, BitVec.toNat_setWidth,
    Nat.mod_eq_of_lt himm, Nat.mod_eq_of_lt hlt, eq_comm]
  constructor
  · intro h
    by_cases hz : imm.toNat = 0
    · exact .inr (BitVec.eq_of_toNat_eq hz)
    · have hpow : 2 ^ k = 1 := (Nat.mul_eq_left hz).mp h
      exact .inl ((Nat.pow_eq_one.mp hpow).resolve_left (by decide))
  · rintro (rfl | rfl)
    · rw [pow_zero, mul_one]
    · exact Nat.zero_mul _

theorem mul_toNat_eq_zero_iff {n k : ℕ} (hk : k ≠ 0) (x : BitVec n) :
    k * x.toNat = 0 ↔ x = 0 := by
  rw [Nat.mul_eq_zero, or_iff_right hk]
  exact BitVec.toNat_inj (y := 0)

/-- The second operand of an instruction with a 12-bit immediate, as its shift field says. -/
def scaled (sh : BitVec 2) (imm : BitVec 12) : BitVec 64 := imm.setWidth 64 <<< (12 * sh.toNat)

theorem scaled_iff {sh : BitVec 2} (hsh : sh.toNat < 2) (imm : BitVec 12) :
    imm.setWidth 64 = scaled sh imm ↔ sh = 0 ∨ imm = 0 := by
  unfold scaled
  rw [setWidth_eq_shift_iff (by omega), mul_toNat_eq_zero_iff (by decide)]

/-- The destination and the flags that a cycle leaves are those of the result `r`. -/
def Sets (xd : BitVec 5) (r : BitVec 64) (m' : Machine) : Prop :=
  m'.currentState.reg xd = r ∧ m'.currentState.flagN = (if r.msb then 1 else 0) ∧
    m'.currentState.flagZ = if r = 0 then 1 else 0

/-- A cycle of an operation with a 12-bit immediate. -/
theorem immediateWord_computes {op : BitVec 8} {n : Name} {sh : BitVec 2} {imm : BitVec 12}
    {xn xd : BitVec 5} (hop : op.toNat = tableOpcode n) (hadd : n ≠ .addExtendedRegister)
    (hxd : xd ≠ 31) (hf : fetch m = immediateWord op sh imm xn xd) {r : BitVec 64}
    (hr : result m.currentState m.memory (immediateWord op sh imm xn xd) n = some r) :
    ∃ m', cycle u m = .ok m' ∧ m'.currentState.reg xd = r ∧
      (n.setsFlags = true → Sets xd r m') := by
  have h : DecodesTo (fetch m) n :=
    hf ▸ decodesTo_of_topBits8 ((topBits_immediateWord _ _ _ _ _).trans hop)
  obtain ⟨m', hc, hreg, hN, hZ⟩ := h.cycle_computes (u := u) (absurd · hadd) (hf ▸ hr)
    (hf ▸ rd_immediateWord _ _ _ _ _) fun _ => hxd
  refine ⟨m', hc, hreg, fun hset => ⟨hreg, ?_, ?_⟩⟩
  · rw [hN, if_pos hset, flagNOf_eq]
  · rw [hZ, if_pos hset, flagZOf]

theorem Sets.iff {xd : BitVec 5} {r r' : BitVec 64} {m' : Machine} (h : Sets xd r m') :
    Sets xd r' m' ↔ r = r' := by
  constructor
  · exact fun h' => h.1.symm.trans h'.1
  · rintro rfl
    exact h

section Scaled
variable {sh : BitVec 2} {imm : BitVec 12} {xn xd : BitVec 5} (hsh : sh.toNat < 2)
  (hxd : xd ≠ 31)
include hsh hxd

theorem add_yields_iff (hf : fetch m = immediateWord 0b10010001 sh imm xn xd) :
    Yields (cycle u m) (fun m' =>
      m'.currentState.reg xd = m.currentState.reg xn + scaled sh imm) ↔ sh = 0 ∨ imm = 0 := by
  obtain ⟨m', hc, hreg, -⟩ := immediateWord_computes (u := u) (n := .addImmediate) (by rfl)
    (by decide) hxd hf (by rw [result, rn_immediateWord, imm12_immediateWord])
  rw [yields_iff hc, hreg, add_right_inj, scaled_iff hsh]

theorem adds_yields_iff (hf : fetch m = immediateWord 0b10110001 sh imm xn xd) :
    Yields (cycle u m) (Sets xd (m.currentState.reg xn + scaled sh imm)) ↔
      sh = 0 ∨ imm = 0 := by
  obtain ⟨m', hc, -, hsets⟩ := immediateWord_computes (u := u) (n := .addsImmediate) (by rfl)
    (by decide) hxd hf (by rw [result, rn_immediateWord, imm12_immediateWord])
  rw [yields_iff hc, (hsets rfl).iff, add_right_inj, scaled_iff hsh]

theorem subs_yields_iff (hf : fetch m = immediateWord 0b11110001 sh imm xn xd) :
    Yields (cycle u m) (Sets xd (m.currentState.reg xn - scaled sh imm)) ↔
      sh = 0 ∨ imm = 0 := by
  obtain ⟨m', hc, -, hsets⟩ := immediateWord_computes (u := u) (n := .subsImmediate) (by rfl)
    (by decide) hxd hf (by rw [result, rn_immediateWord, imm12_immediateWord])
  rw [yields_iff hc, (hsets rfl).iff, sub_right_inj, scaled_iff hsh]

end Scaled

theorem movz_yields_iff {hw : BitVec 2} {imm : BitVec 16} {xd : BitVec 5}
    (hf : fetch m = movzWord hw imm xd) :
    Yields (cycle u m) (fun m' =>
      m'.currentState.reg xd = imm.setWidth 64 <<< (16 * hw.toNat)) ↔ hw = 0 ∨ imm = 0 := by
  have h : DecodesTo (fetch m) .movz := hf ▸ decodesTo_of_topBits8 (topBits_movzWord hw imm xd)
  have hlt := hw.isLt
  obtain ⟨m', hc, hreg, -⟩ := h.cycle_computes (u := u) nofun rfl
    (hf ▸ rd_movzWord hw imm xd) nofun
  rw [yields_iff hc, hreg, hf, imm16_movzWord, setWidth_eq_shift_iff (by omega),
    mul_toNat_eq_zero_iff (by decide)]

/-- The operations with an immediate are right exactly when it is not shifted or 0. -/
theorem immediate_iff (u : Indeterminate) (m : Machine) (sh : BitVec 2) (imm : BitVec 12)
    (xn xd : BitVec 5) (hsh : sh.toNat < 2) (hxd : xd ≠ 31) :
    (fetch m = immediateWord 0b10010001 sh imm xn xd →
      (Yields (cycle u m) (fun m' =>
        m'.currentState.reg xd = m.currentState.reg xn + scaled sh imm) ↔ sh = 0 ∨ imm = 0)) ∧
    (fetch m = immediateWord 0b10110001 sh imm xn xd →
      (Yields (cycle u m) (Sets xd (m.currentState.reg xn + scaled sh imm)) ↔
        sh = 0 ∨ imm = 0)) ∧
    (fetch m = immediateWord 0b11110001 sh imm xn xd →
      (Yields (cycle u m) (Sets xd (m.currentState.reg xn - scaled sh imm)) ↔
        sh = 0 ∨ imm = 0)) ∧
    ∀ (hw : BitVec 2) (imm₁ : BitVec 16), fetch m = movzWord hw imm₁ xd →
      (Yields (cycle u m) (fun m' =>
        m'.currentState.reg xd = imm₁.setWidth 64 <<< (16 * hw.toNat)) ↔ hw = 0 ∨ imm₁ = 0) :=
  ⟨add_yields_iff hsh hxd, adds_yields_iff hsh hxd, subs_yields_iff hsh hxd,
    fun _ _ => movz_yields_iff⟩

/-- ADD X1, X0, #5. -/
theorem immediate_iff_add :
    Yields (cycle .zeroed (oneWord (immediateWord 0b10010001 0 5 0 1))) fun m' =>
      m'.currentState.reg 1 =
        (oneWord (immediateWord 0b10010001 0 5 0 1)).currentState.reg 0 + scaled 0 5 :=
  ((immediate_iff _ _ 0 5 0 1 (by decide) (by decide)).1 (fetch_oneWord _)).mpr (.inl rfl)

/-- ADDS X1, X0, #1, LSL #12. -/
theorem not_immediate : ¬ ∀ (u : Indeterminate) (m : Machine) (sh : BitVec 2) (imm : BitVec 12)
    (xn xd : BitVec 5), sh.toNat < 2 → xd ≠ 31 →
    (fetch m = immediateWord 0b10010001 sh imm xn xd → Yields (cycle u m) fun m' =>
      m'.currentState.reg xd = m.currentState.reg xn + scaled sh imm) ∧
    (fetch m = immediateWord 0b10110001 sh imm xn xd →
      Yields (cycle u m) (Sets xd (m.currentState.reg xn + scaled sh imm))) ∧
    (fetch m = immediateWord 0b11110001 sh imm xn xd →
      Yields (cycle u m) (Sets xd (m.currentState.reg xn - scaled sh imm))) ∧
    ∀ (hw : BitVec 2) (imm₁ : BitVec 16), fetch m = movzWord hw imm₁ xd →
      Yields (cycle u m) fun m' =>
        m'.currentState.reg xd = imm₁.setWidth 64 <<< (16 * hw.toNat) := by
  intro hall
  have hf := fetch_oneWord (immediateWord 0b10110001 1 1 0 1)
  have hy := (hall .zeroed _ 1 1 0 1 (by decide) (by decide)).2.1 hf
  exact absurd ((adds_yields_iff (by decide) (by decide) hf).mp hy) (by decide)

end Immediate

end ArmSim.Verify
