import ArmSim.Verify.Step

/-! A comparison followed by a conditional branch. Without an overflow flag the branch compares
the wrapped difference with 0, which is the comparison of the operands as long as their
difference fits, and for the orderings exactly the opposite when it does not. -/
namespace ArmSim.Verify
open Shell Sim Spec Loop

/-- The conditions that B.cond implements. -/
inductive Cond
  | eq | ne | ge | lt | gt | le
deriving DecidableEq, Repr

namespace Cond

/-- The low five bits of the B.cond word. -/
def code : Cond → BitVec 5
  | eq => 0b00000
  | ne => 0b00001
  | ge => 0b01010
  | lt => 0b01011
  | gt => 0b01100
  | le => 0b01101

/-- The relation between signed integers that a condition stands for. -/
def Holds : Cond → ℤ → ℤ → Prop
  | eq, a, b => a = b
  | ne, a, b => a ≠ b
  | ge, a, b => b ≤ a
  | lt, a, b => a < b
  | gt, a, b => b < a
  | le, a, b => a ≤ b

instance : (c : Cond) → (a b : ℤ) → Decidable (c.Holds a b)
  | eq, a, b => inferInstanceAs (Decidable (a = b))
  | ne, a, b => inferInstanceAs (Decidable (a ≠ b))
  | ge, a, b => inferInstanceAs (Decidable (b ≤ a))
  | lt, a, b => inferInstanceAs (Decidable (a < b))
  | gt, a, b => inferInstanceAs (Decidable (b < a))
  | le, a, b => inferInstanceAs (Decidable (a ≤ b))

end Cond

/-- The signed difference is one of 64 bits. -/
def Fits (a b : BitVec 64) : Prop :=
  -2 ^ 63 ≤ a.toInt - b.toInt ∧ a.toInt - b.toInt < 2 ^ 63

instance (a b : BitVec 64) : Decidable (Fits a b) := inferInstanceAs (Decidable (_ ∧ _))

/-- When a branch behind the comparison of `a` with `b` is taken. -/
def Cond.Taken (c : Cond) (a b : BitVec 64) : Prop :=
  if c = eq ∨ c = ne ∨ Fits a b then c.Holds a.toInt b.toInt else ¬ c.Holds a.toInt b.toInt

instance (c : Cond) (a b : BitVec 64) : Decidable (c.Taken a b) :=
  inferInstanceAs (Decidable (ite _ _ _))

theorem flags_toInt (r : BitVec 64) :
    flagNOf r = (if r.toInt < 0 then 1 else 0) ∧ flagZOf r = if r.toInt = 0 then 1 else 0 := by
  have hn : r.msb = true ↔ r.toInt < 0 := by rw [BitVec.msb_eq_toInt, decide_eq_true_eq]
  have hz : r = 0 ↔ r.toInt = 0 := BitVec.toInt_inj.symm
  constructor
  · rw [flagNOf_eq]
    exact if_congr hn rfl rfl
  · exact if_congr hz rfl rfl

/-- B.cond compares the result that has set the flags with 0. -/
theorem branchTaken_iff (c : Cond) (r : BitVec 64) :
    branchTaken (c.code.setWidth 32) (flagNOf r) (flagZOf r) = true ↔ c.Holds r.toInt 0 := by
  obtain ⟨hN, hZ⟩ := flags_toInt r
  rcases lt_trichotomy r.toInt 0 with h | h | h
  · rw [hN, hZ, if_pos h, if_neg (by omega)]
    cases c <;> simp [branchTaken, Cond.code, Cond.Holds] <;> omega
  · rw [hN, hZ, if_neg (by omega), if_pos h]
    cases c <;> simp [branchTaken, Cond.code, Cond.Holds] <;> omega
  · rw [hN, hZ, if_neg (by omega), if_neg (by omega)]
    cases c <;> simp [branchTaken, Cond.code, Cond.Holds] <;> omega

/-- The wrapped difference of two signed words. -/
theorem toInt_sub_cases (a b : BitVec 64) :
    (Fits a b → (a - b).toInt = a.toInt - b.toInt) ∧
    (¬ Fits a b → a.toInt < b.toInt ∧ 0 < (a - b).toInt ∨
      b.toInt < a.toInt ∧ (a - b).toInt < 0) := by
  have ha := BitVec.two_mul_toInt_lt (x := a)
  have hb := BitVec.two_mul_toInt_lt (x := b)
  have ha' := BitVec.le_two_mul_toInt (x := a)
  have hb' := BitVec.le_two_mul_toInt (x := b)
  rw [BitVec.toInt_sub, Int.bmod_def, Fits]
  constructor
  · rintro ⟨hlo, hhi⟩
    split <;> omega
  · -- past the range the difference is off by 2 ^ 64, which turns its sign
    intro hwraps
    split <;> omega

/-- Comparing the wrapped difference with 0. -/
theorem holds_sub_iff (c : Cond) (a b : BitVec 64) : c.Holds (a - b).toInt 0 ↔ c.Taken a b := by
  obtain ⟨hfits, hwraps⟩ := toInt_sub_cases a b
  rw [Cond.Taken]
  generalize (a - b).toInt = d at hfits hwraps
  by_cases h : Fits a b
  · obtain rfl := hfits h
    rw [if_pos (.inr (.inr h))]
    cases c <;> simp only [Cond.Holds] <;> omega
  · have hd := hwraps h
    cases c <;> simp only [Cond.Holds, h, reduceCtorEq, or_false, or_true, if_true,
      if_false] <;> omega

/-- The words of SUBS, by their two operands. -/
inductive Compares (s : CpuState) : BitVec 32 → BitVec 64 → BitVec 64 → Prop
  | register (xm xn xd : BitVec 5) :
      Compares s (registerWord 0b11101011000 xm 0 xn xd) (s.reg xn) (s.reg xm)
  | immediate (imm : BitVec 12) (xn xd : BitVec 5) :
      Compares s (immediateWord 0b11110001 0 imm xn xd) (s.reg xn) (imm.setWidth 64)

theorem Compares.decodes {s : CpuState} {w : BitVec 32} {a b : BitVec 64}
    (h : Compares s w a b) : ∃ n, DecodesTo w n ∧ n.setsFlags = true ∧
      n ≠ .addExtendedRegister ∧ ∀ mem, result s mem w n = some (a - b) := by
  cases h with
  | register xm xn xd =>
    refine ⟨.subsExtendedRegister, registerWord_decodes (by decide) _ _ _ _, rfl, by decide,
      fun mem => ?_⟩
    rw [result, rn_registerWord, rm_registerWord]
  | immediate imm xn xd =>
    refine ⟨.subsImmediate, decodesTo_of_topBits8 (topBits_immediateWord _ _ _ _ _), rfl,
      by decide, fun mem => ?_⟩
    rw [result, rn_immediateWord, imm12_immediateWord]

section Cycle
variable {u : Indeterminate} {m : Machine} {a b : BitVec 64}

/-- What SUBS leaves for the branch. -/
theorem Compares.cycle (h : Compares m.currentState (fetch m) a b) :
    Yields (Shell.cycle u m) fun m' => m'.currentState.pc = m.currentState.pc + 4 ∧
      m'.memory = m.memory ∧ m'.currentState.flagN = flagNOf (a - b) ∧
      m'.currentState.flagZ = flagZOf (a - b) := by
  obtain ⟨n, hd, hset, hadd, hr⟩ := h.decodes
  obtain ⟨hN, hZ⟩ := flags_writeback n (fetch m) (a - b) m
  rw [hset, if_pos rfl] at hN hZ
  exact (yields_iff (hd.cycle_result (absurd · hadd) (hr m.memory))).mpr
    ⟨pc_writeback _ _ _ _, rfl, hN, hZ⟩

theorem Cond.cycle {c : Cond} {imm : BitVec 19}
    (hf : fetch m = branchWord 0b01010100 imm c.code)
    (hN : m.currentState.flagN = flagNOf (a - b)) (hZ : m.currentState.flagZ = flagZOf (a - b)) :
    Yields (Shell.cycle u m) fun m' => m'.currentState.pc =
      if c.Taken a b then m.currentState.pc + 4 * imm.signExtend 64
      else m.currentState.pc + 4 := by
  have hd : DecodesTo (fetch m) .bcond :=
    hf ▸ decodesTo_of_topBits8 (topBits_branchWord _ _ _)
  have hcode : branchWord 0b01010100 imm c.code &&& mask5bits = c.code.setWidth 32 := by
    apply BitVec.eq_of_toNat_eq
    rw [field_rd, rd_branchWord, BitVec.toNat_setWidth]
    omega
  rw [yields_iff hd.cycle_bcond, hf, hcode, imm19_branchWord, signedOffset19_eq, hN, hZ]
  by_cases ht : c.Taken a b
  · rw [if_pos ht, if_pos ((branchTaken_iff c _).mpr ((holds_sub_iff c a b).mpr ht)), four_mul]
    rfl
  · rw [if_neg ht, if_neg (mt (branchTaken_iff c _).mp (mt (holds_sub_iff c a b).mp ht))]
    rfl

/-- SUBS and B.cond behind it branch on the signed relation of the operands if their difference
fits or the condition is an equality, and otherwise on the opposite. -/
theorem compare_and_branch (u₁ u₂ : Indeterminate) (m : Machine) (c : Cond) (imm : BitVec 19)
    (a b : BitVec 64) (hs : Compares m.currentState (fetch m) a b)
    (hb : memRead32 m.memory (m.currentState.pc + 4) = branchWord 0b01010100 imm c.code) :
    Yields (Shell.cycle u₁ m >>= Shell.cycle u₂) fun m' => m'.currentState.pc =
      if c.Taken a b then m.currentState.pc + 4 + 4 * imm.signExtend 64
      else m.currentState.pc + 8 := by
  rw [yields_bind]
  obtain ⟨m₁, hc₁, hpc, hmem, hN, hZ⟩ := hs.cycle (u := u₁)
  have hf : fetch m₁ = branchWord 0b01010100 imm c.code := by rw [fetch, hmem, hpc, hb]
  have h8 : m.currentState.pc + 4 + 4 = m.currentState.pc + 8 := by rw [add_assoc]; rfl
  refine (yields_iff hc₁).mpr ?_
  have hy := Cond.cycle (u := u₂) hf hN hZ
  rwa [hpc, h8] at hy

/-- SUBS XZR, X0, #0 and B.GT with X0 = 1. -/
def compareWithZero : Machine := withReg 0 1
  (twoWords (immediateWord 0b11110001 0 0 0 31) (branchWord 0b01010100 2 Cond.gt.code))

theorem compare_and_branch_gt :
    Yields (Shell.cycle .zeroed compareWithZero >>= Shell.cycle .zeroed) fun m' =>
      m'.currentState.pc = memTextStart + 4 + 4 * (2 : BitVec 19).signExtend 64 := by
  obtain ⟨hf, hb⟩ := fetch_twoWords (immediateWord 0b11110001 0 0 0 31)
    (branchWord 0b01010100 2 Cond.gt.code)
  have hs : Compares compareWithZero.currentState (fetch compareWithZero) 1 0 := by
    unfold compareWithZero
    rw [fetch_withReg, hf]
    exact .immediate 0 0 31
  have htaken : Cond.gt.Taken 1 0 := by decide
  have hy := compare_and_branch .zeroed .zeroed compareWithZero .gt 2 1 0 hs hb
  rwa [if_pos htaken] at hy

end Cycle

end ArmSim.Verify
