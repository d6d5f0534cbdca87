import ArmSim.Verify.DataProcessing
import Mathlib.Data.Int.ModEq

/-! ADD, ADDS, SUBS and MUL on two registers: the whole machine after a cycle. -/
namespace ArmSim.Verify
open Shell Sim Spec Loop

section Wraps

/-- `r` is `f` of the operands modulo `2 ^ 64`, both for the signed and for the unsigned reading
of the registers. -/
structure Wraps (f : ℤ → ℤ → ℤ) (a b r : BitVec 64) : Prop where
  signed : r.toInt ≡ f a.toInt b.toInt [ZMOD 2 ^ 64]
  unsigned : (r.toNat : ℤ) ≡ f a.toNat b.toNat [ZMOD 2 ^ 64]

theorem toInt_modEq_toNat (x : BitVec 64) : x.toInt ≡ x.toNat [ZMOD 2 ^ 64] := by
  rw [BitVec.toInt_eq_toNat_bmod]
  exact Int.bmod_emod

/-- The two readings agree for every operation that keeps congruences. -/
theorem Wraps.of_bmod {f : ℤ → ℤ → ℤ} {a b r : BitVec 64}
    (hf : ∀ {x x' y y' : ℤ}, x ≡ x' [ZMOD 2 ^ 64] → y ≡ y' [ZMOD 2 ^ 64] →
      f x y ≡ f x' y' [ZMOD 2 ^ 64])
    (h : r.toInt = (f a.toInt b.toInt).bmod (2 ^ 64)) : Wraps f a b r := by
  have hsigned : r.toInt ≡ f a.toInt b.toInt [ZMOD 2 ^ 64] := by
    rw [h]
    exact Int.bmod_emod
  refine ⟨hsigned, ?_⟩
  calc (r.toNat : ℤ) ≡ r.toInt [ZMOD 2 ^ 64] := (toInt_modEq_toNat r).symm
    _ ≡ f a.toInt b.toInt [ZMOD 2 ^ 64] := hsigned
    _ ≡ f a.toNat b.toNat [ZMOD 2 ^ 64] := hf (toInt_modEq_toNat a) (toInt_modEq_toNat b)

variable (a b : BitVec 64)

theorem wraps_add : Wraps (· + ·) a b (a + b) := .of_bmod Int.ModEq.add (BitVec.toInt_add a b)

theorem wraps_sub : Wraps (· - ·) a b (a - b) := .of_bmod Int.ModEq.sub BitVec.toInt_sub

theorem wraps_mul : Wraps (· * ·) a b (a * b) := .of_bmod Int.ModEq.mul (BitVec.toInt_mul a b)

end Wraps

/-- The machine `m'` differs from `m` in the destination, if there is one, which holds `r`, in
the flags of `r`, if they are set, and in the counters. -/
structure Retires (dest : Option (BitVec 5)) (flags : Bool) (r : BitVec 64) (m m' : Machine) :
    Prop where
  reg : ∀ k, m'.currentState.reg k = if dest = some k then r else m.currentState.reg k
  flagN : m'.currentState.flagN =
    if flags then (if r.msb then 1 else 0) else m.currentState.flagN
  flagZ : m'.currentState.flagZ = if flags then (if r = 0 then 1 else 0) else m.currentState.flagZ
  pc : m'.currentState.pc = m.currentState.pc + 4
  nextState : m'.nextState = m'.currentState
  memory : m'.memory = m.memory
  runBit : m'.runBit = m.runBit
  instructionCount : m'.instructionCount = m.instructionCount + 1

theorem retires_writeback (n : Name) (w : BitVec 32) (r : BitVec 64) {m : Machine}
    (hm : m.currentState = m.nextState) :
    Retires (if n.guardsZero = true ∧ rd w = 31 then none else some (rd w)) n.setsFlags r m
      (finish (writeback n w r) m) := by
  obtain ⟨hN, hZ⟩ := flags_writeback n w r m
  refine ⟨fun k => ?_, ?_, ?_, pc_writeback n w r m, rfl, rfl, rfl, rfl⟩
  · rw [reg_writeback, hm]
    refine if_congr ?_ rfl rfl
    by_cases hg : n.guardsZero = true ∧ rd w = 31
    · rw [if_pos hg]
      exact iff_of_false (fun h => h.2 hg) (Option.some_ne_none k).symm
    · rw [if_neg hg, and_iff_left hg, Option.some_inj]
      exact eq_comm
  · rw [hN, flagNOf_eq, hm]
  · rw [hZ, flagZOf, hm]

/-- A cycle of an instruction that computes `f` of the registers `xn` and `xm`. -/
def Calculates (f : ℤ → ℤ → ℤ) (xn xm : BitVec 5) (dest : Option (BitVec 5)) (flags : Bool)
    (u : Indeterminate) (m : Machine) : Prop :=
  ∃ r, Wraps f (m.currentState.reg xn) (m.currentState.reg xm) r ∧
    Yields (cycle u m) (Retires dest flags r m)

section Words
variable {u : Indeterminate} {m : Machine} {xm xn xd : BitVec 5}

theorem registerWord_retires (hm : m.currentState = m.nextState) {op : BitVec 11} {n : Name}
    {imm6 : BitVec 6} (hd : DecodesTo (registerWord op 0 0 0 0) n) (hop : op ≠ 0b10001011001)
    (hf : fetch m = registerWord op xm imm6 xn xd) {r : BitVec 64}
    (hr : result m.currentState m.memory (registerWord op xm imm6 xn xd) n = some r) :
    Yields (cycle u m) (Retires (if n.guardsZero = true ∧ xd = 31 then none else some xd)
      n.setsFlags r m) := by
  have hret := retires_writeback n (registerWord op xm imm6 xn xd) r hm
  rw [rd_registerWord] at hret
  exact ⟨_, registerWord_cycle hd (fun _ => hop) hf hr, hret⟩

theorem add_calculates (hm : m.currentState = m.nextState)
    (hf : fetch m = registerWord 0b10001011000 xm 0 xn xd) (hxd : xd ≠ 31) :
    Calculates (· + ·) xn xm (some xd) false u m := by
  have hr := registerWord_retires (u := u) (n := .addExtendedRegister) hm (by decide) (by decide)
    hf (by rw [result, rn_registerWord, rm_registerWord])
  rw [if_neg fun h => hxd h.2] at hr
  exact ⟨_, wraps_add _ _, hr⟩

theorem adds_calculates (hm : m.currentState = m.nextState)
    (hf : fetch m = registerWord 0b10101011000 xm 0 xn xd) :
    Calculates (· + ·) xn xm (some xd) true u m :=
  ⟨_, wraps_add _ _, registerWord_retires (n := .addsExtendedRegister) hm (by decide) (by decide)
    hf (by rw [result, rn_registerWord, rm_registerWord])⟩

theorem subs_calculates (hm : m.currentState = m.nextState)
    (hf : fetch m = registerWord 0b11101011000 xm 0 xn xd) :
    Calculates (· - ·) xn xm (if xd = 31 then none else some xd) true u m := by
  have hr := registerWord_retires (u := u) (n := .subsExtendedRegister) hm (by decide) (by decide)
    hf (by rw [result, rn_registerWord, rm_registerWord])
  refine ⟨_, wraps_sub _ _, ?_⟩
  simpa only [Name.guardsZero, Name.setsFlags, true_and] using hr

theorem mul_calculates (hm : m.currentState = m.nextState)
    (hf : fetch m = registerWord 0b10011011000 xm 0b011111 xn xd) :
    Calculates (· * ·) xn xm (some xd) false u m :=
  ⟨_, wraps_mul _ _, registerWord_retires (n := .mul) hm (by decide) (by decide)
    hf (by rw [result, rn_registerWord, rm_registerWord])⟩

end Words

/-- ADD, ADDS, SUBS and MUL compute modulo `2 ^ 64`, and SUBS to register 31 only compares. -/
theorem register_arithmetic (u : Indeterminate) (m : Machine)
    (hm : m.currentState = m.nextState) (xm xn xd : BitVec 5) (hxd : xd ≠ 31) :
    (fetch m = registerWord 0b10001011000 xm 0 xn xd →
      Calculates (· + ·) xn xm (some xd) false u m) ∧
    (fetch m = registerWord 0b10101011000 xm 0 xn xd →
      Calculates (· + ·) xn xm (some xd) true u m) ∧
    (fetch m = registerWord 0b11101011000 xm 0 xn xd →
      Calculates (· - ·) xn xm (some xd) true u m) ∧
    (fetch m = registerWord 0b10011011000 xm 0b011111 xn xd →
      Calculates (· * ·) xn xm (some xd) false u m) ∧
    (fetch m = registerWord 0b11101011000 xm 0 xn 31 →
      Calculates (· - ·) xn xm none true u m) := by
  refine ⟨fun hf => add_calculates hm hf hxd, adds_calculates hm, fun hf => ?_,
    mul_calculates hm, subs_calculates hm⟩
  have hs := subs_calculates (u := u) hm hf
  rwa [if_neg hxd] at hs

/-- MUL X3, X1, X2 with X1 = 3 and X2 = 5. -/
theorem register_arithmetic_mul : Calculates (· * ·) 1 2 (some 3) false .zeroed
    (withReg 2 5 (withReg 1 3 (oneWord (registerWord 0b10011011000 2 0b011111 1 3)))) := by
  have hf : fetch (withReg 2 5 (withReg 1 3 (oneWord (registerWord 0b10011011000 2 0b011111 1 3))))
      = registerWord 0b10011011000 2 0b011111 1 3 :=
    (fetch_withReg 2 5 _).trans ((fetch_withReg 1 3 _).trans (fetch_oneWord _))
  exact (register_arithmetic .zeroed _ rfl 2 1 3 (by decide)).2.2.2.1 hf

end ArmSim.Verify
