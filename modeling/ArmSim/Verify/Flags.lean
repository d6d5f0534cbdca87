import ArmSim.Verify.Step
import Mathlib.Data.Nat.ModEq

/-! Which cycles keep FLAG_N and FLAG_Z. Besides the five flag setters, MOVZ and LSL assign the
flags too, so a run keeps them only as far as these two find the flags they would set. -/
namespace ArmSim.Verify
open Shell Sim Spec Loop Relation

/-- The mnemonics that set the flags by design. -/
def flagSetters : List Name :=
  [.addsImmediate, .addsExtendedRegister, .subsImmediate, .subsExtendedRegister,
    .andsShiftedRegister]

/-- The flags are already those of the constant that MOVZ loads, or of the value that LSL
leaves: its sign is bit `immr - 1` of the operand, and it is zero if the bits below `immr` are. -/
def FlagsKept (n : Name) (w : BitVec 32) (s : CpuState) : Prop :=
  match n with
  | .movz => s.flagN = 0 ∧ s.flagZ = if imm16 w = 0 then 1 else 0
  | .lslImmediate => s.flagN = (if (s.reg (rn w)).getLsbD (immr w - 1) then 1 else 0) ∧
      s.flagZ = if (s.reg (rn w)).toNat % 2 ^ immr w = 0 then 1 else 0
  | _ => True

theorem msb_imm16 (w : BitVec 32) : (imm16 w).msb = false := by
  have hw : (imm16 w).toNat < 2 ^ 32 := by
    rw [imm16, BitVec.toNat_setWidth]
    have := ((w >>> 5) &&& mask16bits).isLt
    omega
  rw [BitVec.msb_eq_decide, decide_eq_false]
  omega

/-- Shifting left by `64 - i` keeps the low `i` bits and drops the rest. -/
theorem shiftLeft_eq_zero_iff {i : ℕ} (hi : i ≤ 64) (x : BitVec 64) :
    x <<< (64 - i) = 0 ↔ x.toNat % 2 ^ i = 0 := by
  have hpow : 2 ^ 64 = 2 ^ (64 - i) * 2 ^ i := by
    rw [← pow_add, Nat.sub_add_cancel hi]
  rw [← BitVec.toNat_inj, BitVec.toNat_shiftLeft, Nat.shiftLeft_eq, hpow, Nat.mul_comm x.toNat,
    Nat.mul_mod_mul_left]
  change 2 ^ (64 - i) * (x.toNat % 2 ^ i) = 0 ↔ _
  rw [Nat.mul_eq_zero, or_iff_right (by positivity)]

theorem msb_shiftLeft {i : ℕ} (hpos : 0 < i) (hi : i ≤ 64) (x : BitVec 64) :
    (x <<< (64 - i)).msb = x.getLsbD (i - 1) := by
  rw [BitVec.msb_shiftLeft, BitVec.getMsbD_eq_getLsbD, decide_eq_true (by omega),
    Bool.true_and]
  congr 1
  omega

/-- The flags after a cycle of a named word. -/
theorem DecodesTo.flags {u : Indeterminate} {m m' : Machine} {n : Name}
    (h : DecodesTo (fetch m) n) (hm : m.currentState = m.nextState) (hc : cycle u m = .ok m') :
    if n.setsFlags then ∃ r, result m.currentState m.memory (fetch m) n = some r ∧
      m'.currentState.flagN = flagNOf r ∧ m'.currentState.flagZ = flagZOf r
    else m'.currentState.flagN = m.currentState.flagN ∧
      m'.currentState.flagZ = m.currentState.flagZ := by
  split
  · rename_i hset
    have hr : ∃ r, result m.currentState m.memory (fetch m) n = some r := by
      cases n <;> first | (exact absurd hset (by decide)) | exact ⟨_, rfl⟩
    obtain ⟨r, hr⟩ := hr
    have hadd : n ≠ .addExtendedRegister := by
      rintro rfl
      exact absurd hset (by decide)
    obtain rfl := Except.ok.inj (hc.symm.trans (h.cycle_result (absurd · hadd) hr))
    obtain ⟨hN, hZ⟩ := flags_writeback n (fetch m) r m
    rw [if_pos hset] at hN hZ
    exact ⟨r, hr, hN, hZ⟩
  · rename_i hset
    rw [hm]
    exact h.flags_kept (by simpa using hset) hc

/-- MOVZ and LSL keep the flags exactly when they find them as they would set them; the other
mnemonics that are no flag setters always keep them. -/
theorem DecodesTo.flags_eq_iff {u : Indeterminate} {m m' : Machine} {n : Name}
    (h : DecodesTo (fetch m) n) (hn : n ∉ flagSetters) (hm : m.currentState = m.nextState)
    (hc : cycle u m = .ok m') :
    (m'.currentState.flagN = m.currentState.flagN ∧
      m'.currentState.flagZ = m.currentState.flagZ) ↔ FlagsKept n (fetch m) m.currentState := by
  have hf := h.flags hm hc
  by_cases hset : n.setsFlags = true
  · rw [if_pos hset] at hf
    obtain ⟨r, hr, hN, hZ⟩ := hf
    rw [hN, hZ, flagNOf_eq, flagZOf, eq_comm, @eq_comm _ (if r = 0 then _ else _)]
    have hcases : n = .movz ∨ n = .lslImmediate := by
      cases n <;> first | (exact absurd hset (by decide)) | (exact absurd (by decide) hn) | simp
    rcases hcases with rfl | rfl
    · obtain rfl := Option.some.inj hr
      simp only [msb_imm16, Bool.false_eq_true, if_false]
      rfl
    · obtain rfl := Option.some.inj hr
      have hi := h.lsl_immr
      simp only [msb_shiftLeft (by omega : 0 < immr (fetch m)) (by omega),
        shiftLeft_eq_zero_iff (by omega : immr (fetch m) ≤ 64)]
      rfl
  · rw [if_neg hset] at hf
    have htrue : FlagsKept n (fetch m) m.currentState ↔ True := by
      cases n <;> first | (exact absurd rfl hset) | exact Iff.rfl
    rw [htrue, iff_true]
    exact hf

/-- One completed cycle of a named word that is no flag setter and finds the flags it would
set. -/
def FlagStep (m m' : Machine) : Prop :=
  ∃ u n, DecodesTo (fetch m) n ∧ n ∉ flagSetters ∧ FlagsKept n (fetch m) m.currentState ∧
    cycle u m = .ok m'

theorem flags_of_run {m m' : Machine} (hm : m.currentState = m.nextState)
    (hrun : ReflTransGen FlagStep m m') :
    m'.currentState = m'.nextState ∧ m'.currentState.flagN = m.currentState.flagN ∧
      m'.currentState.flagZ = m.currentState.flagZ := by
  induction hrun with
  | refl => exact ⟨hm, rfl, rfl⟩
  | tail _ hstep ih =>
    obtain ⟨u, n, h, hn, hkept, hc⟩ := hstep
    obtain ⟨hN, hZ⟩ := (h.flags_eq_iff hn ih.1 hc).mpr hkept
    exact ⟨latched_of_cycle hc, hN.trans ih.2.1, hZ.trans ih.2.2⟩

/-- Where a conditional branch goes, by the flags that it finds. -/
theorem DecodesTo.bcond_pc {u : Indeterminate} {m m' : Machine}
    (h : DecodesTo (fetch m) .bcond) (hc : cycle u m = .ok m') :
    m'.currentState.pc = if branchTaken (fetch m &&& mask5bits) m.currentState.flagN
        m.currentState.flagZ then
      m.currentState.pc + (signedOffset19 ((fetch m >>> 5) &&& mask19bits)
        ((fetch m >>> 5) &&& mask19bits) <<< 2)
    else m.currentState.pc + 4 := by
  obtain rfl := Except.ok.inj (hc.symm.trans h.cycle_bcond)
  rw [finish_currentState, finish_pc]
  split <;> rfl

/-- A cycle of a mnemonic that is no flag setter keeps the flags exactly under `FlagsKept`.
After a flag setter, when every cycle up to a conditional branch meets that, the branch decides
by the flags of the setter's result. -/
theorem flag_frame {u : Indeterminate} {m m' : Machine} {n : Name}
    (hm : m.currentState = m.nextState) (h : DecodesTo (fetch m) n) (hc : cycle u m = .ok m') :
    (n ∉ flagSetters →
      ((m'.currentState.flagN = m.currentState.flagN ∧
        m'.currentState.flagZ = m.currentState.flagZ) ↔
          FlagsKept n (fetch m) m.currentState)) ∧
    (n ∈ flagSetters → ∃ r, result m.currentState m.memory (fetch m) n = some r ∧
      ∀ m₁, ReflTransGen FlagStep m' m₁ →
        m₁.currentState.flagN = flagNOf r ∧ m₁.currentState.flagZ = flagZOf r ∧
          ∀ u₁ m₂, DecodesTo (fetch m₁) .bcond → cycle u₁ m₁ = .ok m₂ →
            m₂.currentState.pc =
              if branchTaken (fetch m₁ &&& mask5bits) (flagNOf r) (flagZOf r) then
                m₁.currentState.pc + (signedOffset19 ((fetch m₁ >>> 5) &&& mask19bits)
                  ((fetch m₁ >>> 5) &&& mask19bits) <<< 2)
              else m₁.currentState.pc + 4) := by
  refine ⟨fun hn => h.flags_eq_iff hn hm hc, fun hn => ?_⟩
  have hall : ∀ n ∈ flagSetters, n.setsFlags = true := by decide
  have hset := hall n hn
  have hf := h.flags hm hc
  rw [if_pos hset] at hf
  obtain ⟨r, hr, hN, hZ⟩ := hf
  refine ⟨r, hr, fun m₁ hrun => ?_⟩
  obtain ⟨-, hN₁, hZ₁⟩ := flags_of_run (latched_of_cycle hc) hrun
  refine ⟨hN₁.trans hN, hZ₁.trans hZ, fun u₁ m₂ hb hc₂ => ?_⟩
  rw [← hN, ← hZ, ← hN₁, ← hZ₁]
  exact hb.bcond_pc hc₂

/-- SUBS XZR, X0, #0 followed by B.EQ, two instructions on. -/
def compareAndBranch : Machine := initializeMachine (fun _ _ => 0) [[0xF100001F, 0x54000040]]

/-- MOVZ X0, #1 finds the flags of a nonzero constant; B.EQ behind a comparison of equal
operands is taken. -/
theorem flag_frame_compare :
    (∃ m', cycle .zeroed (oneWord 0xD2800020) = .ok m' ∧
      m'.currentState.flagN = (oneWord 0xD2800020).currentState.flagN ∧
      m'.currentState.flagZ = (oneWord 0xD2800020).currentState.flagZ) ∧
    ∃ m₁ m₃, cycle .zeroed compareAndBranch = .ok m₁ ∧ cycle .zeroed m₁ = .ok m₃ ∧
      m₃.currentState.pc = m₁.currentState.pc + 8 := by
  constructor
  · have hd : DecodesTo 0xD2800020 .movz := by decide +kernel
    obtain ⟨m', hc⟩ := hd.cycle_oneWord .zeroed (by decide)
    have hkept : FlagsKept .movz (fetch (oneWord 0xD2800020))
        (oneWord 0xD2800020).currentState := by
      rw [fetch_oneWord]
      exact ⟨by decide +kernel, by decide +kernel⟩
    exact ⟨m', hc, ((flag_frame rfl hd.oneWord hc).1 (by decide)).mpr hkept⟩
  · have hw : fetch compareAndBranch = 0xF100001F := by decide +kernel
    have hd : DecodesTo (fetch compareAndBranch) .subsImmediate := by
      rw [hw]
      decide +kernel
    let m₁ := finish (writeback .subsImmediate 0xF100001F 0) compareAndBranch
    have hc₁ : cycle .zeroed compareAndBranch = .ok m₁ := by rfl
    have hb : DecodesTo (fetch m₁) .bcond := by
      rw [show fetch m₁ = 0x54000040 by decide +kernel]
      decide +kernel
    obtain ⟨m₃, hc₃⟩ := hb.cycle_defined (u := .zeroed) fun h21 =>
      absurd h21 (by decide +kernel)
    obtain ⟨r, hr, hrun⟩ := (flag_frame rfl hd hc₁).2 (by decide)
    obtain ⟨-, -, hpc⟩ := hrun m₁ .refl
    have hr0 : r = 0 := by
      rw [hw] at hr
      exact Option.some.inj (hr.symm.trans (by decide +kernel))
    refine ⟨m₁, m₃, hc₁, hc₃, (hpc .zeroed m₃ hb hc₃).trans ?_⟩
    rw [hr0]
    decide +kernel

/-- MOVZ X0, #0 sets FLAG_Z. -/
theorem flags_not_kept : ¬ ∀ (u : Indeterminate) (m m' : Machine) (n : Name),
    m.currentState = m.nextState → DecodesTo (fetch m) n → n ∉ flagSetters →
      cycle u m = .ok m' → m'.currentState.flagN = m.currentState.flagN ∧
        m'.currentState.flagZ = m.currentState.flagZ := by
  intro hall
  have hd : DecodesTo 0xD2800000 .movz := by decide +kernel
  obtain ⟨m', hc⟩ := hd.cycle_oneWord .zeroed (by decide)
  have hkept := (hd.oneWord.flags_eq_iff (by decide) rfl hc).mp
    (hall _ _ _ _ rfl hd.oneWord (by decide) hc)
  rw [fetch_oneWord] at hkept
  exact absurd hkept.2 (by decide +kernel)

end ArmSim.Verify
