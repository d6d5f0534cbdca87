import ArmSim.Spec.Encoding
import ArmSim.Verify.Frame
import ArmSim.Verify.Loading

/-! The machine that a completed cycle leaves, for each kind of word. -/
namespace ArmSim.Verify
open Shell Sim Spec Loop

section Writeback
variable (n : Name) (w : BitVec 32) (r : BitVec 64) (m : Machine)

theorem reg_writeback (k : BitVec 5) : (finish (writeback n w r) m).currentState.reg k =
    if k = rd w ∧ ¬ (n.guardsZero = true ∧ rd w = 31) then r else m.nextState.reg k := by
  rw [finish_currentState, reg_finish]
  by_cases hg : n.guardsZero = true ∧ rd w = 31
  · have hreg : (writeback n w r).reg = none := if_pos hg
    rw [hreg, if_neg fun hk => hk.2 hg]
  · have hreg : (writeback n w r).reg = some (regNo (rd w), r) := if_neg hg
    have hk : (regNo (rd w)).val = k.toNat ↔ k = rd w := by
      rw [← BitVec.toNat_inj]
      exact eq_comm
    rw [hreg]
    exact if_congr (by rw [hk, and_iff_left hg]) rfl rfl

theorem flags_writeback : (finish (writeback n w r) m).currentState.flagN =
      (if n.setsFlags then flagNOf r else m.nextState.flagN) ∧
    (finish (writeback n w r) m).currentState.flagZ =
      (if n.setsFlags then flagZOf r else m.nextState.flagZ) := by
  rw [finish_currentState, (finish_flags _ m).1, (finish_flags _ m).2]
  cases hset : n.setsFlags <;> simp [writeback, hset]

theorem pc_writeback :
    (finish (writeback n w r) m).currentState.pc = m.currentState.pc + 4 := by
  rw [finish_currentState, finish_pc]
  rfl

end Writeback

section Cycle
variable {u : Indeterminate} {m : Machine} {n : Name} (h : DecodesTo (fetch m) n)
include h

theorem DecodesTo.cycle_eq {e : Effect} (he : effect u m.currentState m.memory
    (decodeInstruction u.instrDef (fetch m)) n = .ok e) : cycle u m = .ok (finish e m) :=
  h.cycle_ok_iff.mpr ⟨e, he, rfl⟩

theorem DecodesTo.cycle_result (hadd : n = .addExtendedRegister →
    topBits 11 (fetch m) ≠ 0b10001011001) {r : BitVec 64}
    (hr : result m.currentState m.memory (fetch m) n = some r) :
    cycle u m = .ok (finish (writeback n (fetch m) r) m) :=
  h.cycle_eq (h.effect_eq u m.currentState m.memory hadd hr u.instrDef)

/-- The destination and the flags after a cycle that computes `r`. -/
theorem DecodesTo.cycle_computes (hadd : n = .addExtendedRegister →
    topBits 11 (fetch m) ≠ 0b10001011001) {r : BitVec 64} {xd : BitVec 5}
    (hr : result m.currentState m.memory (fetch m) n = some r) (hrd : rd (fetch m) = xd)
    (hxd : n.guardsZero = true → xd ≠ 31) :
    ∃ m', cycle u m = .ok m' ∧ m'.currentState.reg xd = r ∧
      m'.currentState.flagN = (if n.setsFlags then flagNOf r else m.nextState.flagN) ∧
      m'.currentState.flagZ = if n.setsFlags then flagZOf r else m.nextState.flagZ := by
  have hwrites : ¬ (n.guardsZero = true ∧ rd (fetch m) = 31) := by
    rw [hrd]
    exact fun h => hxd h.1 h.2
  refine ⟨_, h.cycle_result hadd hr, ?_, flags_writeback n (fetch m) r m⟩
  rw [reg_writeback, if_pos ⟨hrd.symm, hwrites⟩]

/-- Without a destination in `NEXT_STATE` the registers are those of the latch. -/
theorem DecodesTo.reg_kept (hn : n.writesReg = false) {m' : Machine} (hc : cycle u m = .ok m')
    (k : BitVec 5) : m'.currentState.reg k = m.nextState.reg k := by
  obtain ⟨e, he, rfl⟩ := h.cycle_ok_iff.mp hc
  have hnone : e.reg = none := by
    cases hreg : e.reg with
    | none => rfl
    | some w => exact absurd ((effect_confined he).reg w.1 w.2 hreg).2 (by simp [hn])
  rw [finish_currentState, reg_finish, hnone]

/-- The other mnemonics leave the flags of the latch. -/
theorem DecodesTo.flags_kept (hn : n.setsFlags = false) {m' : Machine}
    (hc : cycle u m = .ok m') : m'.currentState.flagN = m.nextState.flagN ∧
      m'.currentState.flagZ = m.nextState.flagZ := by
  obtain ⟨e, he, rfl⟩ := h.cycle_ok_iff.mp hc
  have hnone : e.flags = none := by
    cases hf : e.flags with
    | none => rfl
    | some r => exact absurd ((effect_confined he).flags r hf) (by simp [hn])
  rw [finish_currentState, (finish_flags e m).1, (finish_flags e m).2, hnone]
  exact ⟨rfl, rfl⟩

end Cycle

section Words
variable {op : BitVec 11} {n : Name}

theorem registerWord_decodes (h : DecodesTo (registerWord op 0 0 0 0) n) (xm : BitVec 5)
    (imm6 : BitVec 6) (xn xd : BitVec 5) : DecodesTo (registerWord op xm imm6 xn xd) n := by
  refine (decodesTo_congr ?_).mp h
  rw [topBits_registerWord, topBits_registerWord]

theorem transferWord_decodes (h : DecodesTo (transferWord op 0 0 0) n) (imm : BitVec 9)
    (xn xt : BitVec 5) : DecodesTo (transferWord op imm xn xt) n := by
  refine (decodesTo_congr ?_).mp h
  rw [topBits_transferWord, topBits_transferWord]

end Words

section Branch
variable {u : Indeterminate} {m : Machine}

theorem DecodesTo.cycle_b (h : DecodesTo (fetch m) .b) : cycle u m = .ok (finish (branchEffect
    m.currentState (signedOffset19 (fetch m &&& mask26) (fetch m &&& mask26))) m) :=
  h.cycle_eq (by rw [h.record_eq]; rfl)

theorem DecodesTo.cycle_bcond (h : DecodesTo (fetch m) .bcond) : cycle u m = .ok (finish
    (if branchTaken (fetch m &&& mask5bits) m.currentState.flagN m.currentState.flagZ then
      branchEffect m.currentState (signedOffset19 ((fetch m >>> 5) &&& mask19bits)
        ((fetch m >>> 5) &&& mask19bits))
    else {}) m) :=
  h.cycle_eq (by rw [h.record_eq]; rfl)

end Branch

/-- Two states with the same registers and flags. -/
structure SameRegisters (s s' : CpuState) : Prop where
  reg : ∀ k, s'.reg k = s.reg k
  flagN : s'.flagN = s.flagN
  flagZ : s'.flagZ = s.flagZ

/-- Registers, flags and memory are as they were. -/
structure Untouched (m m' : Machine) : Prop where
  registers : SameRegisters m.currentState m'.currentState
  memory : m'.memory = m.memory

/-- Nothing but register `k` and the program counter is written. -/
structure OnlyWrites (k : BitVec 5) (m m' : Machine) : Prop where
  reg : ∀ j ≠ k, m'.currentState.reg j = m.currentState.reg j
  flagN : m'.currentState.flagN = m.currentState.flagN
  flagZ : m'.currentState.flagZ = m.currentState.flagZ
  memory : m'.memory = m.memory

theorem OnlyWrites.of_writeback {n : Name} (hn : n.setsFlags = false) {m : Machine}
    (hm : m.currentState = m.nextState) (w : BitVec 32) (r : BitVec 64) :
    OnlyWrites (rd w) m (finish (writeback n w r) m) := by
  obtain ⟨hN, hZ⟩ := flags_writeback n w r m
  rw [hn, ← hm] at hN hZ
  refine ⟨fun j hj => ?_, hN, hZ, rfl⟩
  rw [reg_writeback, if_neg fun h => hj h.1, hm]

theorem SameRegisters.of_finish {m : Machine} (hm : m.currentState = m.nextState)
    (store : Option (BitVec 64 × BitVec 32)) (pc : Option (BitVec 64)) :
    SameRegisters m.currentState (finish { store, pc } m).currentState := by
  rw [hm]
  exact ⟨fun _ => rfl, rfl, rfl⟩

theorem Untouched.of_pc {m : Machine} (hm : m.currentState = m.nextState)
    (pc : Option (BitVec 64)) : Untouched m (finish { pc } m) :=
  ⟨.of_finish hm none pc, rfl⟩

/-- The machine after `input k v`. -/
def withReg (k : BitVec 5) (v : BitVec 64) (m : Machine) : Machine :=
  { m with
    currentState := Effect.setReg m.currentState (some (regNo k, v))
    nextState := Effect.setReg m.nextState (some (regNo k, v)) }

theorem fetch_withReg (k : BitVec 5) (v : BitVec 64) (m : Machine) :
    fetch (withReg k v m) = fetch m := rfl

/-- The word plays no role for the state that a program of one word starts in. -/
theorem oneWord_currentState (w₁ w₂ : BitVec 32) :
    (oneWord w₁).currentState = (oneWord w₂).currentState := rfl

def twoWords (w₁ w₂ : BitVec 32) : Machine := initializeMachine (fun _ _ => 0) [[w₁, w₂]]

theorem fetch_twoWords (w₁ w₂ : BitVec 32) : fetch (twoWords w₁ w₂) = w₁ ∧
    memRead32 (twoWords w₁ w₂).memory ((twoWords w₁ w₂).currentState.pc + 4) = w₂ := by
  have hlen : ∀ words ∈ [[w₁, w₂]], words.length ≤ 0x40000 := by
    intro words hwords
    rw [List.mem_singleton.mp hwords, List.length_cons, List.length_singleton]
    decide
  constructor
  · exact memRead32_textWord (fun _ _ => 0) hlen (i := 0) rfl
  · exact memRead32_textWord (fun _ _ => 0) hlen (i := 1) rfl

end ArmSim.Verify
