import ArmSim.Arch.Represents
import ArmSim.Verify.DataProcessing
import ArmSim.Verify.Shifts

/-! The operations on registers. A cycle of the simulator takes the machine of a state to the
machine of the state after the instruction. -/
namespace ArmSim.Arch
open Shell Sim Spec Verify Loop Bytes

def Op.name : Op → Name
  | add => .addExtendedRegister
  | adds => .addsExtendedRegister
  | subs => .subsExtendedRegister
  | ands => .andsShiftedRegister
  | eor => .eorShifterRegister
  | orr => .orrShiftedRegister
  | mul => .mul

def ImmediateOp.name : ImmediateOp → Name
  | add => .addImmediate
  | adds => .addsImmediate
  | subs => .subsImmediate

theorem shifted_eq {sh : Bool} {imm : BitVec 12} (h : sh = false ∨ imm = 0) :
    shifted sh imm = imm.setWidth 64 := by
  unfold shifted
  rcases h with rfl | rfl
  · exact BitVec.shiftLeft_zero _
  · simp

section Effects
variable {u : Indeterminate} {c : Tracked} {m : Machine} (h : Represents c m)
include h

theorem Represents.fetch_eq {i : Instr} (hpc : Accessible c.state.pc 4)
    (hi : Fetches c.state i) : fetch m = i.word := by
  unfold Sim.fetch
  rw [h.pc]
  exact h.memory.memRead32 hpc hi

/-- The register, the flags and the program counter after an operation. -/
theorem Represents.writeback {n : Name} {w : BitVec 32} {r : BitVec 64} {xd : BitVec 5}
    {f : Option Flags} {live : Bool} (hc : cycle u m = .ok (finish (writeback n w r) m))
    (hrd : rd w = xd) (hz : n.guardsZero = true ∨ Lands xd r)
    (hf : live = true → if n.setsFlags = true then
      ∃ g, f = some g ∧ g.n = r.msb ∧ g.z = (r == 0) else f = none ∧ c.live = true) :
    Represents { state := ((c.state.setFlags f).setReg xd r).next, live }
      (finish (writeback n w r) m) := by
  obtain ⟨hpc, hmem, hrun, hflags⟩ := setReg_setFlags_frame c.state xd r f
  refine ⟨h.wellFormed.cycle hc, ?_, fun k => ?_, fun hlive => ?_, ?_, ?_⟩
  · rw [pc_writeback, h.pc, ← hpc]
    rfl
  · have hreg : ((c.state.setFlags f).setReg xd r).next.reg k =
        if k = xd ∧ xd ≠ 31 then r else c.state.reg k := by
      rw [← reg_setFlags c.state k f]
      exact reg_setReg (c.state.setFlags f) xd k r
    rw [hreg, reg_writeback, hrd, ← h.wellFormed.latched, h.reg]
    by_cases hxd : xd = 31
    · -- the zero register reads as 0, so a 0 may be written to it
      have hno : ¬ (k = xd ∧ xd ≠ 31) := fun h' => h'.2 hxd
      rw [if_neg hno]
      by_cases hk : k = xd ∧ ¬ (n.guardsZero = true ∧ xd = 31)
      · rw [if_pos hk, hz.resolve_left (fun hg => hk.2 ⟨hg, hxd⟩) hxd, hk.1, hxd]
        rfl
      · rw [if_neg hk]
    · exact if_congr (and_congr_right fun _ => iff_of_true (fun h' => hxd h'.2) hxd) rfl rfl
  · obtain ⟨hN, hZ⟩ := flags_writeback n w r m
    have hget : (((c.state.setFlags f).setReg xd r).next).flags = f.getD c.state.flags := hflags
    rw [hN, hZ, hget, ← h.wellFormed.latched]
    specialize hf hlive
    by_cases hset : n.setsFlags = true
    · rw [if_pos hset] at hf ⊢
      rw [if_pos hset]
      obtain ⟨g, rfl, hn, hz'⟩ := hf
      rw [flagNOf_eq, flagZOf, Option.getD_some, hn, hz']
      exact ⟨rfl, if_congr beq_iff_eq.symm rfl rfl⟩
    · rw [if_neg hset] at hf ⊢
      rw [if_neg hset, hf.1, Option.getD_none]
      exact h.flags hf.2
  · exact hmem ▸ h.memory
  · exact hrun ▸ h.running

theorem Represents.jump {pc : Option (BitVec 64)} {t : BitVec 64}
    (hc : cycle u m = .ok (finish { pc } m)) (ht : pc.getD (m.currentState.pc + 4) = t) :
    Represents { state := c.state.jump t, live := c.live } (finish { pc } m) := by
  have hm := h.wellFormed.latched
  refine ⟨h.wellFormed.cycle hc, ht, fun k => ?_, fun hlive => ?_, h.memory, h.running⟩
  · rw [(SameRegisters.of_finish hm none pc).reg, h.reg]
    rfl
  · obtain ⟨-, hN, hZ⟩ := SameRegisters.of_finish hm none pc
    rw [hN, hZ]
    exact h.flags hlive

theorem Represents.store {store : Option (BitVec 64 × BitVec 32)} {k : ℕ} {a v : BitVec 64}
    {r : Region} (hc : cycle u m = .ok (finish { store } m))
    (hmem : (finish { store } m).memory = storeBytes k r a v m.memory) (ha : Inside r a k)
    (hpos : 0 < k) (hk : k ≤ 8) :
    Represents
      { state := State.next { c.state with mem := storeAt k a v c.state.mem }, live := c.live }
      (finish { store } m) := by
  have hm := h.wellFormed.latched
  refine ⟨h.wellFormed.cycle hc, ?_, fun k => ?_, fun hlive => ?_, ?_, h.running⟩
  · rw [finish_currentState, finish_pc, h.pc]
    rfl
  · rw [(SameRegisters.of_finish hm store none).reg, h.reg]
    rfl
  · obtain ⟨-, hN, hZ⟩ := SameRegisters.of_finish hm store none
    rw [hN, hZ]
    exact h.flags hlive
  · rw [hmem]
    exact h.memory.storeAt ha hpos hk v

end Effects

section Cases
variable {u : Indeterminate} {c : Tracked} {m : Machine} {stale : Option Bool} (h : Represents c m)
include h

theorem Represents.register {op : Op} {xm xn xd : BitVec 5}
    (hf : fetch m = (Instr.register op xm xn xd).word)
    (hs : Supported stale c (.register op xm xn xd)) :
    Yields (cycle u m) (Represents (c.after (.register op xm xn xd))) := by
  obtain ⟨horr, hz⟩ := hs
  have hd : DecodesTo (registerWord op.opcode 0 0 0 0) op.name := by
    cases op <;> decide
  have hadd : op.name = .addExtendedRegister → op.opcode ≠ 0b10001011001 := by
    cases op <;> decide
  have hr : result m.currentState m.memory (registerWord op.opcode xm op.imm6 xn xd) op.name =
      some (op.value (c.state.reg xn) (c.state.reg xm)) := by
    cases op with
    | orr =>
      rw [Op.name, result, rn_registerWord, h.reg, h.reg, horr rfl]
      rfl
    | _ =>
      rw [Op.name, result, rn_registerWord, rm_registerWord, h.reg, h.reg]
      rfl
  have hc := registerWord_cycle (u := u) hd hadd hf hr
  refine ⟨_, hc, h.writeback hc (rd_registerWord _ _ _ _ _) ?_ ?_⟩
  · rcases hz with rfl | rfl | hz
    · exact .inl rfl
    · exact .inl rfl
    · exact .inr hz
  · intro hlive
    cases op with
    | adds | subs | ands => exact ⟨_, rfl, rfl, rfl⟩
    | add | eor | orr | mul => exact ⟨rfl, (Bool.or_false _).symm.trans hlive⟩

theorem Represents.immediate {op : ImmediateOp} {sh : Bool} {imm : BitVec 12}
    {xn xd : BitVec 5} (hf : fetch m = (Instr.immediate op sh imm xn xd).word)
    (hs : Supported stale c (.immediate op sh imm xn xd)) :
    Yields (cycle u m) (Represents (c.after (.immediate op sh imm xn xd))) := by
  obtain ⟨hsh, hxn, hadd, hadds⟩ := hs
  have hexec : (Instr.immediate op sh imm xn xd).exec c.state = ((c.state.setFlags
      (op.op.flags (c.state.reg xn) (imm.setWidth 64))).setReg xd
      (op.op.value (c.state.reg xn) (imm.setWidth 64))).next := by
    change op.exec (shifted sh imm) xn xd c.state = _
    unfold ImmediateOp.exec
    rw [shifted_eq hsh, x_eq_reg c.state hxn]
    cases op with
    | add => exact congrArg State.next (setX_eq_setReg _ _ (hadd rfl))
    | adds | subs => rfl
  have htop : (topBits 8 (fetch m)) = tableOpcode op.name := by
    rw [hf]
    exact (topBits_immediateWord _ _ _ _ _).trans (by cases op <;> rfl)
  have hd : DecodesTo (fetch m) op.name := decodesTo_of_topBits8 htop
  have hn : op.name ≠ .addExtendedRegister := by cases op <;> decide
  have hr : result m.currentState m.memory (fetch m) op.name =
      some (op.op.value (c.state.reg xn) (imm.setWidth 64)) := by
    rw [hf, ← h.reg]
    unfold Instr.word
    cases op <;>
      · rw [ImmediateOp.name, result, rn_immediateWord, imm12_immediateWord]
        rfl
  have hc := hd.cycle_result (u := u) (absurd · hn) hr
  unfold Tracked.after
  rw [hexec]
  refine ⟨_, hc, h.writeback hc (by rw [hf]; exact rd_immediateWord _ _ _ _ _) ?_ ?_⟩
  · cases op with
    | add => exact .inr fun hxd => absurd hxd (hadd rfl)
    | adds => exact .inr (hadds rfl)
    | subs => exact .inl rfl
  · intro hlive
    cases op with
    | adds | subs => exact ⟨_, rfl, rfl, rfl⟩
    | add => exact ⟨rfl, (Bool.or_false _).symm.trans hlive⟩

theorem Represents.movz {hw : BitVec 2} {imm : BitVec 16} {xd : BitVec 5}
    (hf : fetch m = (Instr.movz hw imm xd).word) (hs : Supported stale c (.movz hw imm xd)) :
    Yields (cycle u m) (Represents (c.after (.movz hw imm xd))) := by
  obtain ⟨himm, hz⟩ := hs
  have hlt := hw.isLt
  have hvalue : imm.setWidth 64 = imm.setWidth 64 <<< (16 * hw.toNat) := by
    rw [setWidth_eq_shift_iff (by omega), mul_toNat_eq_zero_iff (by decide)]
    exact himm
  have htop : topBits 8 (fetch m) = tableOpcode .movz := by
    rw [hf]
    exact topBits_movzWord hw imm xd
  have hr : result m.currentState m.memory (fetch m) .movz = some (imm.setWidth 64) := by
    rw [hf, result]
    exact congrArg some (imm16_movzWord hw imm xd)
  have hc := (decodesTo_of_topBits8 htop).cycle_result (u := u) (absurd · (by decide)) hr
  have hexec : (Instr.movz hw imm xd).exec c.state =
      (c.state.setReg xd (imm.setWidth 64)).next :=
    congrArg (fun v => (c.state.setReg xd v).next) hvalue.symm
  unfold Tracked.after
  rw [hexec]
  exact ⟨_, hc, h.writeback (f := none) hc (by rw [hf]; exact rd_movzWord hw imm xd) (.inr hz)
    (absurd · Bool.false_ne_true)⟩

/-- Both shifts, as the decoder tells them apart. -/
theorem Represents.ubfm {r s : BitVec 6} {xn xd : BitVec 5} {v : BitVec 64} {live : Bool}
    (hf : fetch m = ubfmWord r s xn xd) (hv : (if r.toNat < 32 then c.state.reg xn >>> r.toNat
      else c.state.reg xn <<< (64 - r.toNat)) = v) (hz : Lands xd v)
    (hlive : live = true → r.toNat < 32 ∧ c.live = true) :
    Yields (cycle u m) (Represents { state := (c.state.setReg xd v).next, live }) := by
  have hd := hf ▸ ubfmWord_decodes r s xn xd
  have hrd : rd (fetch m) = xd := hf ▸ rd_ubfmWord r s xn xd
  have hrn : rn (fetch m) = xn := hf ▸ rn_ubfmWord r s xn xd
  have hi : immr (fetch m) = r.toNat := hf ▸ immr_ubfmWord r s xn xd
  by_cases hlt : r.toNat < 32
  · rw [if_pos hlt] at hd hv
    have hr : result m.currentState m.memory (fetch m) .lsrImmediate = some v := by
      rw [result, hrn, hi, h.reg, hv]
    have hc := hd.cycle_result (u := u) (absurd · (by decide)) hr
    exact ⟨_, hc, h.writeback (f := none) hc hrd (.inr hz) fun hl => ⟨rfl, (hlive hl).2⟩⟩
  · rw [if_neg hlt] at hd hv
    have hr : result m.currentState m.memory (fetch m) .lslImmediate = some v := by
      rw [result, hrn, hi, h.reg, hv]
    have hc := hd.cycle_result (u := u) (absurd · (by decide)) hr
    exact ⟨_, hc, h.writeback (f := none) hc hrd (.inr hz) fun hl => absurd (hlive hl).1 hlt⟩

theorem Represents.lsl {amount : Fin 64} {xn xd : BitVec 5}
    (hf : fetch m = (Instr.lsl amount xn xd).word)
    (hs : Supported stale c (.lsl amount xn xd)) :
    Yields (cycle u m) (Represents (c.after (.lsl amount xn xd))) := by
  obtain ⟨hle, hz⟩ := hs
  have hlt := amount.isLt
  refine h.ubfm hf ?_ hz (absurd · Bool.false_ne_true)
  rw [BitVec.toNat_ofNat]
  rcases hle with hle | hzero
  · rcases Nat.eq_zero_or_pos amount.val with h0 | hpos
    · rw [h0, if_pos (by decide)]
      exact (BitVec.ushiftRight_zero _).trans (BitVec.shiftLeft_zero _).symm
    · have hr : (64 - amount.val) % 2 ^ 6 = 64 - amount.val := Nat.mod_eq_of_lt (by omega)
      rw [hr, if_neg (by omega), Nat.sub_sub_self hlt.le]
  · rw [hzero]
    split <;> simp

theorem Represents.lsr {amount : Fin 64} {xn xd : BitVec 5}
    (hf : fetch m = (Instr.lsr amount xn xd).word)
    (hs : Supported stale c (.lsr amount xn xd)) :
    Yields (cycle u m) (Represents (c.after (.lsr amount xn xd))) := by
  obtain ⟨hle, hz⟩ := hs
  have hr : (BitVec.ofNat 6 amount.val).toNat = amount.val := by
    rw [BitVec.toNat_ofNat, Nat.mod_eq_of_lt amount.isLt]
  refine h.ubfm hf ?_ hz fun hl => ?_
  · rw [hr]
    rcases hle with hlt | hzero
    · rw [if_pos hlt]
    · rw [hzero]
      split <;> simp
  · rw [hr]
    have hand : (c.live && decide (amount.val < 32)) = true := hl
    rw [Bool.and_eq_true, decide_eq_true_eq] at hand
    exact hand.symm

end Cases

end ArmSim.Arch
