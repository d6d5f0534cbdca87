import ArmSim.Arch.Accesses
import ArmSim.Verify.Branches

/-! The branches, HLT, and with them the step lemma: the simulator matches every supported
instruction. -/
namespace ArmSim.Arch
open Shell Sim Spec Verify Loop Bytes

/-- Without overflow the simulator branches on the condition. -/
theorem branchTaken_iff_meets {f : Flags} {cond : Cond}
    (hv : cond = .eq ∨ cond = .ne ∨ f.v = false) :
    branchTaken (cond.code.setWidth 32) (if f.n = true then 1 else 0)
      (if f.z = true then 1 else 0) = true ↔ f.Meets cond := by
  obtain ⟨n, z, v⟩ := f
  cases cond with
  | eq | ne => cases n <;> cases z <;> simp [branchTaken, Cond.code, Flags.Meets]
  | ge | lt | gt | le =>
    obtain rfl : v = false := by simpa using hv
    cases n <;> cases z <;> simp [branchTaken, Cond.code, Flags.Meets]

/-- The two ways of a branch as two targets. -/
theorem Tracked.jump_ite (c : Tracked) {p : Prop} [Decidable p] {x y : BitVec 64} :
    ({ state := if p then c.state.jump x else c.state.jump y, live := c.live } : Tracked) =
      { state := c.state.jump (if p then x else y), live := c.live } := by
  split <;> rfl

theorem hltWord_decodes (imm : BitVec 16) : DecodesTo (hltWord imm) .hlt := by
  have htop (imm : BitVec 16) : topBits 11 (hltWord imm) = 0b11010100010 := by
    rw [topBits, hltWord, toNat_append_eq, toNat_append_eq]
    have := imm.isLt
    change (1698 * 2 ^ 16 + imm.toNat) * 2 ^ 5 / 2 ^ (32 - 11) = 1698
    omega
  have h0 : DecodesTo (hltWord 0) .hlt := by decide
  exact (decodesTo_congr ((htop imm).trans (htop 0).symm)).mpr h0

section Cases
variable {u : Indeterminate} {c : Tracked} {m : Machine} {stale : Option Bool} (h : Represents c m)
include h

theorem Represents.pc_aligned : m.currentState.pc % 4 = 0 := h.wellFormed.pc

theorem Represents.b {imm : BitVec 26} (hf : fetch m = bWord imm)
    (hs : Supported stale c (.b imm)) : Yields (cycle u m) (Represents (c.after (.b imm))) := by
  have hlt : imm.toNat < 64 := hs
  have hstays : ¬ Strays imm := by
    unfold Strays
    simp only [List.mem_cons, List.not_mem_nil, or_false]
    omega
  have hd : DecodesTo (fetch m) .b := by
    rw [hf]
    exact bWord_decodes hstays
  have hc := hd.cycle_b (u := u)
  refine ⟨_, hc, h.jump hc ?_⟩
  rw [hf, Option.getD_some, ← h.pc]
  refine (target_eq_iff _ _ _).mpr ?_
  have hoffset := bWord_offset imm
  rw [toNat_signExtend26, if_pos (by omega)]
  omega

theorem Represents.bcond {cond : Cond} {imm : BitVec 19}
    (hf : fetch m = branchWord 0b01010100 imm cond.code)
    (hs : Supported stale c (.bcond cond imm)) :
    Yields (cycle u m) (Represents (c.after (.bcond cond imm))) := by
  obtain ⟨hlive, hv⟩ := hs
  obtain ⟨hN, hZ⟩ := h.flags hlive
  have hd : DecodesTo (fetch m) .bcond := by
    rw [hf]
    exact decodesTo_of_topBits8 (topBits_branchWord _ _ _)
  have hcode : fetch m &&& mask5bits = cond.code.setWidth 32 := by
    apply BitVec.eq_of_toNat_eq
    rw [field_rd, hf, rd_branchWord, BitVec.toNat_setWidth]
    omega
  have himm : (fetch m >>> 5) &&& mask19bits = imm.setWidth 32 := by
    rw [hf, imm19_branchWord]
  have hc := hd.cycle_bcond (u := u)
  rw [hcode, himm, signedOffset19_eq, hN, hZ] at hc
  have hafter : c.after (.bcond cond imm) = { state := c.state.jump (if c.state.flags.Meets cond
      then c.state.pc + 4 * imm.signExtend 64 else c.state.pc + 4), live := c.live } :=
    Tracked.jump_ite c
  rw [hafter]
  by_cases ht : c.state.flags.Meets cond
  · rw [if_pos ((branchTaken_iff_meets hv).mpr ht)] at hc
    rw [if_pos ht]
    exact ⟨_, hc, h.jump hc (by rw [Option.getD_some, h.pc, four_mul])⟩
  · rw [if_neg (mt (branchTaken_iff_meets hv).mp ht)] at hc
    rw [if_neg ht]
    exact ⟨_, hc, h.jump hc (by rw [Option.getD_none, h.pc])⟩

theorem Represents.br {xn : BitVec 5} (hf : fetch m = registerWord 0b11010110000 31 0 xn 0)
    (hs : Supported stale c (.br xn)) : Yields (cycle u m) (Represents (c.after (.br xn))) := by
  have hd : DecodesTo (fetch m) .br := by
    rw [hf]
    exact registerWord_decodes (by decide) _ _ _ _
  have hrn : rn (fetch m) = xn := by
    rw [hf]
    exact rn_registerWord _ _ _ _ _
  have he : effect u m.currentState m.memory (decodeInstruction u.instrDef (fetch m)) .br =
      .ok { pc := some (c.state.reg xn) } := by
    have hv := readReg_regAt u m.currentState 5 (fetch m)
    have hreg : m.currentState.reg (regAt 5 (fetch m)) = c.state.reg xn := by
      rw [← h.reg, ← hrn]
      rfl
    have htarget : alignedBranchEffect (c.state.reg xn) = { pc := some (c.state.reg xn) } :=
      if_neg (not_not.mpr hs)
    rw [hd.record_eq, ← htarget, ← hreg]
    exact map_ok_iff.mpr ⟨_, hv, rfl⟩
  exact ⟨_, hd.cycle_eq he, h.jump (hd.cycle_eq he) rfl⟩

theorem Represents.cbz {imm : BitVec 19} {xt : BitVec 5}
    (hf : fetch m = branchWord 0b10110100 imm xt) :
    Yields (cycle u m) (Represents (c.after (.cbz imm xt))) := by
  have hc := cbz_cycle (u := u) hf h.pc_aligned
  have hafter : c.after (.cbz imm xt) = { state := c.state.jump (if c.state.reg xt = 0
      then c.state.pc + 4 * imm.signExtend 64 else c.state.pc + 4), live := c.live } :=
    Tracked.jump_ite c
  rw [hafter]
  exact ⟨_, hc, h.jump hc (by rw [Option.getD_some, h.reg, h.pc])⟩

theorem Represents.cbnz (hu : Leftover u stale) {imm : BitVec 19}
    {xt : BitVec 5} (hf : fetch m = branchWord 0b10110101 imm xt)
    (hs : Supported stale c (.cbnz imm xt)) :
    Yields (cycle u m) (Represents (c.after (.cbnz imm xt))) := by
  have hc := cbnz_cycle (u := u) hf h.pc_aligned
  have hafter : c.after (.cbnz imm xt) = { state := c.state.jump (if c.state.reg xt = 0
      then c.state.pc + 4 else c.state.pc + 4 * imm.signExtend 64), live := c.live } :=
    Tracked.jump_ite c
  rw [hafter]
  refine ⟨_, hc, h.jump hc ?_⟩
  rw [Option.getD_some, h.reg]
  rcases hs with hzero | hsign
  · rw [if_pos hzero, if_pos hzero, h.pc]
  · rw [(target_iff _ _ imm).mpr (hu _ hsign), h.pc]

theorem Represents.hlt {imm : BitVec 16} (hf : fetch m = hltWord imm) :
    Yields (cycle u m) (Represents (c.after (.hlt imm))) := by
  have hd : DecodesTo (fetch m) .hlt := by
    rw [hf]
    exact hltWord_decodes imm
  have hm := h.wellFormed.latched
  have hc : cycle u m = .ok (finish { halt := true } m) := hd.cycle_eq rfl
  refine ⟨_, hc, h.wellFormed.cycle hc, ?_, fun k => ?_, fun hl => ?_, h.memory, rfl⟩
  · rw [finish_currentState, finish_pc, h.pc]
    rfl
  · have hreg : (finish { halt := true } m).currentState.reg k = m.nextState.reg k := rfl
    rw [hreg, ← hm, h.reg]
    rfl
  · have hflags := h.flags hl
    rw [hm] at hflags
    exact hflags

/-- The step lemma. -/
theorem Represents.step {c' : Tracked} (hu : Leftover u stale)
    (hnext : Next stale c c') : Yields (cycle u m) (Represents c') := by
  obtain ⟨i, -, hpc, hi, hs⟩ := hnext
  have hf := h.fetch_eq hpc hi
  cases i with
  | register op xm xn xd => exact h.register hf hs
  | immediate op sh imm xn xd => exact h.immediate hf hs
  | movz hw imm xd => exact h.movz hf hs
  | lsl amount xn xd => exact h.lsl hf hs
  | lsr amount xn xd => exact h.lsr hf hs
  | store size imm xn xt => exact h.storing hf hs
  | load size imm xn xt => exact h.load hf hs
  | b imm => exact h.b hf hs
  | bcond cond imm => exact h.bcond hf hs
  | br xn => exact h.br hf hs
  | cbz imm xt => exact h.cbz hf
  | cbnz imm xt => exact h.cbnz hu hf hs
  | hlt imm => exact h.hlt hf

end Cases

end ArmSim.Arch
