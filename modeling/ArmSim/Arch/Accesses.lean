import ArmSim.Arch.Operations

/-! The loads and stores. -/
namespace ArmSim.Arch
open Shell Sim Spec Verify Loop Bytes

namespace Size

def storeName : Size → Name
  | byte => .sturb
  | half => .sturh
  | double => .stur

def loadName : Size → Name
  | byte => .ldurb
  | half => .ldurh
  | double => .ldur

theorem bytes_pos (size : Size) : 0 < size.bytes := by
  cases size <;> decide

theorem bytes_le (size : Size) : size.bytes ≤ 8 := by
  cases size <;> decide

end Size

theorem loadBytes_one (r : Region) (a : BitVec 64) (mem : Memory) :
    loadBytes 1 r a mem = (mem r (r.offset a)).setWidth 64 := by
  simp [loadBytes, ofBytes, bytesAt]

section Cases
variable {u : Indeterminate} {c : Tracked} {m : Machine} {stale : Option Bool} (h : Represents c m)
include h

theorem Represents.address_eq {xn : BitVec 5} (hxn : xn ≠ 31) (imm : BitVec 9) :
    baseOffset m.currentState xn imm = c.state.address xn imm := by
  rw [baseOffset, h.reg, State.address, x_eq_reg c.state hxn]

theorem Represents.storing {size : Size} {imm : BitVec 9} {xn xt : BitVec 5}
    (hf : fetch m = (Instr.store size imm xn xt).word)
    (hs : Supported stale c (.store size imm xn xt)) :
    Yields (cycle u m) (Represents (c.after (.store size imm xn xt))) := by
  obtain ⟨hxn, ⟨r, hr, hin⟩, hsize⟩ := hs
  have hcontains := hin.contains size.bytes_pos
  have hlt := toNat_lt_of_contains hr hcontains
  have hd : DecodesTo (transferWord size.storeOpcode 0 0 0) size.storeName := by
    cases size <;> decide
  have hn : size.storeName.isStore = true := by cases size <;> rfl
  have haddr := h.address_eq hxn imm
  obtain ⟨store, hc, hmem⟩ := cycle_store (u := u) (r := r) hd hn hf
    (by rw [haddr]; exact contains_storeBase hr hcontains)
  rw [haddr, h.reg] at hmem
  -- what the simulator stores are the bytes that should be stored
  have hbytes : storeBytes (accessWidth size.storeName) r
      (storePlace size.storeName (c.state.address xn imm)) (c.state.reg xt) m.memory =
      storeBytes size.bytes r (c.state.address xn imm) (c.state.reg xt) m.memory := by
    cases size with
    | byte => rw [Size.storeName, storePlace_sturb hlt]; rfl
    | half =>
      have heven : (c.state.address xn imm).toNat % 2 = 0 := hsize
      rw [Size.storeName, storePlace_sturh hlt, heven]
      exact congrArg (fun a => storeBytes 2 r a _ _) (sub_zero _)
    | double =>
      rw [Size.storeName, storePlace_stur]
      refine (storeBytes_eq_iff r _ (by decide) (by decide) _ _).mpr fun j hj hj' => ?_
      rw [← h.memory.bytesAt hr hin hj']
      exact hsize j hj hj'
  exact ⟨_, hc, h.store hc (hmem.trans hbytes) hin size.bytes_pos size.bytes_le⟩

/-- A load that reaches its register. -/
theorem Represents.loading {size : Size} {imm : BitVec 9} {xn xt : BitVec 5} {v : BitVec 64}
    (hsize : size ≠ .half) (hf : fetch m = (Instr.load size imm xn xt).word) (hxn : xn ≠ 31)
    (hv : loadValue m.memory (c.state.address xn imm) size.loadName = v) (hz : Lands xt v) :
    Yields (cycle u m) (Represents { state := (c.state.setReg xt v).next, live := c.live }) := by
  have hd : DecodesTo (fetch m) size.loadName := by
    rw [hf]
    exact transferWord_decodes (by cases size <;> decide) imm xn xt
  have haddr : accessAddress m.currentState (fetch m) = c.state.address xn imm := by
    rw [hf, ← h.address_eq hxn imm]
    exact accessAddress_transferWord _
  have hr : result m.currentState m.memory (fetch m) size.loadName = some v := by
    rw [← hv, ← haddr]
    cases size <;> first | rfl | exact absurd rfl hsize
  have hn : size.loadName ≠ .addExtendedRegister := by cases size <;> decide
  have hset : size.loadName.setsFlags ≠ true := by cases size <;> decide
  have hc := hd.cycle_result (u := u) (absurd · hn) hr
  refine ⟨_, hc, h.writeback (f := none) hc (by rw [hf]; exact rd_transferWord _ _ _ _)
    (.inr hz) fun hl => ?_⟩
  rw [if_neg hset]
  exact ⟨rfl, hl⟩

/-- LDURH leaves everything but the program counter as it is. -/
theorem Represents.ldurh {imm : BitVec 9} {xn xt : BitVec 5} {v : BitVec 64}
    (hf : fetch m = (Instr.load .half imm xn xt).word) (hv : xt = 31 ∨ c.state.reg xt = v) :
    Yields (cycle u m) (Represents { state := (c.state.setReg xt v).next, live := c.live }) := by
  have hm := h.wellFormed.latched
  have hd : DecodesTo (fetch m) .ldurh := by
    rw [hf]
    exact transferWord_decodes (by decide) imm xn xt
  obtain ⟨m', hc, hreg⟩ := cycle_ldurh (u := u) hf
  have hframe := hd.frame hm hc
  obtain ⟨hN, hZ⟩ := hd.flags_kept rfl hc
  obtain ⟨hpc, hmem, hrun, hflags⟩ := setReg_setFlags_frame c.state xt v none
  refine ⟨m', hc, h.wellFormed.cycle hc, ?_, fun k => ?_, fun hl => ?_, ?_, ?_⟩
  · rw [hframe.pc (by decide), h.pc, ← hpc]
    rfl
  · have hkept : (c.state.setReg xt v).next.reg k = c.state.reg k := by
      refine (reg_setReg c.state xt k v).trans ?_
      split
      · rename_i hk
        rw [hk.1, hv.resolve_left hk.2]
      · rfl
    rw [hreg, hkept, ← hm, h.reg]
  · have hget : (c.state.setReg xt v).next.flags = c.state.flags := hflags
    rw [hN, hZ, hget, ← hm]
    exact h.flags hl
  · rw [hframe.memory (by decide)]
    exact hmem ▸ h.memory
  · have hhalted : halted m' = halted m := congrArg (· == 0) (hframe.runBit (by decide))
    exact hhalted.trans (hrun ▸ h.running)

theorem Represents.load {size : Size} {imm : BitVec 9} {xn xt : BitVec 5}
    (hf : fetch m = (Instr.load size imm xn xt).word)
    (hs : Supported stale c (.load size imm xn xt)) :
    Yields (cycle u m) (Represents (c.after (.load size imm xn xt))) := by
  cases size with
  | byte =>
    obtain ⟨hxn, ⟨r, hr, hin⟩, hz⟩ := hs
    refine h.loading (by decide) hf hxn ?_ hz
    refine Eq.trans ?_ (h.memory.loadAt_eq hr hin (by decide)).symm
    rw [loadBytes_one, ← loadByte_eq_cell m.memory hr (hin.contains (by decide))]
    rfl
  | half => exact h.ldurh hf hs
  | double =>
    obtain ⟨hxn, ⟨r, hr, hin⟩, haligned, hz⟩ := hs
    refine h.loading (by decide) hf hxn ?_ hz
    refine Eq.trans ?_ (h.memory.loadAt_eq hr hin (by decide)).symm
    have hlt := toNat_lt_of_contains hr (hin.contains (by decide))
    have hnarrow : narrowed (c.state.address xn imm) = c.state.address xn imm := by
      apply BitVec.eq_of_toNat_eq
      rw [toNat_narrowed]
      omega
    refine (loadDoubleword_eq_iff m.memory hr hin).mpr fun j _ => ?_
    rw [hnarrow]

end Cases

end ArmSim.Arch
