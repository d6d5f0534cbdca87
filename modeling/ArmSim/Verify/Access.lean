import ArmSim.Verify.Lanes
import ArmSim.Verify.Step

/-! The loads and stores as byte transfers: which cells of which region a cycle writes, and
which it reads. -/
namespace ArmSim.Verify
open Shell Sim Spec Bytes

/-- A masked and truncated register keeps its low bytes. -/
theorem byte_masked {c i : ℕ} (v mask : BitVec 64) (hmask : mask.toNat = 2 ^ (8 * c) - 1)
    (hi : i < c) : byte ((v &&& mask).setWidth (8 * c)) i = byte v i := by
  apply BitVec.eq_of_getLsbD_eq
  intro k hk
  have hin : 8 * i + k < 8 * c := by omega
  have hm : mask.getLsbD (8 * i + k) = true := by
    rw [BitVec.getLsbD, hmask, Nat.testBit_two_pow_sub_one, decide_eq_true hin]
  simp only [getLsbD_byte, BitVec.getLsbD_setWidth, BitVec.getLsbD_and, hin, hm, decide_true,
    Bool.true_and, Bool.and_true]

/-- A store replaces the bytes of its lane and rewrites the others as they were. -/
theorem byte_storeWord {n : Name} (hn : n.isStore = true) (mem : Memory) (a v : BitVec 64)
    {j : ℕ} (hj : j < 4) :
    byte (storeWord mem a v n) j =
      if storeLane n a ≤ j ∧ j < storeLane n a + accessWidth n then byte v (j - storeLane n a)
      else byte (memRead32 mem (storeBase n a)) j := by
  cases n with
  | stur =>
    rw [if_pos ⟨Nat.zero_le j, by simpa [storeLane, accessWidth] using hj⟩]
    exact byte_masked (c := 4) v 0xFFFFFFFF rfl hj
  | sturb =>
    refine (byte_insertLane (c := 1) _ _ rfl (toNat_byteLane a) hj).trans ?_
    by_cases hin : a.toNat % 4 ≤ j ∧ j < a.toNat % 4 + 1
    · rw [if_pos hin, storeLane, accessWidth, if_pos hin]
      exact byte_masked (c := 1) v 0xFF rfl (by omega)
    · rw [if_neg hin, storeLane, accessWidth, if_neg hin]
      rfl
  | sturh =>
    refine (byte_insertLane (c := 2) _ _ rfl (toNat_halfwordLane a) hj).trans ?_
    by_cases hin : a.toNat / 2 % 2 * 2 ≤ j ∧ j < a.toNat / 2 % 2 * 2 + 2
    · rw [if_pos hin, storeLane, accessWidth, if_pos hin]
      exact byte_masked (c := 2) v 0xFFFF rfl (by omega)
    · rw [if_neg hin, storeLane, accessWidth, if_neg hin]
      rfl
  | _ => exact absurd hn (by decide)

/-- Which cells a store changes, and to what. -/
theorem setMemory_storeWord {n : Name} (hn : n.isStore = true) (mem : Memory) (a v : BitVec 64)
    (r : Region) (o : BitVec 32) :
    memWrite32 mem (storeBase n a) (storeWord mem a v n) r o =
      if r.contains (storeBase n a) = true ∧
          storeLane n a ≤ (o - r.offset (storeBase n a)).toNat ∧
          (o - r.offset (storeBase n a)).toNat < storeLane n a + accessWidth n then
        byte v ((o - r.offset (storeBase n a)).toNat - storeLane n a)
      else mem r o := by
  have hlane : storeLane n a + accessWidth n ≤ 4 := by
    cases n with
    | stur | sturb | sturh => simp only [storeLane, accessWidth]; omega
    | _ => exact absurd hn (by decide)
  rw [memWrite32_apply]
  by_cases hr : r.contains (storeBase n a) = true
  · generalize hd : (o - r.offset (storeBase n a)).toNat = d
    by_cases hlt : d < 4
    · rw [if_pos ⟨hr, hlt⟩, byte_storeWord hn mem a v hlt]
      refine if_congr (by simp only [hr, true_and]) rfl ?_
      have ho : o = r.offset (storeBase n a) + BitVec.ofNat 32 d := by
        rw [← hd, BitVec.ofNat_toNat, BitVec.setWidth_eq, add_sub_cancel]
      rw [byte_memRead32 hr mem hlt, ← ho]
    · rw [if_neg fun h => hlt h.2, if_neg fun h => hlt (by omega)]
  · rw [if_neg fun h => hr h.1, if_neg fun h => hr h.1]

/-- A cycle of a store. -/
theorem DecodesTo.store_memory {u : Indeterminate} {m m' : Machine} {n : Name}
    (h : DecodesTo (fetch m) n) (hn : n.isStore = true) (hc : cycle u m = .ok m') :
    m'.memory = memWrite32 m.memory
      (storeBase n (accessAddress m.currentState (fetch m)))
      (storeWord m.memory (accessAddress m.currentState (fetch m))
        (m.currentState.reg (rd (fetch m))) n) := by
  have hc' := h.cycle_eq (h.effect_store u m.currentState m.memory hn u.instrDef)
  obtain rfl := Except.ok.inj (hc.symm.trans hc')
  rfl

/-- The value that a load computes. -/
def loadValue (mem : Memory) (a : BitVec 64) : Name → BitVec 64
  | .ldur => loadDoubleword mem a
  | _ => (loadByte mem a).setWidth 64

/-- A cycle of LDUR or LDURB. -/
theorem DecodesTo.load_reg {u : Indeterminate} {m m' : Machine} {n : Name}
    (h : DecodesTo (fetch m) n) (hn : n = .ldur ∨ n = .ldurb) (hc : cycle u m = .ok m') :
    m'.currentState.reg (rd (fetch m)) =
      loadValue m.memory (accessAddress m.currentState (fetch m)) n := by
  have hr : result m.currentState m.memory (fetch m) n =
      some (loadValue m.memory (accessAddress m.currentState (fetch m)) n) := by
    rcases hn with rfl | rfl <;> rfl
  have hadd : n ≠ .addExtendedRegister := by rcases hn with rfl | rfl <;> decide
  have hg : n.guardsZero ≠ true := by rcases hn with rfl | rfl <;> decide
  obtain ⟨m'', hc', hreg, -⟩ := h.cycle_computes (u := u) (absurd · hadd) hr rfl (absurd · hg)
  obtain rfl := Except.ok.inj (hc.symm.trans hc')
  exact hreg

end ArmSim.Verify
