import ArmSim.Spec.Effect
import Mathlib.Tactic.Positivity

/-! The sub-word accesses byte by byte: rounding an address down, the lane of a byte or halfword
within its word, and what replacing or reading a lane does. -/
namespace ArmSim.Verify
open Shell Sim Spec Bytes

theorem toNat_alignedAddress (a : BitVec 64) :
    (alignedAddress a).toNat = a.toNat % 2 ^ 32 / 4 * 4 := by
  have hmask : (0xFFFFFFFFFFFFFFFC : BitVec 64) = BitVec.allOnes 64 <<< 2 := by decide
  have := a.isLt
  rw [alignedAddress, hmask, ← BitVec.shiftLeft_ushiftRight, BitVec.toNat_setWidth,
    BitVec.toNat_shiftLeft, BitVec.toNat_ushiftRight, Nat.shiftRight_eq_div_pow,
    Nat.shiftLeft_eq]
  omega

theorem toNat_narrowed (a : BitVec 64) : (narrowed a).toNat = a.toNat % 2 ^ 32 / 4 * 4 := by
  have := (alignedAddress a).isLt
  rw [narrowed, BitVec.toNat_setWidth, Nat.mod_eq_of_lt (by omega), toNat_alignedAddress]

theorem toNat_byteLane (a : BitVec 64) : (byteLane a).toNat = 8 * (a.toNat % 4) := by
  have hmask : (mask2bits.setWidth 64).toNat = 2 ^ 2 - 1 := rfl
  rw [byteLane, BitVec.toNat_setWidth, BitVec.toNat_mul, BitVec.toNat_and, hmask,
    Nat.and_two_pow_sub_one_eq_mod]
  change a.toNat % 2 ^ 2 * 8 % 2 ^ 64 % 2 ^ 32 = _
  omega

theorem toNat_halfwordLane (a : BitVec 64) :
    (halfwordLane a).toNat = 8 * (a.toNat / 2 % 2 * 2) := by
  have hshift : a &&& (2 : BitVec 64) = ((a >>> 1) &&& (1 : BitVec 64)) <<< 1 := by
    have hmask : (2 : BitVec 64) = (BitVec.allOnes 64 <<< 1) &&& ((1 : BitVec 64) <<< 1) := by
      decide
    rw [BitVec.shiftLeft_and_distrib, BitVec.shiftLeft_ushiftRight, BitVec.and_assoc, ← hmask]
  have hone : (1 : BitVec 64).toNat = 2 ^ 1 - 1 := rfl
  rw [halfwordLane, hshift, BitVec.toNat_setWidth, BitVec.toNat_mul, BitVec.toNat_shiftLeft,
    BitVec.toNat_and, hone, Nat.and_two_pow_sub_one_eq_mod, BitVec.toNat_ushiftRight,
    Nat.shiftRight_eq_div_pow, Nat.shiftLeft_eq]
  change a.toNat / 2 ^ 1 % 2 ^ 1 * 2 ^ 1 % 2 ^ 64 * 8 % 2 ^ 64 % 2 ^ 32 = _
  omega

/-- Replacing `c` bytes from byte `q` on. -/
theorem byte_insertLane {c q : ℕ} {mask lane : BitVec 32} (old : BitVec 32) (v : BitVec (8 * c))
    (hmask : mask.toNat = 2 ^ (8 * c) - 1) (hlane : lane.toNat = 8 * q) {j : ℕ} (hj : j < 4) :
    byte (insertLane mask old (v.setWidth 32) lane) j =
      if q ≤ j ∧ j < q + c then byte v (j - q) else byte old j := by
  have hm (i : ℕ) : mask.getLsbD i = decide (i < 8 * c) := by
    rw [BitVec.getLsbD, hmask, Nat.testBit_two_pow_sub_one]
  apply BitVec.eq_of_getLsbD_eq
  intro k hk
  have hp : 8 * j + k < 32 := by omega
  rw [getLsbD_byte, insertLane, BitVec.shiftLeft_eq', BitVec.shiftLeft_eq', hlane,
    BitVec.getLsbD_or, BitVec.getLsbD_and, BitVec.getLsbD_not, BitVec.getLsbD_shiftLeft,
    BitVec.getLsbD_shiftLeft, BitVec.getLsbD_setWidth, hm]
  split
  · have hin : ¬ 8 * j + k < 8 * q ∧ 8 * j + k - 8 * q < 8 * c ∧ 8 * j + k - 8 * q < 32 ∧
        8 * j + k - 8 * q = 8 * (j - q) + k := by omega
    simp only [getLsbD_byte, hk, hp, hin.1, hin.2.1, hin.2.2.1, ← hin.2.2.2, decide_true,
      decide_false, Bool.not_false, Bool.true_and, Bool.not_true, Bool.and_false,
      Bool.false_or]
  · rename_i hout
    have hv : (decide (8 * j + k < 8 * q) = true) ∨ ¬ 8 * j + k - 8 * q < 8 * c := by
      rw [decide_eq_true_eq]
      omega
    rcases hv with hlt | hge
    · simp only [getLsbD_byte, hk, hp, hlt, decide_true, Bool.true_and, Bool.not_true,
        Bool.false_and, Bool.not_false, Bool.and_true, Bool.and_false, Bool.or_false]
    · have hzero : v.getLsbD (8 * j + k - 8 * q) = false :=
        BitVec.getLsbD_of_ge v _ (by omega)
      simp only [getLsbD_byte, hk, hp, hge, hzero, decide_true, decide_false, Bool.true_and,
        Bool.and_false, Bool.not_false, Bool.and_true, Bool.or_false]

/-- The byte that a byte load takes out of the aligned word. -/
theorem loadByte_eq (mem : Memory) (a : BitVec 64) :
    loadByte mem a = byte (memRead32 mem (narrowed a)) (a.toNat % 4) := by
  rw [loadByte, BitVec.ushiftRight_eq', toNat_byteLane]
  exact setWidth_shift_mask _ _

theorem byte_loadDoubleword (mem : Memory) (a : BitVec 64) {i : ℕ} (hi : i < 8) :
    byte (loadDoubleword mem a) i =
      if i < 4 then byte (memRead32 mem (narrowed a)) i
      else byte (memRead32 mem ((alignedAddress a + 4).setWidth 64)) (i - 4) := by
  apply BitVec.eq_of_getLsbD_eq
  intro k hk
  rw [getLsbD_byte, loadDoubleword, BitVec.getLsbD_or, BitVec.getLsbD_shiftLeft,
    BitVec.getLsbD_setWidth, BitVec.getLsbD_setWidth]
  split
  · have hlow : 8 * i + k < 32 ∧ 8 * i + k < 64 := by omega
    simp only [getLsbD_byte, hk, hlow, decide_true, Bool.true_and, Bool.not_true,
      Bool.false_and, Bool.and_false, Bool.false_or]
  · have hhigh : ¬ 8 * i + k < 32 ∧ 8 * i + k < 64 ∧ 8 * i + k - 32 = 8 * (i - 4) + k ∧
        8 * (i - 4) + k < 64 := by omega
    have hzero : (memRead32 mem (narrowed a)).getLsbD (8 * i + k) = false :=
      BitVec.getLsbD_of_ge _ _ (by omega)
    simp only [getLsbD_byte, hk, hhigh.1, hhigh.2.1, hhigh.2.2.1, hhigh.2.2.2, hzero,
      decide_true, decide_false, Bool.true_and, Bool.not_false, Bool.and_false, Bool.or_false]

end ArmSim.Verify
