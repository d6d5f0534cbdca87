import ArmSim.Core.SignedLoop
import ArmSim.Verify.Session

/-! The dump loops of `mdump`. The address is an `int`: the loop does not end when it would have
to pass `INT_MAX`, and an address of the stack below `2 ^ 32` is extended to one that is not
mapped. -/
namespace ArmSim.Verify
open Shell Bytes SignedLoop

theorem mdumpLoop_eq_forLe (mem : Memory) (stop : BitVec 32) (fuel : ℕ) (a : BitVec 32) :
    mdumpLoop mem stop fuel a =
      forLe 4 (fun a => (a, memRead32 mem (a.signExtend 64))) stop fuel a := by
  induction fuel generalizing a with
  | zero => rfl
  | succ fuel ih =>
    unfold mdumpLoop forLe
    rw [ih]
    rfl

/-- The words from `start` up to `stop`, each with its content at the unsigned address. -/
def dump (mem : Memory) (start stop : BitVec 32) : List (BitVec 32 × BitVec 32) :=
  (values 4 start stop).map fun a => (a, memRead32 mem (a.setWidth 64))

theorem toInt_emod_four (a : BitVec 32) : a.toInt % 4 = a.toNat % 4 := by
  rw [BitVec.toInt_eq_toNat_cond]
  split <;> omega

theorem last_four (a : BitVec 32) : last 4 a = 2 ^ 31 - 4 + a.toNat % 4 := by
  have hmod := toInt_emod_four a
  unfold last
  exact congrArg (2 ^ 31 - 4 + ·) hmod

/-- What a dump loop prints when it ends. -/
theorem exists_mdumpLoop_iff {mem : Memory} {start stop : BitVec 32}
    {l : List (BitVec 32 × BitVec 32)} : (∃ fuel, mdumpLoop mem stop fuel start = some l) ↔
      stop.toInt < 2 ^ 31 - 4 + start.toNat % 4 ∧
        l = (values 4 start stop).map fun a => (a, memRead32 mem (a.signExtend 64)) := by
  simp only [mdumpLoop_eq_forLe]
  rw [exists_forLe_iff (by decide) (by decide) (by decide), last_four]

/-- The command returns exactly if the last address of its class is above `stop`. -/
theorem mdump_completes_iff (u : Machine → Sim.Indeterminate) (m m' : Machine)
    (start stop : BitVec 32) : (Command.mdump start stop).Completes u m m' ↔
      stop.toInt < 2 ^ 31 - 4 + start.toNat % 4 ∧ m' = m := by
  refine and_congr_left' ⟨fun ⟨fuel, hsome⟩ => ?_, fun hlt => ?_⟩
  · obtain ⟨l, hl⟩ := Option.isSome_iff_exists.mp hsome
    exact (exists_mdumpLoop_iff.mp ⟨fuel, hl⟩).1
  · obtain ⟨fuel, hl⟩ := exists_mdumpLoop_iff.mpr ⟨hlt, rfl⟩
    exact ⟨fuel, Option.isSome_of_eq_some hl⟩

section Extension
variable {a : BitVec 32}

theorem signExtend_of_nonneg (h : 0 ≤ a.toInt) : a.signExtend 64 = a.setWidth 64 := by
  apply BitVec.signExtend_eq_setWidth_of_msb_false
  rw [BitVec.msb_eq_toInt]
  exact decide_eq_false (not_lt.mpr h)

theorem findRegion_signExtend (h : a.toInt < 0) : findRegion (a.signExtend 64) = none := by
  have hneg : (a.signExtend 64).toInt < 0 := by
    rwa [BitVec.toInt_signExtend_of_le (by decide)]
  rw [BitVec.toInt_neg_iff] at hneg
  rw [findRegion_eq_none]
  intro r
  have hb := r.bounds
  rw [Bool.eq_false_iff]
  intro hr
  rw [Region.contains_iff] at hr
  omega

theorem toNat_setWidth_of_neg (h : a.toInt < 0) :
    ((a.setWidth 64).toNat : ℤ) = 2 ^ 32 + a.toInt := by
  have hlt := a.isLt
  rw [BitVec.toInt_eq_toNat_cond] at h ⊢
  rw [BitVec.toNat_setWidth]
  split at h <;> omega

/-- The only negative addresses that are mapped are the first four of the stack. -/
theorem findRegion_setWidth_of_lt (h : a.toInt < -4) : findRegion (a.setWidth 64) = none := by
  have hval := toNat_setWidth_of_neg (a := a) (by omega)
  have hlow := BitVec.le_toInt a
  rw [findRegion_eq_none]
  intro r
  rw [Bool.eq_false_iff]
  intro hr
  rw [Region.contains_iff] at hr
  have hbounds : r.start.toNat + r.size.toNat ≤ 2 ^ 31 ∨ r.start.toNat = 2 ^ 32 - 4 := by
    cases r <;> decide
  omega

theorem contains_stack_setWidth (h : a.toInt < 0) (hstack : -4 ≤ a.toInt) :
    Region.stack.contains (a.setWidth 64) = true := by
  have hval := toNat_setWidth_of_neg h
  rw [Region.contains_iff, Region.toNat_stack.1, Region.toNat_stack.2]
  omega

/-- There the two extensions differ, unless the word is 0. -/
theorem memRead32_extend_iff (mem : Memory) (a : BitVec 32) :
    memRead32 mem (a.setWidth 64) = memRead32 mem (a.signExtend 64) ↔
      (a.toInt < 0 → -4 ≤ a.toInt →
        ∀ i < 4, mem .stack (BitVec.ofNat 32 (a.toNat % 4 + i)) = 0) := by
  rcases le_or_gt 0 a.toInt with hpos | hneg
  · rw [signExtend_of_nonneg hpos]
    exact iff_of_true rfl fun hneg => absurd hpos (not_le.mpr hneg)
  rw [memRead32_of_unmapped (findRegion_signExtend hneg)]
  by_cases hstack : -4 ≤ a.toInt
  · have hin := contains_stack_setWidth hneg hstack
    have hoff : Region.stack.offset (a.setWidth 64) = BitVec.ofNat 32 (a.toNat % 4) := by
      have hval := toNat_setWidth_of_neg hneg
      have hstart := Region.toNat_stack.1
      have haddr := (Region.offset_of_contains hin).1
      have hmod := toInt_emod_four a
      apply BitVec.eq_of_toNat_eq
      rw [BitVec.toNat_ofNat]
      omega
    have hcell (i : ℕ) (hi : i < 4) : byte (memRead32 mem (a.setWidth 64)) i =
        mem .stack (BitVec.ofNat 32 (a.toNat % 4 + i)) := by
      rw [byte_memRead32 hin mem hi, hoff, BitVec.ofNat_add]
    constructor
    · intro hzero _ _ i hi
      rw [← hcell i hi, hzero, byte_zero]
    · intro hall
      refine eq_of_bytes (n := 4) rfl fun i hi => ?_
      rw [hcell i hi, hall hneg hstack i hi, byte_zero]
  · rw [memRead32_of_unmapped (findRegion_setWidth_of_lt (not_le.mp hstack))]
    exact iff_of_true rfl fun _ h => absurd h hstack

end Extension

/-- A dump loop ends with the right words exactly if its address never has to pass `INT_MAX`
and, in case it prints one of the first four addresses of the stack, the word there is 0. -/
theorem mdump_iff (mem : Memory) (start stop : BitVec 32) :
    (∃ fuel, mdumpLoop mem stop fuel start = some (dump mem start stop)) ↔
      stop.toInt < 2 ^ 31 - 4 + start.toNat % 4 ∧
        (start.toInt ≤ start.toNat % 4 - 4 → (start.toNat % 4 : ℤ) - 4 ≤ stop.toInt →
          ∀ i < 4, mem .stack (BitVec.ofNat 32 (start.toNat % 4 + i)) = 0) := by
  rw [exists_mdumpLoop_iff, dump, List.map_inj_left]
  refine and_congr_right' ?_
  simp only [Prod.mk.injEq, true_and, memRead32_extend_iff,
    mem_values_iff (by decide : 0 < 32) (by decide : 0 < 4)]
  have hmod := toInt_emod_four start
  constructor
  · intro hall hlo hhi
    -- the address of the class that lies in the stack
    obtain ⟨a, ha⟩ : ∃ a : BitVec 32, a.toInt = start.toNat % 4 - 4 :=
      ⟨_, BitVec.toInt_ofInt_eq_self (by decide) (by omega) (by omega)⟩
    have hclass := toInt_emod_four a
    have hres : a.toNat % 4 = start.toNat % 4 := by omega
    rw [← hres]
    exact hall a ⟨by omega, by omega, by omega⟩ (by omega) (by omega)
  · rintro hall a ⟨hlo, hhi, hclass⟩ hneg hstack
    have hclass' := toInt_emod_four a
    have hres : a.toNat % 4 = start.toNat % 4 := by omega
    rw [hres]
    exact hall (by omega) (by omega)

/-- `mdump 0x7ffffff0 0x7fffffff`. -/
theorem not_mdump : ¬ ∀ (mem : Memory) (start stop : BitVec 32),
    ∃ fuel, mdumpLoop mem stop fuel start = some (dump mem start stop) := by
  intro hall
  have hend := (exists_mdumpLoop_iff.mp (hall (fun _ _ => 0) 0x7FFFFFF0 0x7FFFFFFF)).1
  exact absurd hend (by decide)

end ArmSim.Verify
