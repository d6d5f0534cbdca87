import ArmSim.Verify.Definedness
import ArmSim.Verify.Step

/-! The branches with an immediate offset. B keeps six of its 26 offset bits, and CBNZ takes its
sign from a field that is not set. -/
namespace ArmSim.Verify
open Shell Sim Spec Loop

section Unconditional

theorem toNat_signExtend26 (imm : BitVec 26) : (imm.signExtend 64).toNat =
    if imm.toNat < 2 ^ 25 then imm.toNat else imm.toNat + (2 ^ 64 - 2 ^ 26) := by
  rw [BitVec.toNat_signExtend, BitVec.msb_eq_decide, BitVec.toNat_setWidth]
  have := imm.isLt
  split <;> split <;> simp only [decide_eq_true_eq] at * <;> omega

/-- What is left of the offset of B. -/
theorem bWord_offset (imm : BitVec 26) : (signedOffset19 (bWord imm &&& mask26)
    (bWord imm &&& mask26)).toNat = imm.toNat % 64 := by
  have hlow : (bWord imm &&& mask26).toNat = imm.toNat % 64 := by
    have hmask : mask26.toNat = 2 ^ 6 - 1 := rfl
    rw [BitVec.toNat_and, hmask, Nat.and_two_pow_sub_one_eq_mod, toNat_bWord]
    omega
  have hbit : (bWord imm &&& mask26).getLsbD 18 = false := by
    rw [BitVec.getLsbD, Nat.testBit_lt_two_pow]
    omega
  have hmask : (0x3FFFF : BitVec 32).toNat = 2 ^ 18 - 1 := rfl
  rw [signedOffset19, if_neg, BitVec.toNat_setWidth, BitVec.toNat_and, hmask,
    Nat.and_two_pow_sub_one_eq_mod, hlow]
  · omega
  · rw [and_bit_ne_zero_iff _ (by decide), hbit]
    decide

/-- The reach of a 19-bit offset, whichever sign bit is consulted. -/
theorem signedOffset19_near (tested address : BitVec 32) :
    (signedOffset19 tested address).toNat < 2 ^ 18 ∨
      2 ^ 64 - 2 ^ 18 ≤ (signedOffset19 tested address).toNat := by
  rw [signedOffset19]
  split
  · right
    rw [BitVec.toNat_or]
    exact Nat.right_le_or
  · left
    have hmask : (0x3FFFF : BitVec 32).toNat = 2 ^ 18 - 1 := rfl
    rw [BitVec.toNat_setWidth, BitVec.toNat_and, hmask, Nat.and_two_pow_sub_one_eq_mod]
    omega

theorem alignedBranchEffect_pc (m : Machine) (o : BitVec 64) :
    (finish (alignedBranchEffect (m.currentState.pc + (o <<< 2))) m).currentState.pc =
        m.currentState.pc + (o <<< 2) ∨
      (finish (alignedBranchEffect (m.currentState.pc + (o <<< 2))) m).currentState.pc =
        m.currentState.pc + 4 := by
  unfold alignedBranchEffect
  split
  · exact .inr rfl
  · exact .inl rfl

theorem target_eq_iff (pc o offset : BitVec 64) :
    pc + (o <<< 2) = pc + 4 * offset ↔ o.toNat % 2 ^ 62 = offset.toNat % 2 ^ 62 := by
  rw [add_right_inj, ← BitVec.toNat_inj, BitVec.toNat_shiftLeft, BitVec.toNat_mul,
    Nat.shiftLeft_eq]
  change o.toNat * 2 ^ 2 % 2 ^ 64 = 4 * offset.toNat % 2 ^ 64 ↔ _
  omega

/-- The upper offset bits with which a B word spells another opcode of the table. -/
def Strays (imm : BitVec 26) : Prop := imm.toNat / 2 ^ 21 ∈ [17, 20, 21]

theorem topBits_bWord (imm : BitVec 26) :
    topBits 6 (bWord imm) = 5 ∧ topBits 11 (bWord imm) = 160 + imm.toNat / 2 ^ 21 := by
  have := imm.isLt
  simp only [topBits, toNat_bWord]
  omega

theorem bWord_decodes {imm : BitVec 26} (h : ¬ Strays imm) : DecodesTo (bWord imm) .b := by
  obtain ⟨h6, h11⟩ := topBits_bWord imm
  refine decodesTo_iff.mpr (.inr (.inl ⟨rfl, h6, fun hmem => h ?_⟩))
  simp only [Strays, List.mem_cons, List.not_mem_nil, or_false] at hmem ⊢
  omega

theorem bWord_strays {imm : BitVec 26} (h : Strays imm) :
    DecodesTo (bWord imm) .addsImmediate ∨ DecodesTo (bWord imm) .cbz ∨
      DecodesTo (bWord imm) .cbnz := by
  obtain ⟨-, h11⟩ := topBits_bWord imm
  simp only [Strays, List.mem_cons, List.not_mem_nil, or_false] at h
  -- the eleven leading bits are the eight of these opcodes behind three zeros
  rcases h with h | h | h
  · have hlow : topBits 11 (bWord imm) = topBits 11 (bWord (17 <<< 21)) := by rw [h11, h]; rfl
    exact .inl ((decodesTo_congr hlow).mpr (by decide))
  · have hlow : topBits 11 (bWord imm) = topBits 11 (bWord (20 <<< 21)) := by rw [h11, h]; rfl
    exact .inr (.inl ((decodesTo_congr hlow).mpr (by decide)))
  · have hlow : topBits 11 (bWord imm) = topBits 11 (bWord (21 <<< 21)) := by rw [h11, h]; rfl
    exact .inr (.inr ((decodesTo_congr hlow).mpr (by decide)))

/-- What a cycle does to the program counter when it is no further than a 19-bit offset
reaches. -/
def Near (m m' : Machine) : Prop :=
  ∃ o : BitVec 64, m'.currentState.pc = m.currentState.pc + (o <<< 2) ∧
    (o.toNat < 2 ^ 18 ∨ 2 ^ 64 - 2 ^ 18 ≤ o.toNat)

theorem near_of_next {m m' : Machine} (h : m'.currentState.pc = m.currentState.pc + 4) :
    Near m m' :=
  ⟨1, h, .inl (by decide)⟩

theorem near_alignedBranch (m : Machine) (tested address : BitVec 32) :
    Near m (finish (alignedBranchEffect
      (m.currentState.pc + (signedOffset19 tested address <<< 2))) m) := by
  rcases alignedBranchEffect_pc m (signedOffset19 tested address) with hpc | hpc
  · exact ⟨_, hpc, signedOffset19_near tested address⟩
  · exact near_of_next hpc

theorem near_of_strays (u : Indeterminate) {m : Machine} {imm : BitVec 26} (h : Strays imm)
    (hf : fetch m = bWord imm) : Yields (cycle u m) (Near m) := by
  rcases bWord_strays h with hd | hd | hd
  · have hd := hf.symm ▸ hd
    exact (yields_iff (hd.cycle_result nofun rfl)).mpr (near_of_next rfl)
  · have hd := hf.symm ▸ hd
    rw [yields_iff (hd.cycle_eq (hd.effect_cbz u m.currentState m.memory u.instrDef))]
    split
    · exact near_alignedBranch m _ _
    · exact near_of_next rfl
  · have hd := hf.symm ▸ hd
    rw [yields_iff (hd.cycle_eq (hd.effect_cbnz u m.currentState m.memory u.instrDef))]
    split
    · exact near_of_next rfl
    · exact near_alignedBranch m _ _

/-- The offsets that the stray words stand for are out of that reach. -/
theorem not_near_of_strays {m m' : Machine} {imm : BitVec 26} (h : Strays imm)
    (hm : Near m m') : m'.currentState.pc ≠ m.currentState.pc + 4 * imm.signExtend 64 := by
  obtain ⟨o, hpc, ho⟩ := hm
  have hs := toNat_signExtend26 imm
  simp only [Strays, List.mem_cons, List.not_mem_nil, or_false] at h
  rw [if_neg (by omega)] at hs
  rw [hpc, ne_eq, target_eq_iff, hs]
  omega

/-- A word that is decoded as B keeps six bits of its offset. -/
theorem bWord_yields {u : Indeterminate} {m : Machine} {imm : BitVec 26}
    (hm : m.currentState = m.nextState) (hf : fetch m = bWord imm) (h : ¬ Strays imm) :
    Yields (cycle u m) (fun m' => m'.currentState.pc = m.currentState.pc + 4 * imm.signExtend 64 ∧
      Untouched m m') ↔ imm.toNat < 64 := by
  have hd := hf.symm ▸ bWord_decodes h
  have hs := toNat_signExtend26 imm
  have := imm.isLt
  rw [yields_iff hd.cycle_b, hf]
  refine (and_iff_left (Untouched.of_pc hm _)).trans ?_
  refine (target_eq_iff _ _ _).trans ?_
  rw [bWord_offset]
  split at hs <;> omega

/-- B jumps to its target, and does nothing else, exactly for the offsets that fit into the six
bits it keeps. -/
theorem branch_iff (u : Indeterminate) (m : Machine) (imm : BitVec 26)
    (hm : m.currentState = m.nextState) (hf : fetch m = bWord imm) :
    Yields (cycle u m) (fun m' => m'.currentState.pc = m.currentState.pc + 4 * imm.signExtend 64 ∧
      Untouched m m') ↔ imm.toNat < 64 := by
  by_cases h : Strays imm
  · obtain ⟨m', hc, hnear⟩ := near_of_strays u h hf
    have hlarge : ¬ imm.toNat < 64 := by
      intro hlt
      rw [Strays, Nat.div_eq_of_lt (by omega)] at h
      exact absurd h (by decide)
    rw [yields_iff hc]
    exact iff_of_false (fun hp => not_near_of_strays h hnear hp.1) hlarge
  · exact bWord_yields hm hf h

/-- B two words ahead. -/
theorem branch_iff_forward : Yields (cycle .zeroed (oneWord (bWord 2))) fun m' =>
    m'.currentState.pc = (oneWord (bWord 2)).currentState.pc + 4 * (2 : BitVec 26).signExtend 64 ∧
      Untouched (oneWord (bWord 2)) m' :=
  (branch_iff _ _ 2 rfl (fetch_oneWord _)).mpr (by decide)

/-- B to the word before it goes 63 words ahead. -/
theorem not_branch : ¬ ∀ (u : Indeterminate) (m : Machine) (imm : BitVec 26),
    m.currentState = m.nextState → fetch m = bWord imm →
      Yields (cycle u m) fun m' =>
        m'.currentState.pc = m.currentState.pc + 4 * imm.signExtend 64 ∧ Untouched m m' := by
  intro hall
  have hf := fetch_oneWord (bWord (-1))
  have hstays : ¬ Strays (-1) := by
    rw [Strays]
    decide
  exact absurd ((bWord_yields rfl hf hstays).mp (hall .zeroed _ (-1) rfl hf)) (by decide)

end Unconditional

section Conditional
variable {u : Indeterminate} {m : Machine} {imm : BitVec 19} {xt : BitVec 5}

theorem getLsbD_imm19 (imm : BitVec 19) : (imm.setWidth 32).getLsbD 18 = imm.msb := by
  rw [BitVec.msb_eq_getLsbD_last]
  simp

/-- The target that the sign of `tested` gives is the encoded one if that sign is right. -/
theorem target_iff (pc : BitVec 64) (tested : BitVec 32) (imm : BitVec 19) :
    pc + (signedOffset19 tested (imm.setWidth 32) <<< 2) = pc + 4 * imm.signExtend 64 ↔
      tested.getLsbD 18 = imm.msb := by
  rw [four_mul, ← signedOffset19_eq, signedOffset19_target_iff, getLsbD_imm19]

theorem cbz_cycle (hf : fetch m = branchWord 0b10110100 imm xt)
    (hpc : m.currentState.pc % 4 = 0) : cycle u m = .ok (finish
      { pc := some (if m.currentState.reg xt = 0 then m.currentState.pc + 4 * imm.signExtend 64
        else m.currentState.pc + 4) } m) := by
  have hd : DecodesTo (fetch m) .cbz :=
    hf ▸ decodesTo_of_topBits8 (topBits_branchWord _ _ _)
  have he := hd.effect_cbz u m.currentState m.memory u.instrDef
  rw [hf, rd_branchWord, imm19_branchWord, alignedBranchEffect_of_aligned hpc,
    (target_iff _ _ _).mpr (getLsbD_imm19 imm), ← hf] at he
  rw [hd.cycle_eq he]
  split <;> rfl

theorem cbnz_cycle (hf : fetch m = branchWord 0b10110101 imm xt)
    (hpc : m.currentState.pc % 4 = 0) : cycle u m = .ok (finish
      { pc := some (if m.currentState.reg xt = 0 then m.currentState.pc + 4
        else m.currentState.pc +
          (signedOffset19 u.instrDef.brAddress (imm.setWidth 32) <<< 2)) } m) := by
  have hd : DecodesTo (fetch m) .cbnz :=
    hf ▸ decodesTo_of_topBits8 (topBits_branchWord _ _ _)
  have he := hd.effect_cbnz u m.currentState m.memory u.instrDef
  rw [hf, rd_branchWord, imm19_branchWord, alignedBranchEffect_of_aligned hpc, ← hf] at he
  rw [hd.cycle_eq he]
  split <;> rfl

/-- Of CBZ and CBNZ with the same fields, started from the same state, the first branches if the
register is zero and the second otherwise, and neither does anything else. -/
def Complementary (u₁ u₂ : Indeterminate) (m₁ m₂ : Machine) (imm : BitVec 19) (xt : BitVec 5) :
    Prop :=
  Yields (cycle u₁ m₁) fun a => Yields (cycle u₂ m₂) fun b =>
    (if m₁.currentState.reg xt = 0 then
      a.currentState.pc = m₁.currentState.pc + 4 * imm.signExtend 64 ∧
        b.currentState.pc = m₁.currentState.pc + 4
    else a.currentState.pc = m₁.currentState.pc + 4 ∧
      b.currentState.pc = m₁.currentState.pc + 4 * imm.signExtend 64) ∧
    Untouched m₁ a ∧ Untouched m₂ b

/-- They complement each other exactly when CBNZ is not taken or finds the sign of its offset
left over in the record. -/
theorem complementary_iff (u₁ u₂ : Indeterminate) (m₁ m₂ : Machine) (imm : BitVec 19)
    (xt : BitVec 5) (hm₁ : m₁.currentState = m₁.nextState) (hm₂ : m₂.currentState = m₂.nextState)
    (hsame : m₁.currentState = m₂.currentState) (hpc : m₁.currentState.pc % 4 = 0)
    (hf₁ : fetch m₁ = branchWord 0b10110100 imm xt)
    (hf₂ : fetch m₂ = branchWord 0b10110101 imm xt) :
    Complementary u₁ u₂ m₁ m₂ imm xt ↔
      m₁.currentState.reg xt = 0 ∨ u₂.instrDef.brAddress.getLsbD 18 = imm.msb := by
  rw [Complementary, yields_iff (cbz_cycle hf₁ hpc), yields_iff (cbnz_cycle hf₂ (hsame ▸ hpc)),
    ← hsame]
  have hu₁ := Untouched.of_pc hm₁
  have hu₂ := Untouched.of_pc hm₂
  by_cases hz : m₁.currentState.reg xt = 0
  · simp only [hz, if_true, true_or, iff_true]
    exact ⟨⟨rfl, rfl⟩, hu₁ _, hu₂ _⟩
  · simp only [hz, if_false, false_or]
    rw [← target_iff m₁.currentState.pc]
    exact ⟨fun h => h.1.2, fun h => ⟨⟨rfl, h⟩, hu₁ _, hu₂ _⟩⟩

/-- A machine about to execute a branch on X0, with X0 = 1. -/
def branchOnOne (op : BitVec 8) (imm : BitVec 19) : Machine :=
  withReg 0 1 (oneWord (branchWord op imm 0))

theorem fetch_branchOnOne (op : BitVec 8) (imm : BitVec 19) :
    fetch (branchOnOne op imm) = branchWord op imm 0 := fetch_oneWord _

theorem branchOnOne_currentState (op₁ op₂ : BitVec 8) (imm : BitVec 19) :
    (branchOnOne op₁ imm).currentState = (branchOnOne op₂ imm).currentState := by
  unfold branchOnOne withReg
  rw [oneWord_currentState]

/-- CBZ X0 and CBNZ X0 two words ahead. -/
theorem complementary_iff_taken : Complementary .zeroed .zeroed (branchOnOne 0b10110100 2)
    (branchOnOne 0b10110101 2) 2 0 :=
  (complementary_iff _ _ _ _ 2 0 rfl rfl (branchOnOne_currentState _ _ _) (by decide)
    (fetch_branchOnOne _ _) (fetch_branchOnOne _ _)).mpr (.inr (by decide))

/-- CBNZ X0 to the word before it, with a record that held zeros. -/
theorem not_complementary : ¬ ∀ (u₁ u₂ : Indeterminate) (m₁ m₂ : Machine) (imm : BitVec 19)
    (xt : BitVec 5), m₁.currentState = m₁.nextState → m₂.currentState = m₂.nextState →
      m₁.currentState = m₂.currentState → m₁.currentState.pc % 4 = 0 →
      fetch m₁ = branchWord 0b10110100 imm xt → fetch m₂ = branchWord 0b10110101 imm xt →
        Complementary u₁ u₂ m₁ m₂ imm xt := by
  intro hall
  have hsame := branchOnOne_currentState 0b10110100 0b10110101 (-1)
  have hf₂ := fetch_branchOnOne 0b10110101 (-1)
  have hc₂ := cbnz_cycle (u := .zeroed) hf₂ (by decide)
  have hreg : (branchOnOne 0b10110101 (-1)).currentState.reg 0 ≠ 0 := by decide
  obtain ⟨a, -, hy⟩ := hall .zeroed .zeroed _ _ (-1) 0 rfl rfl hsame (by decide)
    (fetch_branchOnOne _ _) hf₂
  rw [yields_iff hc₂, hsame, if_neg hreg, if_neg hreg] at hy
  have hsign := (target_iff _ Indeterminate.zeroed.instrDef.brAddress (-1)).mp hy.1.2
  exact absurd hsign (by decide)

end Conditional

end ArmSim.Verify
