import ArmSim.Verify.Step

/-! LSR and LSL by an immediate. The table tells them apart by the upper bit of `immr`, so a
shift right by 32 or more runs as a shift left, and a shift left by more than 32 as a shift
right. -/
namespace ArmSim.Verify
open Shell Sim Spec Loop

theorem ubfmWord_decodes (r s : BitVec 6) (xn xd : BitVec 5) : DecodesTo (ubfmWord r s xn xd)
    (if r.toNat < 32 then .lsrImmediate else .lslImmediate) := by
  have hr := r.isLt
  have htop := topBits_ubfmWord r s xn xd
  split
  · have hlow : topBits 11 (ubfmWord r s xn xd) = topBits 11 (ubfmWord 0 0 0 0) := by
      rw [htop, topBits_ubfmWord, Nat.div_eq_of_lt ‹_›]
      rfl
    exact (decodesTo_congr hlow).mpr (by decide)
  · have hhigh : topBits 11 (ubfmWord r s xn xd) = topBits 11 (ubfmWord 32 0 0 0) := by
      rw [htop, topBits_ubfmWord, show r.toNat / 32 = 1 by omega]
      rfl
    exact (decodesTo_congr hhigh).mpr (by decide)

/-- What either of the two leaves in its destination. -/
theorem ubfmWord_yields {u : Indeterminate} {m : Machine} {r s : BitVec 6} {xn xd : BitVec 5}
    (hf : fetch m = ubfmWord r s xn xd) (v : BitVec 64) :
    Yields (cycle u m) (fun m' => m'.currentState.reg xd = v) ↔
      (if r.toNat < 32 then m.currentState.reg xn >>> r.toNat
        else m.currentState.reg xn <<< (64 - r.toNat)) = v := by
  have hd := hf ▸ ubfmWord_decodes r s xn xd
  have hrd : rd (fetch m) = xd := hf ▸ rd_ubfmWord r s xn xd
  have hrn : rn (fetch m) = xn := hf ▸ rn_ubfmWord r s xn xd
  have hi : immr (fetch m) = r.toNat := hf ▸ immr_ubfmWord r s xn xd
  split at hd
  · obtain ⟨m', hc, hreg, -⟩ := hd.cycle_computes (u := u) nofun rfl hrd nofun
    rw [yields_iff hc, hreg, hrn, hi, if_pos ‹_›]
  · obtain ⟨m', hc, hreg, -⟩ := hd.cycle_computes (u := u) nofun rfl hrd nofun
    rw [yields_iff hc, hreg, hrn, hi, if_neg ‹_›]

/-- The two shifts by complementary amounts leave their bits in disjoint places. -/
theorem shiftLeft_eq_ushiftRight_iff {i j : ℕ} (hij : i + j = 64) (x : BitVec 64) :
    x <<< i = x >>> j ↔ x = 0 := by
  have hpow : 2 ^ 64 = 2 ^ i * 2 ^ j := by rw [← pow_add, hij]
  have hlt : x.toNat / 2 ^ j < 2 ^ i := by
    rw [Nat.div_lt_iff_lt_mul (by positivity), ← hpow]
    exact x.isLt
  rw [← BitVec.toNat_inj, BitVec.toNat_shiftLeft, Nat.shiftLeft_eq, hpow, Nat.mul_comm x.toNat,
    Nat.mul_mod_mul_left, BitVec.toNat_ushiftRight, Nat.shiftRight_eq_div_pow]
  constructor
  · -- on the left the bits lie from place i on, on the right below it
    intro h
    have hmod : x.toNat % 2 ^ j = 0 := by
      by_contra hne
      have hge := Nat.le_mul_of_pos_right (2 ^ i) (Nat.pos_of_ne_zero hne)
      omega
    have hdiv : x.toNat / 2 ^ j = 0 := by rw [← h, hmod, Nat.mul_zero]
    have hx := Nat.div_add_mod x.toNat (2 ^ j)
    rw [hmod, hdiv, Nat.mul_zero] at hx
    exact BitVec.eq_of_toNat_eq hx.symm
  · rintro rfl
    simp

section Amount
variable {u : Indeterminate} {m : Machine} {s : ℕ} {xn xd : BitVec 5}

theorem lsrWord_yields (hs : s < 64) (hf : fetch m = lsrWord xn xd s) :
    Yields (cycle u m) (fun m' => m'.currentState.reg xd = m.currentState.reg xn >>> s) ↔
      s < 32 ∨ m.currentState.reg xn = 0 := by
  have hr : (BitVec.ofNat 6 s).toNat = s := by
    rw [BitVec.toNat_ofNat, Nat.mod_eq_of_lt hs]
  rw [ubfmWord_yields hf, hr]
  split
  · simp [*]
  · rw [shiftLeft_eq_ushiftRight_iff (by omega), or_iff_right ‹_›]

theorem lslWord_yields (hpos : 0 < s) (hs : s < 64) (hf : fetch m = lslWord xn xd s) :
    Yields (cycle u m) (fun m' => m'.currentState.reg xd = m.currentState.reg xn <<< s) ↔
      s ≤ 32 ∨ m.currentState.reg xn = 0 := by
  have hr : (BitVec.ofNat 6 (64 - s)).toNat = 64 - s := by
    rw [BitVec.toNat_ofNat, Nat.mod_eq_of_lt (by omega)]
  rw [ubfmWord_yields hf, hr]
  split
  · rw [eq_comm, shiftLeft_eq_ushiftRight_iff (by omega), or_iff_right (by omega)]
  · have hle : s ≤ 32 := by omega
    have hback : 64 - (64 - s) = s := by omega
    simp only [hback, hle, true_or]

/-- The shift instructions shift as they should exactly up to 31 to the right and up to 32 to
the left, unless the operand is zero. -/
theorem shift_iff (u : Indeterminate) (m : Machine) (xn xd : BitVec 5) (s : ℕ) (hs : s < 64) :
    (fetch m = lsrWord xn xd s →
      (Yields (cycle u m) (fun m' => m'.currentState.reg xd = m.currentState.reg xn >>> s) ↔
        s < 32 ∨ m.currentState.reg xn = 0)) ∧
    (0 < s → fetch m = lslWord xn xd s →
      (Yields (cycle u m) (fun m' => m'.currentState.reg xd = m.currentState.reg xn <<< s) ↔
        s ≤ 32 ∨ m.currentState.reg xn = 0)) :=
  ⟨lsrWord_yields hs, fun hpos => lslWord_yields hpos hs⟩

end Amount

/-- LSR X0, X0, #3 with X0 = 40. -/
theorem shift_iff_lsr : Yields (cycle .zeroed (withReg 0 40 (oneWord (lsrWord 0 0 3))))
    fun m' => m'.currentState.reg 0 = 5 := by
  have hf : fetch (withReg 0 40 (oneWord (lsrWord 0 0 3))) = lsrWord 0 0 3 :=
    (fetch_withReg 0 40 _).trans (fetch_oneWord _)
  have hx : (withReg 0 40 (oneWord (lsrWord 0 0 3))).currentState.reg 0 >>> 3 = 5 := by decide
  have hy := ((shift_iff .zeroed _ 0 0 3 (by decide)).1 hf).mpr (.inl (by decide))
  rwa [hx] at hy

/-- LSR X0, X0, #32 with X0 = 1. -/
theorem not_shift : ¬ ∀ (u : Indeterminate) (m : Machine) (xn xd : BitVec 5) (s : ℕ), s < 64 →
    xd ≠ 31 →
    (fetch m = lsrWord xn xd s →
      Yields (cycle u m) fun m' => m'.currentState.reg xd = m.currentState.reg xn >>> s) ∧
    (0 < s → fetch m = lslWord xn xd s →
      Yields (cycle u m) fun m' => m'.currentState.reg xd = m.currentState.reg xn <<< s) := by
  intro hall
  have hf : fetch (withReg 0 1 (oneWord (lsrWord 0 0 32))) = lsrWord 0 0 32 :=
    (fetch_withReg 0 1 _).trans (fetch_oneWord _)
  have hy := (hall .zeroed _ 0 0 32 (by decide) (by decide)).1 hf
  have hx : ¬ (32 < 32 ∨ (withReg 0 1 (oneWord (lsrWord 0 0 32))).currentState.reg 0 = 0) := by
    decide
  exact hx ((lsrWord_yields (by decide) hf).mp hy)

end ArmSim.Verify
