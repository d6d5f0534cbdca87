import ArmSim.Shell.Memory

/-! Transfers of several bytes at an address of one region, as they are meant: little-endian,
at the address itself and nowhere else. -/
namespace ArmSim.Spec
open Shell Bytes

/-- Byte `j` from the address `a` on. -/
def bytesAt (mem : Memory) (r : Region) (a : BitVec 64) (j : ℕ) : BitVec 8 :=
  mem r (r.offset (a + BitVec.ofNat 64 j))

/-- The memory after the low `k` bytes of `v` have been put at `a`. -/
def storeBytes (k : ℕ) (r : Region) (a v : BitVec 64) (mem : Memory) : Memory :=
  fun r' o => if r' = r ∧ (o - r.offset a).toNat < k then byte v (o - r.offset a).toNat
    else mem r' o

/-- The number in the `k` bytes at `a`. -/
def loadBytes (k : ℕ) (r : Region) (a : BitVec 64) (mem : Memory) : BitVec 64 :=
  ofBytes 64 (bytesAt mem r a) k

section Cells
variable (r : Region) (a : BitVec 64)

/-- The cell of byte `j` lies `j` behind that of byte 0. -/
theorem offset_sub {j : ℕ} (hj : j < 2 ^ 32) :
    (r.offset (a + BitVec.ofNat 64 j) - r.offset a).toNat = j := by
  rw [Region.offset_add, add_sub_cancel_left, BitVec.toNat_ofNat, Nat.mod_eq_of_lt hj]

theorem offset_eq_of_sub (o : BitVec 32) :
    r.offset (a + BitVec.ofNat 64 (o - r.offset a).toNat) = o := by
  rw [Region.offset_add, BitVec.ofNat_toNat, BitVec.setWidth_eq, add_sub_cancel]

theorem bytesAt_storeBytes {k j : ℕ} (hj : j < 2 ^ 32) (v : BitVec 64) (mem : Memory) :
    bytesAt (storeBytes k r a v mem) r a j = if j < k then byte v j else bytesAt mem r a j := by
  simp only [bytesAt, storeBytes, offset_sub r a hj, true_and]

/-- The cell of byte `j` lies `j - i` behind that of byte `i`. -/
theorem offset_sub_offset {i j : ℕ} (hi : i < 2 ^ 32) :
    (r.offset (a + BitVec.ofNat 64 j) - r.offset (a + BitVec.ofNat 64 i)).toNat =
      (j + 2 ^ 32 - i) % 2 ^ 32 := by
  rw [Region.offset_add, Region.offset_add, add_sub_add_left_eq_sub, BitVec.toNat_sub,
    BitVec.toNat_ofNat, BitVec.toNat_ofNat]
  omega

theorem bytesAt_storeBytes_add {i : ℕ} (hi : i < 2 ^ 32) (k j : ℕ) (v : BitVec 64)
    (mem : Memory) : bytesAt (storeBytes k r (a + BitVec.ofNat 64 i) v mem) r a j =
      if (j + 2 ^ 32 - i) % 2 ^ 32 < k then byte v ((j + 2 ^ 32 - i) % 2 ^ 32)
      else bytesAt mem r a j := by
  simp only [bytesAt, storeBytes, offset_sub_offset r a hi, true_and]

/-- Memories that differ in no byte of the region and nowhere else are equal. -/
theorem memory_ext {mem mem' : Memory} (hother : ∀ r' ≠ r, mem r' = mem' r')
    (hbytes : ∀ j < 2 ^ 32, bytesAt mem r a j = bytesAt mem' r a j) : mem = mem' := by
  funext r' o
  by_cases hr : r' = r
  · subst hr
    have hcell := hbytes _ (o - r'.offset a).isLt
    simpa only [bytesAt, offset_eq_of_sub] using hcell
  · rw [hother r' hr]

theorem storeBytes_other {k : ℕ} (v : BitVec 64) (mem : Memory) {r' : Region} (hr : r' ≠ r) :
    storeBytes k r a v mem r' = mem r' := by
  funext o
  exact if_neg fun h => hr h.1

/-- A longer store has the same effect as a shorter one if the further bytes are there. -/
theorem storeBytes_eq_iff {k l : ℕ} (hkl : k ≤ l) (hl : l ≤ 2 ^ 32) (v : BitVec 64)
    (mem : Memory) : storeBytes k r a v mem = storeBytes l r a v mem ↔
      ∀ j, k ≤ j → j < l → bytesAt mem r a j = byte v j := by
  constructor
  · intro h j hk hj
    have hcell := congrArg (fun mem => bytesAt mem r a j) h
    simpa only [bytesAt_storeBytes r a (by omega : j < 2 ^ 32), if_neg (not_lt.mpr hk),
      if_pos hj] using hcell
  · intro h
    apply memory_ext r a
    · intro r' hr
      rw [storeBytes_other r a v mem hr, storeBytes_other r a v mem hr]
    · intro j hj
      rw [bytesAt_storeBytes r a hj, bytesAt_storeBytes r a hj]
      rcases lt_or_ge j k with hk | hk
      · rw [if_pos hk, if_pos (by omega)]
      · rw [if_neg (by omega)]
        split
        · exact h j hk ‹_›
        · rfl

/-- A halfword stored one byte too low goes unnoticed exactly when its two bytes are equal and
the byte below and the byte above both hold that byte already. -/
theorem storeBytes_shift_iff (v : BitVec 64) (mem : Memory) :
    storeBytes 2 r a v mem = storeBytes 2 r (a + BitVec.ofNat 64 1) v mem ↔
      byte v 0 = byte v 1 ∧ bytesAt mem r a 0 = byte v 0 ∧ bytesAt mem r a 2 = byte v 1 := by
  have hlow {j : ℕ} (hj : j < 2 ^ 32) := bytesAt_storeBytes r a (k := 2) hj v mem
  have hhigh (j : ℕ) := bytesAt_storeBytes_add r a (i := 1) (by decide) 2 j v mem
  constructor
  · intro h
    have hcell {j : ℕ} (hj : j < 2 ^ 32) :=
      (hlow hj).symm.trans ((congrArg (fun mem => bytesAt mem r a j) h).trans (hhigh j))
    exact ⟨(hcell (j := 1) (by decide)).symm, (hcell (j := 0) (by decide)).symm,
      hcell (j := 2) (by decide)⟩
  · rintro ⟨heq, hbelow, habove⟩
    apply memory_ext r a
    · intro r' hr
      rw [storeBytes_other r _ v mem hr, storeBytes_other r _ v mem hr]
    · intro j hj
      rw [hlow hj, hhigh]
      rcases (by omega : j = 0 ∨ j = 1 ∨ j = 2 ∨ 2 < j) with rfl | rfl | rfl | hlarge
      · exact hbelow.symm
      · exact heq.symm
      · exact habove
      · rw [if_neg (by omega), if_neg (by omega)]

end Cells

end ArmSim.Spec
