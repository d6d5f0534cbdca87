import ArmSim.Verify.Faithful

/-! Which effective addresses a load or store takes at their word: the arithmetic of narrowing
an address to 32 bits and rounding it down, against the bounds of the regions. -/
namespace ArmSim.Verify
open Shell Sim Spec Bytes

/-- The addresses that an access takes at their word. STUR passes all 64 bits on. The others
narrow the address to 32 bits, round it down to a word, and in the case of LDUR go on to the
next word within 32 bits. -/
def NoAlias (n : Name) (a : BitVec 64) : Prop :=
  n = .stur ∨
    (a.toNat < 2 ^ 32 ∧ (Mapped a → match n with
      | .sturh => a.toNat % 2 = 0
      | .ldur => a.toNat % 4 = 0 ∧ a.toNat ≠ 0xFFFFFFFC
      | _ => True)) ∨
    (2 ^ 32 ≤ a.toNat ∧ ¬ Mapped (narrowed a) ∧ (n = .ldur → ¬ Mapped (highWord a)) ∧
      ¬ ∃ r, Inside r a (accessWidth n))

theorem add_eq_add_iff {x a : BitVec 64} {q i : ℕ} :
    x + BitVec.ofNat 64 q = a + BitVec.ofNat 64 i ↔
      (x.toNat + q) % 2 ^ 64 = (a.toNat + i) % 2 ^ 64 := by
  rw [← BitVec.toNat_inj]
  simp only [BitVec.toNat_add, BitVec.toNat_ofNat]
  omega

theorem toNat_highWord (a : BitVec 64) :
    (highWord a).toNat = (a.toNat % 2 ^ 32 / 4 * 4 + 4) % 2 ^ 32 := by
  have h4 : (4 : BitVec 32).toNat = 4 := rfl
  have := (alignedAddress a + 4).isLt
  rw [highWord, BitVec.toNat_setWidth, Nat.mod_eq_of_lt (by omega), BitVec.toNat_add,
    toNat_alignedAddress, h4]

theorem Inside.contains {r : Region} {a : BitVec 64} {k : ℕ} (h : Inside r a k) (hk : 0 < k) :
    r.contains a = true := by
  simpa using h 0 hk

theorem Unmapped.not_mapped {a : BitVec 64} {k : ℕ} (h : Unmapped a k) (hk : 0 < k) :
    ¬ Mapped a := by
  simpa using h 0 hk

/-- Below 2 ^ 32 the word of an address is in the same region. -/
theorem contains_narrowed {a : BitVec 64} (ha : a.toNat < 2 ^ 32) (r : Region) :
    r.contains (narrowed a) = r.contains a := by
  have hb := r.bounds
  rw [Bool.eq_iff_iff, Region.contains_iff, Region.contains_iff, toNat_narrowed]
  omega

theorem mapped_narrowed {a : BitVec 64} (ha : a.toNat < 2 ^ 32) :
    Mapped (narrowed a) ↔ Mapped a := by
  simp only [Mapped, contains_narrowed ha]

/-- An access that narrows an address past 2 ^ 32 cannot be one of its own bytes. -/
theorem not_covered_of_large {a x : BitVec 64} (ha : 2 ^ 32 ≤ a.toNat) (hx : Mapped x)
    {q i : ℕ} (hxq : x.toNat + q < 2 ^ 32) (hi : i < 8) :
    x + BitVec.ofNat 64 q ≠ a + BitVec.ofNat 64 i := by
  obtain ⟨r, hr⟩ := hx
  have hb := r.bounds
  have := a.isLt
  rw [Region.contains_iff] at hr
  rw [ne_eq, add_eq_add_iff]
  omega

theorem transfer_narrowed {n : Name} (hn : n ∈ loadsAndStores) (hstur : n ≠ .stur)
    (a : BitVec 64) : (transfer n a 0).1 = narrowed a := by
  cases n <;> first | (exact absurd hn (by decide)) | (exact absurd rfl hstur) | rfl

/-- The eight bytes from 0xFFFFFFFC on are in the stack region, but LDUR takes the upper four
from address 0. -/
theorem not_faithful_wrap {a : BitVec 64} (ha : a.toNat = 0xFFFFFFFC) :
    ¬ Faithful .ldur a 4 := by
  intro h
  have hs := Region.toNat_stack
  have hI : Inside .stack a (accessWidth .ldur) := by
    intro j hj
    simp only [accessWidth] at hj
    have hadd : (a + BitVec.ofNat 64 j).toNat = a.toNat + j := by
      rw [BitVec.toNat_add, BitVec.toNat_ofNat]
      omega
    rw [Region.contains_iff, hadd, hs.1, hs.2]
    omega
  have hr : Region.stack.contains (highWord a) = true := (h.inside .stack hI).1
  rw [Region.contains_iff, toNat_highWord, ha, hs.1] at hr
  exact absurd hr.1 (by decide)

section OfFaithful
variable {n : Name} (hn : n ∈ loadsAndStores) (hstur : n ≠ .stur) {a : BitVec 64}
  (h : ∀ j < accessWidth n, Faithful n a j)
include hn hstur h

/-- Below 2 ^ 32 the mapped accesses have to be aligned, as far as they are rounded down. -/
theorem aligned_of_faithful (ha : a.toNat < 2 ^ 32) (hm : Mapped a) : match n with
    | .sturh => a.toNat % 2 = 0
    | .ldur => a.toNat % 4 = 0 ∧ a.toNat ≠ 0xFFFFFFFC
    | _ => True := by
  have hword := transfer_narrowed hn hstur a
  obtain ⟨i, hi, heq⟩ :=
    (h 0 (accessWidth_pos hn)).covered (hword ▸ (mapped_narrowed ha).mpr hm)
  rw [hword, add_eq_add_iff, toNat_narrowed] at heq
  cases n with
  | sturh =>
    simp only [transfer, storeLane, accessWidth] at heq hi ⊢
    omega
  | ldur =>
    refine ⟨?_, fun htop => not_faithful_wrap htop (h 4 (by decide))⟩
    simp only [transfer, accessWidth, Nat.reduceLT, if_true] at heq hi
    omega
  | _ => trivial

/-- From 2 ^ 32 on the words that the narrowed address leads to have to be unmapped. -/
theorem unmapped_of_faithful (ha : 2 ^ 32 ≤ a.toNat) : ¬ Mapped (narrowed a) ∧
    (n = .ldur → ¬ Mapped (highWord a)) ∧ ¬ ∃ r, Inside r a (accessWidth n) := by
  have hpos := accessWidth_pos hn
  have hword := transfer_narrowed hn hstur a
  have hq := transfer_lt hn a hpos
  have hwidth : accessWidth n ≤ 8 := by cases n <;> decide
  have hnarrow : ¬ Mapped (narrowed a) := by
    intro hx
    obtain ⟨i, hi, heq⟩ := (h 0 hpos).covered (hword ▸ hx)
    rw [hword] at heq
    have hN := toNat_narrowed a
    exact not_covered_of_large ha hx (by omega) (by omega) heq
  refine ⟨hnarrow, ?_, ?_⟩
  · rintro rfl hx
    obtain ⟨i, hi, heq⟩ := (h 4 (by decide)).covered hx
    have hH := toNat_highWord a
    exact not_covered_of_large (x := highWord a) (q := 0) ha hx (by omega) hi heq
  · rintro ⟨r, hI⟩
    exact hnarrow ⟨r, hword ▸ ((h 0 hpos).inside r hI).1⟩

end OfFaithful

theorem noAlias_of_faithful {n : Name} (hn : n ∈ loadsAndStores) {a : BitVec 64}
    (h : ∀ j < accessWidth n, Faithful n a j) : NoAlias n a := by
  by_cases hstur : n = .stur
  · exact .inl hstur
  rcases Nat.lt_or_ge a.toNat (2 ^ 32) with ha | ha
  · exact .inr (.inl ⟨ha, aligned_of_faithful hn hstur h ha⟩)
  · exact .inr (.inr ⟨ha, unmapped_of_faithful hn hstur h ha⟩)

theorem faithful_stur (a : BitVec 64) {j : ℕ} (hj : j < accessWidth .stur) :
    Faithful .stur a j := by
  have hplace : a + BitVec.ofNat 64 (0 + j) = a + BitVec.ofNat 64 j := by rw [Nat.zero_add]
  exact ⟨fun _ => ⟨j, hj, hplace⟩, fun hU => hU.not_mapped (by decide),
    fun r hI => ⟨hI.contains (by decide), hplace⟩⟩

/-- The second word of LDUR, for an address below 2 ^ 32 that is aligned or unmapped. -/
theorem faithful_highWord {a : BitVec 64} (ha : a.toNat < 2 ^ 32)
    (hm : Mapped a → a.toNat % 4 = 0 ∧ a.toNat ≠ 0xFFFFFFFC) {j : ℕ} (hj4 : 4 ≤ j)
    (hj : j < 8) : Faithful .ldur a j := by
  have ht : transfer .ldur a j = (highWord a, j - 4) := if_neg (by omega)
  have hH := toNat_highWord a
  -- a mapped second word starts among the bytes 1 to 4 of the access
  have hstart : Mapped (highWord a) → highWord a = a + BitVec.ofNat 64 (4 - a.toNat % 4) := by
    rintro ⟨r, hr⟩
    have hb := r.bounds
    rw [Region.contains_iff] at hr
    apply BitVec.eq_of_toNat_eq
    rw [BitVec.toNat_add, BitVec.toNat_ofNat]
    omega
  constructor
  · rw [ht]
    intro hx
    refine ⟨4 - a.toNat % 4 + (j - 4), by simp only [accessWidth]; omega, ?_⟩
    dsimp only
    rw [hstart hx, add_assoc, ← BitVec.ofNat_add]
  · rw [ht]
    intro hU hx
    exact hU (4 - a.toNat % 4) (by simp only [accessWidth]; omega) (hstart hx ▸ hx)
  · rw [ht]
    intro r hI
    obtain ⟨hal, htop⟩ := hm ⟨r, hI.contains (by decide)⟩
    have heq : highWord a = a + BitVec.ofNat 64 4 := by
      apply BitVec.eq_of_toNat_eq
      rw [BitVec.toNat_add, BitVec.toNat_ofNat]
      omega
    refine ⟨heq ▸ hI 4 (by decide), ?_⟩
    dsimp only
    rw [heq, add_assoc, ← BitVec.ofNat_add, Nat.add_sub_cancel' hj4]

/-- The word of the address itself, which all but STUR use. -/
theorem faithful_narrowed {n : Name} {a : BitVec 64} (ha : a.toNat < 2 ^ 32) {j : ℕ}
    (hj : j < accessWidth n) (hword : (transfer n a j).1 = narrowed a)
    (hplace : Mapped a → (narrowed a).toNat + (transfer n a j).2 = a.toNat + j) :
    Faithful n a j := by
  have heq : Mapped a →
      narrowed a + BitVec.ofNat 64 (transfer n a j).2 = a + BitVec.ofNat 64 j :=
    fun hx => add_eq_add_iff.mpr (by rw [hplace hx])
  rw [← mapped_narrowed ha] at heq
  have hpos : 0 < accessWidth n := by omega
  refine ⟨fun hx => ⟨j, hj, ?_⟩, fun hU => ?_, fun r hI => ?_⟩
  · rw [hword] at hx ⊢
    exact heq hx
  · rw [hword, mapped_narrowed ha]
    exact hU.not_mapped hpos
  · have hr := hI.contains hpos
    rw [hword, contains_narrowed ha]
    exact ⟨hr, heq ((mapped_narrowed ha).mpr ⟨r, hr⟩)⟩

theorem faithful_of_noAlias {n : Name} (hn : n ∈ loadsAndStores) {a : BitVec 64}
    (h : NoAlias n a) : ∀ j < accessWidth n, Faithful n a j := by
  intro j hj
  have hN := toNat_narrowed a
  rcases h with rfl | ⟨ha, hm⟩ | ⟨ha, hnarrow, hhigh, hno⟩
  · exact faithful_stur a hj
  · cases n with
    | stur => exact faithful_stur a hj
    | sturh | sturb | ldurb =>
      refine faithful_narrowed ha hj rfl fun ham => ?_
      have hal := hm ham
      simp only [transfer, storeLane, accessWidth] at hj hal ⊢
      omega
    | ldur =>
      by_cases hj4 : j < 4
      · have ht : transfer .ldur a j = (narrowed a, j) := if_pos hj4
        refine faithful_narrowed ha hj (by rw [ht]) fun ham => ?_
        have hal := (hm ham).1
        rw [ht]
        dsimp only
        omega
      · exact faithful_highWord ha hm (by omega) hj
    | _ => exact absurd hn (by decide)
  · by_cases hstur : n = .stur
    · subst hstur
      exact faithful_stur a hj
    have hx : ¬ Mapped (transfer n a j).1 := by
      cases n with
      | sturh | sturb | ldurb => exact hnarrow
      | ldur =>
        simp only [transfer]
        split_ifs
        · exact hnarrow
        · exact hhigh rfl
      | stur => exact absurd rfl hstur
      | _ => exact absurd hn (by decide)
    exact ⟨fun hxm => absurd hxm hx, fun _ => hx, fun r hI => absurd ⟨r, hI⟩ hno⟩

/-- The loads and stores are free of aliasing exactly at these addresses. -/
theorem aliasFree_iff {n : Name} (hn : n ∈ loadsAndStores) (a : BitVec 64) :
    AliasFree n a ↔ NoAlias n a :=
  (aliasFree_iff_faithful hn).trans ⟨noAlias_of_faithful hn, faithful_of_noAlias hn⟩

/-- STURB anywhere below 2 ^ 32. -/
theorem aliasFree_sturb : AliasFree .sturb 0x10000003 :=
  (aliasFree_iff (by decide) _).mpr (.inr (.inl ⟨by decide, fun _ => trivial⟩))

/-- STURB at 2 ^ 32 + 0x400000 writes to the start of the text region. -/
theorem not_aliasFree : ¬ ∀ n ∈ loadsAndStores, ∀ a, AliasFree n a := by
  intro hall
  have hf := (hall .sturb (by decide) 0x100400000).faithful (by decide) (j := 0) (by decide)
  obtain ⟨i, hi, heq⟩ := hf.covered ⟨.text, by decide⟩
  have hi0 : i = 0 := by
    simp only [accessWidth] at hi
    omega
  subst hi0
  exact absurd heq (by decide)

end ArmSim.Verify
