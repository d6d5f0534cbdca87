import Mathlib.Data.BitVec
import Mathlib.Data.Int.ModEq
import Mathlib.Tactic.Common
import Mathlib.Tactic.Ring

/-! The loop `for (a = start; a <= stop; a += d)` over a signed counter that wraps. With a step
that divides the range, the values of the counter stay in one residue class; the loop ends
exactly when `stop` is below the largest value of that class. -/
namespace ArmSim.SignedLoop

universe u

variable {β : Type u} {w d : ℕ}

/-- What `body` gives in each round, for at most `fuel` tests of the condition. -/
def forLe (d : ℕ) (body : BitVec w → β) (stop : BitVec w) : ℕ → BitVec w → Option (List β)
  | 0, _ => none
  | fuel + 1, a =>
    if a.sle stop then (forLe d body stop fuel (a + BitVec.ofNat w d)).map (body a :: ·)
    else some []

/-- How many of `start`, `start + d`, … are at most `stop`, as integers. -/
def rounds (d : ℕ) (start stop : BitVec w) : ℕ := ((stop.toInt - start.toInt + d) / d).toNat

/-- `start`, `start + d`, … up to `stop`. -/
def values (d : ℕ) (start stop : BitVec w) : List (BitVec w) :=
  (List.range (rounds d start stop)).map fun k => start + BitVec.ofNat w (d * k)

/-- The largest value that a counter from `a` on can take. -/
def last (d : ℕ) (a : BitVec w) : ℤ := 2 ^ (w - 1) - d + a.toInt % d

theorem forLe_unique {body : BitVec w → β} {stop : BitVec w} {m n : ℕ} {a : BitVec w}
    {l l' : List β} (hm : forLe d body stop m a = some l) (hn : forLe d body stop n a = some l') :
    l = l' := by
  induction m generalizing n a l l' with
  | zero => exact absurd hm (Option.some_ne_none l).symm
  | succ m ih =>
    cases n with
    | zero => exact absurd hn (Option.some_ne_none l').symm
    | succ n =>
      unfold forLe at hm hn
      split_ifs at hm hn with hle
      · obtain ⟨t, ht, rfl⟩ := Option.map_eq_some_iff.mp hm
        obtain ⟨t', ht', rfl⟩ := Option.map_eq_some_iff.mp hn
        rw [ih ht ht']
      · exact Option.some.inj (hm.symm.trans hn)

theorem forLe_mono {body : BitVec w → β} {stop : BitVec w} {m n : ℕ} {a : BitVec w}
    (h : forLe d body stop m a ≠ none) (hmn : m ≤ n) :
    forLe d body stop n a = forLe d body stop m a := by
  induction m generalizing n a with
  | zero => exact absurd rfl h
  | succ m ih =>
    obtain ⟨n, rfl⟩ : ∃ k, n = k + 1 := ⟨n - 1, by omega⟩
    unfold forLe at h ⊢
    split_ifs at h ⊢
    · rw [ih (fun hnone => h (by rw [hnone]; rfl)) (by omega)]
    · rfl

section Values
variable {start stop : BitVec w}

theorem lt_rounds_iff (hd : 0 < d) {k : ℕ} :
    k < rounds d start stop ↔ start.toInt + (d * k : ℕ) ≤ stop.toInt := by
  have hd' : (0 : ℤ) < d := Int.natCast_pos.mpr hd
  have hsucc : ((k : ℤ) + 1) * d = d * k + d := by ring
  rw [rounds, Int.lt_toNat, Int.lt_iff_add_one_le, Int.le_ediv_iff_mul_le hd', hsucc,
    Int.natCast_mul]
  omega

/-- As long as nothing overflows, the counter is the integer. -/
theorem toInt_add_ofNat (hw : 0 < w) {n : ℕ} (h : start.toInt + n < 2 ^ (w - 1)) :
    (start + BitVec.ofNat w n).toInt = start.toInt + n := by
  have hsum : start + BitVec.ofNat w n = BitVec.ofInt w (start.toInt + n) := by
    rw [BitVec.ofInt_add, BitVec.ofInt_toInt, BitVec.ofInt_natCast]
  have hlow := start.le_toInt
  rw [hsum, BitVec.toInt_ofInt_eq_self hw (by omega) h]

theorem values_of_lt (hd : 0 < d) (h : stop.toInt < start.toInt) : values d start stop = [] := by
  have hnone : rounds d start stop = 0 := by
    apply Nat.eq_zero_of_not_pos
    rw [lt_rounds_iff hd]
    omega
  rw [values, hnone]
  rfl

theorem values_of_le (hw : 0 < w) (hd : 0 < d) (h : start.toInt ≤ stop.toInt)
    (hroom : start.toInt + d < 2 ^ (w - 1)) :
    values d start stop = start :: values d (start + BitVec.ofNat w d) stop := by
  have hd' : (0 : ℤ) < d := Int.natCast_pos.mpr hd
  have hsucc : rounds d start stop = rounds d (start + BitVec.ofNat w d) stop + 1 := by
    have hnonneg : 0 ≤ (stop.toInt - start.toInt) / d := Int.ediv_nonneg (by omega) hd'.le
    unfold rounds
    rw [toInt_add_ofNat hw hroom, ← sub_sub, sub_add_cancel,
      Int.add_ediv_of_dvd_right (dvd_refl (d : ℤ)), Int.ediv_self hd'.ne']
    omega
  have hshift (k : ℕ) : start + BitVec.ofNat w (d * k.succ) =
      start + BitVec.ofNat w d + BitVec.ofNat w (d * k) := by
    rw [Nat.mul_succ, Nat.add_comm, BitVec.ofNat_add, BitVec.add_assoc]
  unfold values
  rw [hsucc, List.range_succ_eq_map, List.map_cons, List.map_map, Nat.mul_zero]
  congr 1
  · exact BitVec.add_zero start
  · exact List.map_congr_left fun k _ => hshift k

/-- The values are the integers of one class between `start` and `stop`. -/
theorem mem_values_iff (hw : 0 < w) (hd : 0 < d) {a : BitVec w} : a ∈ values d start stop ↔
    start.toInt ≤ a.toInt ∧ a.toInt ≤ stop.toInt ∧ a.toInt % d = start.toInt % d := by
  have hlt := BitVec.toInt_lt (x := stop)
  have hval {k : ℕ} (hk : start.toInt + (d * k : ℕ) ≤ stop.toInt) :
      (start + BitVec.ofNat w (d * k)).toInt = start.toInt + (d * k : ℕ) :=
    toInt_add_ofNat hw (by omega)
  simp only [values, List.mem_map, List.mem_range, lt_rounds_iff hd]
  constructor
  · rintro ⟨k, hk, rfl⟩
    rw [hval hk]
    refine ⟨by omega, hk, ?_⟩
    rw [Int.natCast_mul, Int.add_mul_emod_self_left]
  · rintro ⟨hlo, hhi, hmod⟩
    obtain ⟨q, hq⟩ : (d : ℤ) ∣ a.toInt - start.toInt := Int.ModEq.dvd hmod.symm
    have hq0 : 0 ≤ q := by
      apply Int.le_of_mul_le_mul_left _ (Int.natCast_pos.mpr hd)
      rw [← hq, Int.mul_zero]
      omega
    obtain ⟨k, rfl⟩ := Int.eq_ofNat_of_zero_le hq0
    have hk : start.toInt + (d * k : ℕ) = a.toInt := by
      rw [Int.natCast_mul]
      omega
    exact ⟨k, by omega, BitVec.eq_of_toInt_eq ((hval (by omega)).trans hk)⟩

end Values

section Residue

/-- Two integers of one class are at least `d` apart. -/
theorem add_le_of_emod_eq {x y : ℤ} (h : x % d = y % d) (hlt : x < y) : x + d ≤ y := by
  have hdvd : (d : ℤ) ∣ y - x := Int.ModEq.dvd h
  have hle := Int.le_of_dvd (by omega) hdvd
  omega

theorem last_lt (hd : 0 < d) (a : BitVec w) : last d a < 2 ^ (w - 1) := by
  have hlt := Int.emod_lt_of_pos a.toInt (Int.natCast_pos.mpr hd)
  unfold last
  omega

variable (hdvd : (d : ℤ) ∣ 2 ^ (w - 1))
include hdvd

theorem toInt_add_emod (a : BitVec w) (n : ℕ) :
    (a + BitVec.ofNat w n).toInt % d = (a.toInt + n) % d := by
  have hpow : (d : ℤ) ∣ ((2 ^ w : ℕ) : ℤ) := by
    rw [Int.natCast_pow]
    exact hdvd.trans (pow_dvd_pow 2 (Nat.sub_le w 1))
  have hsum : a + BitVec.ofNat w n = BitVec.ofInt w (a.toInt + n) := by
    rw [BitVec.ofInt_add, BitVec.ofInt_toInt, BitVec.ofInt_natCast]
  rw [hsum, BitVec.toInt_ofInt, ← Int.emod_emod_of_dvd _ hpow, Int.bmod_emod,
    Int.emod_emod_of_dvd _ hpow]

theorem last_add (a : BitVec w) : last d (a + BitVec.ofNat w d) = last d a := by
  rw [last, last, toInt_add_emod hdvd, Int.add_emod_right]

theorem last_emod (a : BitVec w) : last d a % d = a.toInt % d := by
  have hdvd' : (d : ℤ) ∣ 2 ^ (w - 1) - d := Int.dvd_sub hdvd (Int.dvd_refl d)
  rw [last, Int.add_emod, Int.emod_eq_zero_of_dvd hdvd', Int.emod_emod, Int.zero_add,
    Int.emod_emod]

theorem toInt_le_last (hd : 0 < d) (a : BitVec w) : a.toInt ≤ last d a := by
  by_contra hgt
  have hgap := add_le_of_emod_eq (last_emod hdvd a) (not_le.mp hgt)
  have hlt := BitVec.toInt_lt (x := a)
  have hpos := Int.emod_nonneg a.toInt (Int.natCast_pos.mpr hd).ne'
  rw [last] at hgap
  omega

end Residue

section Termination
variable (hd : 0 < d) (hdvd : (d : ℤ) ∣ 2 ^ (w - 1)) {body : BitVec w → β} {stop : BitVec w}
include hd hdvd

/-- No value of the counter is above `stop`. -/
theorem forLe_eq_none {a : BitVec w} (h : last d a ≤ stop.toInt) (fuel : ℕ) :
    forLe d body stop fuel a = none := by
  induction fuel generalizing a with
  | zero => rfl
  | succ fuel ih =>
    have hle : a.sle stop = true :=
      BitVec.sle_iff_toInt_le.mpr ((toInt_le_last hdvd hd a).trans h)
    unfold forLe
    rw [if_pos hle, ih (by rwa [last_add hdvd])]
    rfl

theorem add_lt_of_lt_last {a : BitVec w} (h : stop.toInt < last d a)
    (hle : a.toInt ≤ stop.toInt) : a.toInt + d < 2 ^ (w - 1) := by
  have hgap := add_le_of_emod_eq (last_emod hdvd a).symm (lt_of_le_of_lt hle h)
  exact lt_of_le_of_lt hgap (last_lt hd a)

variable (hw : 0 < w)
include hw

theorem forLe_eq_some {a : BitVec w} (h : stop.toInt < last d a) :
    forLe d body stop ((values d a stop).length + 1) a = some ((values d a stop).map body) := by
  generalize hn : (values d a stop).length = n
  induction n generalizing a with
  | zero =>
    have hnil := List.eq_nil_of_length_eq_zero hn
    have hle : ¬ a.sle stop = true := by
      intro hle
      have hle' := BitVec.sle_iff_toInt_le.mp hle
      rw [values_of_le hw hd hle' (add_lt_of_lt_last hd hdvd h hle')] at hnil
      exact List.cons_ne_nil _ _ hnil
    rw [hnil, forLe, if_neg hle]
    rfl
  | succ n ih =>
    have hle' : a.toInt ≤ stop.toInt := by
      by_contra hgt
      rw [values_of_lt hd (not_le.mp hgt)] at hn
      exact absurd hn (Nat.succ_ne_zero n).symm
    have hcons := values_of_le hw hd hle' (add_lt_of_lt_last hd hdvd h hle')
    rw [hcons, List.length_cons, Nat.succ_inj] at hn
    rw [forLe, if_pos (BitVec.sle_iff_toInt_le.mpr hle'), ih (by rwa [last_add hdvd]) hn, hcons]
    rfl

/-- The loop ends with `l` exactly if `stop` is below the last value, and `l` is then what
`body` gives for the values up to `stop`. -/
theorem exists_forLe_iff {a : BitVec w} {l : List β} :
    (∃ fuel, forLe d body stop fuel a = some l) ↔
      stop.toInt < last d a ∧ l = (values d a stop).map body := by
  constructor
  · rintro ⟨fuel, hl⟩
    have hlt : stop.toInt < last d a := by
      by_contra hge
      rw [forLe_eq_none hd hdvd (not_lt.mp hge)] at hl
      exact Option.some_ne_none l hl.symm
    exact ⟨hlt, forLe_unique hl (forLe_eq_some hd hdvd hw hlt)⟩
  · rintro ⟨hlt, rfl⟩
    exact ⟨_, forLe_eq_some hd hdvd hw hlt⟩

end Termination

end ArmSim.SignedLoop
