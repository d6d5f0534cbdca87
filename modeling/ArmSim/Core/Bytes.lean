import Mathlib.Data.BitVec
import Mathlib.Tactic.IntervalCases

/-! Bytes of machine words. Byte `i` of a word is its bits `8 * i` to `8 * i + 7`, so
byte 0 is the one a little-endian memory stores first. -/
namespace ArmSim.Bytes

/-- Byte `i` of `v`, counted from the least significant one; 0 beyond the width. -/
def byte {w : ℕ} (v : BitVec w) (i : ℕ) : BitVec 8 := v.extractLsb' (8 * i) 8

/-- The word whose bytes 3, 2, 1, 0 are given, written as shifts of promoted bytes. -/
def word (b₃ b₂ b₁ b₀ : BitVec 8) : BitVec 32 :=
  (b₃.setWidth 32 <<< 24) ||| (b₂.setWidth 32 <<< 16) ||| (b₁.setWidth 32 <<< 8) |||
    (b₀.setWidth 32 <<< 0)

theorem getLsbD_byte {w : ℕ} (v : BitVec w) (i j : ℕ) :
    (byte v i).getLsbD j = (decide (j < 8) && v.getLsbD (8 * i + j)) := by
  simp [byte, BitVec.getLsbD_extractLsb']

/-- Two words are equal as soon as the bytes inside their width are. -/
theorem eq_of_bytes {w n : ℕ} (hw : w = 8 * n) {u v : BitVec w}
    (h : ∀ i < n, byte u i = byte v i) : u = v := by
  apply BitVec.eq_of_getLsbD_eq
  intro k hk
  have hb := congrArg (fun b => b.getLsbD (k % 8)) (h (k / 8) (by omega))
  simpa only [getLsbD_byte, Nat.mod_lt k (by decide : 8 > 0), decide_true, Bool.true_and,
    Nat.div_add_mod] using hb

@[simp] theorem byte_zero {w : ℕ} (i : ℕ) : byte (0 : BitVec w) i = 0 := by
  apply BitVec.eq_of_getLsbD_eq
  intro k _
  simp [getLsbD_byte]

/-- Zero extension keeps the only byte and adds zero bytes. -/
theorem byte_setWidth {w : ℕ} (b : BitVec 8) {i : ℕ} (hi : 8 * (i + 1) ≤ w) :
    byte (b.setWidth w) i = if i = 0 then b else 0 := by
  apply BitVec.eq_of_getLsbD_eq
  intro k hk
  rw [getLsbD_byte, BitVec.getLsbD_setWidth, decide_eq_true hk, Bool.true_and,
    decide_eq_true (by omega), Bool.true_and]
  split
  · simp [*]
  · rw [BitVec.getLsbD_of_ge b _ (by omega)]
    simp

/-- The masked shift that a store uses for one byte. -/
theorem setWidth_shift_mask (v : BitVec 32) (i : ℕ) :
    ((v >>> (8 * i)) &&& 0xFF#32).setWidth 8 = byte v i := by
  apply BitVec.eq_of_getLsbD_eq
  intro k hk
  have hm : (0xFF#32).getLsbD k = true := by
    interval_cases k <;> rfl
  simp only [BitVec.getLsbD_setWidth, BitVec.getLsbD_and, BitVec.getLsbD_ushiftRight, hm,
    getLsbD_byte, Bool.and_true]

theorem byte_word (b₃ b₂ b₁ b₀ : BitVec 8) {i : ℕ} (hi : i < 4) :
    byte (word b₃ b₂ b₁ b₀) i = if i = 0 then b₀ else if i = 1 then b₁ else
      if i = 2 then b₂ else b₃ := by
  apply BitVec.eq_of_getLsbD_eq
  intro k hk
  rw [getLsbD_byte, word]
  interval_cases i <;> interval_cases k <;> simp

/-- Truncation keeps the bytes inside the width. -/
theorem byte_truncate {w n : ℕ} (v : BitVec w) {i : ℕ} (hi : 8 * (i + 1) ≤ n) :
    byte (v.setWidth n) i = byte v i := by
  apply BitVec.eq_of_getLsbD_eq
  intro k hk
  rw [getLsbD_byte, getLsbD_byte, BitVec.getLsbD_setWidth, decide_eq_true (by omega),
    decide_eq_true (by omega), Bool.true_and]

/-- The number with the bytes `b 0` to `b (k - 1)`, the least significant first. -/
def ofBytes (w : ℕ) (b : ℕ → BitVec 8) : ℕ → BitVec w
  | 0 => 0
  | k + 1 => ofBytes w b k ||| ((b k).setWidth w <<< (8 * k))

theorem byte_ofBytes {w : ℕ} (b : ℕ → BitVec 8) (k : ℕ) {j : ℕ} (hj : 8 * (j + 1) ≤ w) :
    byte (ofBytes w b k) j = if j < k then b j else 0 := by
  induction k with
  | zero => exact byte_zero j
  | succ k ih =>
    apply BitVec.eq_of_getLsbD_eq
    intro i hi
    have hlow := congrArg (fun x => x.getLsbD i) ih
    simp only [getLsbD_byte, decide_eq_true hi, Bool.true_and] at hlow
    rw [getLsbD_byte, decide_eq_true hi, Bool.true_and, ofBytes, BitVec.getLsbD_or, hlow,
      BitVec.getLsbD_shiftLeft, BitVec.getLsbD_setWidth, decide_eq_true (by omega)]
    rcases Nat.lt_trichotomy j k with h | rfl | h
    · rw [if_pos h, if_pos (by omega), decide_eq_true (by omega)]
      simp
    · rw [if_neg (by omega), if_pos (by omega), decide_eq_false (by omega),
        Nat.add_sub_cancel_left, decide_eq_true (by omega)]
      simp
    · rw [if_neg (by omega), if_neg (by omega), decide_eq_false (by omega),
        BitVec.getLsbD_of_ge (b k) _ (by omega)]
      simp

theorem ofBytes_eq_iff {n k : ℕ} (hk : k ≤ n) {b c : ℕ → BitVec 8} :
    ofBytes (8 * n) b k = ofBytes (8 * n) c k ↔ ∀ j < k, b j = c j := by
  constructor
  · intro h j hj
    have hbyte := congrArg (fun x => byte x j) h
    simpa only [byte_ofBytes b k (by omega : 8 * (j + 1) ≤ 8 * n),
      byte_ofBytes c k (by omega : 8 * (j + 1) ≤ 8 * n), if_pos hj] using hbyte
  · intro h
    apply eq_of_bytes rfl
    intro j hj
    rw [byte_ofBytes b k (by omega), byte_ofBytes c k (by omega)]
    split
    · exact h j ‹_›
    · rfl

end ArmSim.Bytes
