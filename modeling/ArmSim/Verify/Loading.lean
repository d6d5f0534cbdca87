import ArmSim.Core.Overlay
import ArmSim.Verify.Session

/-! Program loading. Seen through its aligned words, the memory after `initialize` is zero
overlaid by the program files, each from the start of the text on. -/
namespace ArmSim.Verify
open Shell Bytes Overlay

/-- The aligned addresses. -/
abbrev AlignedAddress := { a : BitVec 64 // a % 4 = 0 }

theorem AlignedAddress.toNat_mod (a : AlignedAddress) : a.1.toNat % 4 = 0 := by
  have ha := congrArg BitVec.toNat a.2
  rwa [BitVec.toNat_umod] at ha

/-- The memory as the words at aligned addresses. -/
def alignedWords (mem : Memory) (a : AlignedAddress) : BitVec 32 := memRead32 mem a.1

theorem alignedWords_memWrite32 {a : AlignedAddress} (ha : findRegion a.1 ≠ none) (mem : Memory)
    (v : BitVec 32) : alignedWords (memWrite32 mem a.1 v) =
      overlay (fun b => if b = a then some v else none) (alignedWords mem) := by
  obtain ⟨r, hr⟩ := Option.ne_none_iff_exists'.mp ha
  funext b
  by_cases hab : b = a
  · subst hab
    rw [overlay, if_pos rfl]
    exact memRead32_memWrite32_self (findRegion_eq_some.mp hr) mem v
  · have hne : b.1.toNat ≠ a.1.toNat := fun h => hab (Subtype.ext (BitVec.eq_of_toNat_eq h))
    have hmod := a.toNat_mod
    have hmod' := b.toNat_mod
    rw [overlay, if_neg hab]
    exact memRead32_memWrite32_of_apart mem v (by omega)

/-- Memory that was only set to zero: a region ends with a whole word. -/
theorem alignedWords_initMemory (slack : Memory) :
    alignedWords (initMemory slack) = fun _ => 0 := by
  funext a
  cases hf : findRegion a.1 with
  | none => exact memRead32_of_unmapped hf _
  | some r =>
    have hr := findRegion_eq_some.mp hf
    have hmod := a.toNat_mod
    have hb := r.bounds
    have hsize := r.size_le
    obtain ⟨haddr, hlt⟩ := Region.offset_of_contains hr
    refine eq_of_bytes (n := 4) rfl fun i hi => ?_
    have hcell : (r.offset a.1 + BitVec.ofNat 32 i).toNat < r.size.toNat := by
      rw [BitVec.toNat_add, BitVec.toNat_ofNat]
      omega
    exact (byte_memRead32 hr _ hi).trans ((if_pos hcell).trans (byte_zero i).symm)

section Text

/-- The address of word `k` of the text. -/
def textWord (k : ℕ) : BitVec 64 := memTextStart + BitVec.ofNat 64 (4 * k)

theorem toNat_textWord {k : ℕ} (hk : k < 0x40000) : (textWord k).toNat = 0x400000 + 4 * k := by
  have hstart : memTextStart.toNat = 0x400000 := Region.toNat_text.1
  rw [textWord, BitVec.toNat_add, BitVec.toNat_ofNat, hstart]
  omega

theorem textWord_aligned (k : ℕ) : textWord k % 4 = 0 := by
  have hstart : memTextStart.toNat = 0x400000 := Region.toNat_text.1
  apply BitVec.eq_of_toNat_eq
  rw [BitVec.toNat_umod, textWord, BitVec.toNat_add, BitVec.toNat_ofNat, hstart]
  change _ % 4 = 0
  omega

theorem findRegion_textWord {k : ℕ} (hk : k < 0x40000) : findRegion (textWord k) = some .text := by
  rw [findRegion_eq_some, Region.contains_iff, toNat_textWord hk, Region.toNat_text.1,
    Region.toNat_text.2]
  omega

/-- The `int` sum that `load_program` passes on as an address. -/
theorem loadAddress_eq {k : ℕ} (hk : k < 0x40000) :
    (memTextStart.setWidth 32 + BitVec.ofNat 32 (4 * k)).signExtend 64 = textWord k := by
  have hsum : (memTextStart.setWidth 32 + BitVec.ofNat 32 (4 * k)).toNat = 0x400000 + 4 * k := by
    have hstart : (memTextStart.setWidth 32).toNat = 0x400000 := rfl
    rw [BitVec.toNat_add, BitVec.toNat_ofNat, hstart]
    omega
  have hpos : (memTextStart.setWidth 32 + BitVec.ofNat 32 (4 * k)).msb = false := by
    rw [BitVec.msb_eq_decide, hsum]
    exact decide_eq_false (by omega)
  apply BitVec.eq_of_toNat_eq
  rw [BitVec.signExtend_eq_setWidth_of_msb_false hpos, BitVec.toNat_setWidth, hsum,
    toNat_textWord hk]
  omega

/-- The position of an aligned address behind the start of the text; huge below it. -/
def wordIndex (a : AlignedAddress) : ℕ := (a.1 - memTextStart).toNat / 4

theorem wordIndex_eq_iff (a : AlignedAddress) {k : ℕ} (hk : k < 0x40000) :
    wordIndex a = k ↔ a.1 = textWord k := by
  have hstart : memTextStart.toNat = 0x400000 := Region.toNat_text.1
  have hmod := a.toNat_mod
  have hlt := a.1.isLt
  rw [← BitVec.toNat_inj, toNat_textWord hk, wordIndex, BitVec.toNat_sub, hstart]
  omega

/-- The words `words` as an update of the text from word `k` on. -/
def textImage (k : ℕ) (words : List (BitVec 32)) (a : AlignedAddress) : Option (BitVec 32) :=
  if k ≤ wordIndex a then words[wordIndex a - k]? else none

theorem textImage_cons (k : ℕ) (w : BitVec 32) (words : List (BitVec 32)) :
    textImage k (w :: words) = fun a => (textImage (k + 1) words a).or
      (if wordIndex a = k then some w else none) := by
  funext a
  unfold textImage
  rcases Nat.lt_trichotomy (wordIndex a) k with hlt | heq | hgt
  · rw [if_neg (by omega), if_neg (by omega), if_neg (by omega)]
    rfl
  · rw [if_pos (by omega), if_neg (by omega), if_pos heq, heq, Nat.sub_self]
    rfl
  · have hsub : wordIndex a - k = wordIndex a - (k + 1) + 1 := by omega
    rw [if_pos (by omega), if_pos (by omega), if_neg (by omega), hsub, Option.or_none]
    rfl

/-- The loop of `load_program` from word `k` on. -/
theorem alignedWords_loadWords (words : List (BitVec 32)) (k : ℕ)
    (hlen : k + words.length ≤ 0x40000) (mem : Memory) :
    alignedWords (loadWords (BitVec.ofNat 32 (4 * k)) words mem) =
      overlay (textImage k words) (alignedWords mem) := by
  induction words generalizing k mem with
  | nil =>
    have hnone : textImage k [] = fun _ => none := by
      funext a
      exact ite_self none
    rw [hnone, overlay_none]
    rfl
  | cons w words ih =>
    rw [List.length_cons] at hlen
    have hk : k < 0x40000 := by omega
    have hnext : BitVec.ofNat 32 (4 * k) + 4 = BitVec.ofNat 32 (4 * (k + 1)) := by
      rw [Nat.mul_succ, BitVec.ofNat_add]
      rfl
    have hmapped : findRegion (textWord k) ≠ none := by
      rw [findRegion_textWord hk]
      exact Option.some_ne_none _
    have hwrite := alignedWords_memWrite32 (a := ⟨textWord k, textWord_aligned k⟩) hmapped mem w
    have hat : ∀ a : AlignedAddress, a = ⟨textWord k, textWord_aligned k⟩ ↔ wordIndex a = k :=
      fun a => Subtype.ext_iff.trans (wordIndex_eq_iff a hk).symm
    simp only [hat] at hwrite
    rw [loadWords, hnext, loadAddress_eq hk, ih (k + 1) (by omega), hwrite, overlay_overlay,
      textImage_cons]

end Text

section Programs

/-- Word `i` of the last file that has more than `i` words. -/
def lastWord (programs : List (List (BitVec 32))) (i : ℕ) : Option (BitVec 32) :=
  programs.reverse.findSome? fun words => words[i]?

theorem latest_textImage (programs : List (List (BitVec 32))) (a : AlignedAddress) :
    latest (programs.map (textImage 0)) a = lastWord programs (wordIndex a) := by
  unfold latest lastWord
  rw [← List.map_reverse, List.findSome?_map]
  rfl

/-- A file of at most `0x40000` words has no word beyond the text. -/
theorem lt_of_lastWord {programs : List (List (BitVec 32))}
    (hlen : ∀ words ∈ programs, words.length ≤ 0x40000) {i : ℕ} {w : BitVec 32}
    (h : lastWord programs i = some w) : i < 0x40000 := by
  obtain ⟨words, hmem, hw⟩ := List.exists_of_findSome?_eq_some h
  have hi := (List.getElem?_eq_some_iff.mp hw).1
  exact lt_of_lt_of_le hi (hlen words (List.mem_reverse.mp hmem))

variable (slack : Memory) {programs : List (List (BitVec 32))}
  (hlen : ∀ words ∈ programs, words.length ≤ 0x40000)
include hlen

theorem alignedWords_initializeMachine (a : AlignedAddress) :
    alignedWords (initializeMachine slack programs).memory a =
      (lastWord programs (wordIndex a)).getD 0 := by
  have hload : ∀ words ∈ programs, ∀ m : Machine,
      alignedWords (loadProgram words m).memory =
        overlay (textImage 0 words) (alignedWords m.memory) := by
    intro words hwords m
    have hfits : 0 + words.length ≤ 0x40000 := by
      rw [Nat.zero_add]
      exact hlen words hwords
    exact alignedWords_loadWords words 0 hfits m.memory
  have hfold := view_foldl (fun m : Machine => alignedWords m.memory) hload
    { currentState := bootState, nextState := bootState, memory := initMemory slack,
      runBit := 0, instructionCount := 0 }
  rw [alignedWords_initMemory] at hfold
  refine (congrFun hfold a).trans ?_
  rw [overlay, latest_textImage]

theorem memRead32_textWord {i : ℕ} {w : BitVec 32} (h : lastWord programs i = some w) :
    memRead32 (initializeMachine slack programs).memory (textWord i) = w := by
  have hi := lt_of_lastWord hlen h
  have hindex := (wordIndex_eq_iff ⟨textWord i, textWord_aligned i⟩ hi).mpr rfl
  have hread := alignedWords_initializeMachine slack hlen
    ⟨textWord i, textWord_aligned i⟩
  rw [hindex, h] at hread
  exact hread

theorem memRead32_elsewhere {a : BitVec 64} (ha : a % 4 = 0)
    (hno : ∀ i, lastWord programs i ≠ none → a ≠ textWord i) :
    memRead32 (initializeMachine slack programs).memory a = 0 := by
  have hread := alignedWords_initializeMachine slack hlen ⟨a, ha⟩
  cases hw : lastWord programs (wordIndex ⟨a, ha⟩) with
  | none =>
    rw [hw] at hread
    exact hread
  | some w =>
    have hat := (wordIndex_eq_iff ⟨a, ha⟩ (lt_of_lastWord hlen hw)).mp rfl
    exact absurd hat (hno _ (by rw [hw]; exact Option.some_ne_none w))

end Programs

/-- After `initialize` every aligned address holds the word that the last file long enough has
for it, and 0 if no file has one; the machine starts at the text with everything else 0. -/
theorem initialize_loads (slack : Memory) (programs : List (List (BitVec 32)))
    (hne : programs ≠ []) (hlen : ∀ words ∈ programs, words.length ≤ 0x40000) :
    (∀ i w, lastWord programs i = some w → memRead32 (initializeMachine slack programs).memory
      (0x400000 + BitVec.ofNat 64 (4 * i)) = w) ∧
    (∀ a : BitVec 64, a % 4 = 0 →
      (∀ i, lastWord programs i ≠ none → a ≠ 0x400000 + BitVec.ofNat 64 (4 * i)) →
      memRead32 (initializeMachine slack programs).memory a = 0) ∧
    (∀ words i, programs = [words] → (hi : i < words.length) →
      memRead32 (initializeMachine slack programs).memory
        (0x400000 + BitVec.ofNat 64 (4 * i)) = words[i]) ∧
    (initializeMachine slack programs).currentState.pc = 0x400000 ∧
    (∀ k, (initializeMachine slack programs).currentState.reg k = 0) ∧
    (initializeMachine slack programs).currentState.flagN = 0 ∧
    (initializeMachine slack programs).currentState.flagZ = 0 ∧
    (initializeMachine slack programs).nextState =
      (initializeMachine slack programs).currentState ∧
    (initializeMachine slack programs).runBit = 1 := by
  have hs := initializeMachine_currentState slack programs
  rw [if_neg hne] at hs
  refine ⟨fun i w h => memRead32_textWord slack hlen h, fun a => memRead32_elsewhere slack hlen,
    ?_, ?_, ?_, ?_, ?_, rfl, rfl⟩
  · rintro words i rfl hi
    have hlast : lastWord [words] i = some words[i] := by
      unfold lastWord
      simp [hi]
    exact memRead32_textWord slack hlen hlast
  · rw [hs]
    rfl
  · intro k
    rw [hs]
    exact Vector.getElem_replicate k.isLt
  · rw [hs]
    rfl
  · rw [hs]
    rfl

/-- Two files, the second of which is shorter. -/
theorem initialize_loads_two :
    memRead32 (initializeMachine (fun _ _ => 0xFF) [[1, 2], [3]]).memory 0x400000 = 3 ∧
    memRead32 (initializeMachine (fun _ _ => 0xFF) [[1, 2], [3]]).memory 0x400004 = 2 ∧
    memRead32 (initializeMachine (fun _ _ => 0xFF) [[1, 2], [3]]).memory 0x400008 = 0 := by
  have hloads := initialize_loads (fun _ _ => 0xFF) [[1, 2], [3]] (by decide) (by decide)
  refine ⟨hloads.1 0 3 (by decide), hloads.1 1 2 (by decide), hloads.2.1 _ (by decide) ?_⟩
  rintro (_ | _ | i) hi
  · decide
  · decide
  · exact absurd rfl hi

end ArmSim.Verify
