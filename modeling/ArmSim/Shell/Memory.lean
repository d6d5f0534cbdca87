import ArmSim.Core.Bytes

/-! Main memory: three regions of a 64-bit address space, each backed by its own
buffer. The lookup takes the first region that contains the address. -/
namespace ArmSim.Shell
open Bytes

def memDataStart : BitVec 64 := 0x10000000
def memDataSize : BitVec 64 := 0x00100000
def memTextStart : BitVec 64 := 0x00400000
def memTextSize : BitVec 64 := 0x00100000
def memStackStart : BitVec 64 := 0xfffffffc
def memStackSize : BitVec 64 := 0x00100000

/-- Indices of `MEM_REGIONS`. -/
inductive Region
  | text | data | stack
deriving DecidableEq, Repr

namespace Region

def start : Region → BitVec 64
  | text => memTextStart
  | data => memDataStart
  | stack => memStackStart

def size : Region → BitVec 64
  | text => memTextSize
  | data => memDataSize
  | stack => memStackSize

def contains (r : Region) (address : BitVec 64) : Bool :=
  r.start ≤ address && address < r.start + r.size

/-- `uint32_t offset = address - MEM_REGIONS[i].start`. -/
def offset (r : Region) (address : BitVec 64) : BitVec 32 := (address - r.start).setWidth 32

end Region

def memRegions : List Region := [.text, .data, .stack]

/-- The `mem` buffers of the regions, indexed by the 32-bit offset of an access. Only the
first `size + 3` bytes of each are allocated. -/
abbrev Memory := Region → BitVec 32 → BitVec 8

def findRegion (address : BitVec 64) : Option Region :=
  memRegions.find? fun r => r.contains address

def memRead32 (mem : Memory) (address : BitVec 64) : BitVec 32 :=
  match findRegion address with
  | some r =>
    let offset := r.offset address
    word (mem r (offset + 3)) (mem r (offset + 2)) (mem r (offset + 1)) (mem r (offset + 0))
  | none => 0

def setByte (mem : Memory) (r : Region) (offset : BitVec 32) (b : BitVec 8) : Memory :=
  fun r' o => if r' = r ∧ o = offset then b else mem r' o

def memWrite32 (mem : Memory) (address : BitVec 64) (value : BitVec 32) : Memory :=
  match findRegion address with
  | some r =>
    let offset := r.offset address
    let mem := setByte mem r (offset + 3) (((value >>> 24) &&& 0xFF).setWidth 8)
    let mem := setByte mem r (offset + 2) (((value >>> 16) &&& 0xFF).setWidth 8)
    let mem := setByte mem r (offset + 1) (((value >>> 8) &&& 0xFF).setWidth 8)
    setByte mem r (offset + 0) (((value >>> 0) &&& 0xFF).setWidth 8)
  | none => mem

/-- `malloc(size + 3)` followed by `memset` of `size` bytes: `slack` is what the allocator
left in the rest. -/
def initMemory (slack : Memory) : Memory :=
  fun r o => if o.toNat < r.size.toNat then 0 else slack r o

theorem Region.contains_iff (r : Region) (a : BitVec 64) :
    r.contains a = true ↔ r.start.toNat ≤ a.toNat ∧ a.toNat < r.start.toNat + r.size.toNat := by
  have hend : (r.start + r.size).toNat = r.start.toNat + r.size.toNat := by cases r <;> rfl
  simp only [contains, Bool.and_eq_true, decide_eq_true_eq, BitVec.le_def, BitVec.lt_def, hend]

theorem Region.contains_start (r : Region) : r.contains r.start = true := by
  cases r <;> decide

theorem Region.bounds (r : Region) : r.start.toNat % 4 = 0 ∧ r.size.toNat % 4 = 0 ∧
    8 ≤ r.start.toNat ∧ r.start.toNat + r.size.toNat < 2 ^ 33 := by
  cases r <;> decide

theorem Region.toNat_text :
    Region.text.start.toNat = 0x400000 ∧ Region.text.size.toNat = 0x100000 := ⟨rfl, rfl⟩

theorem Region.toNat_stack :
    Region.stack.start.toNat = 0xFFFFFFFC ∧ Region.stack.size.toNat = 0x100000 := ⟨rfl, rfl⟩

theorem Region.size_le (r : Region) : r.size.toNat ≤ 2 ^ 20 := by
  cases r <;> decide

/-- No address lies in two regions. -/
theorem Region.contains_unique {r r' : Region} {a : BitVec 64} (h : r.contains a = true)
    (h' : r'.contains a = true) : r = r' := by
  rw [contains_iff] at h h'
  have hsep : r = r' ∨ r.start.toNat + r.size.toNat ≤ r'.start.toNat ∨
      r'.start.toNat + r'.size.toNat ≤ r.start.toNat := by
    cases r <;> cases r' <;> decide
  rcases hsep with heq | hlt | hgt
  · exact heq
  · omega
  · omega

private theorem contains_of_findRegion {a : BitVec 64} {r : Region}
    (h : findRegion a = some r) : r.contains a = true := by
  unfold findRegion at h
  simpa using List.find?_some h

theorem findRegion_eq_some {a : BitVec 64} {r : Region} :
    findRegion a = some r ↔ r.contains a = true := by
  constructor
  · exact contains_of_findRegion
  · intro h
    cases hf : findRegion a with
    | none =>
      have hn := List.find?_eq_none.mp hf r (by cases r <;> simp [memRegions])
      exact absurd h hn
    | some r' => rw [Region.contains_unique h (contains_of_findRegion hf)]

theorem findRegion_eq_none {a : BitVec 64} :
    findRegion a = none ↔ ∀ r : Region, r.contains a = false := by
  constructor
  · intro h r
    have hn := List.find?_eq_none.mp h r (by cases r <;> simp [memRegions])
    simpa using hn
  · intro h
    exact List.find?_eq_none.mpr fun r _ => by simp [h r]

/-- A mapped address is found at its distance from the start of the region. -/
theorem Region.offset_of_contains {r : Region} {a : BitVec 64} (h : r.contains a = true) :
    (r.offset a).toNat + r.start.toNat = a.toNat ∧ (r.offset a).toNat < r.size.toNat := by
  rw [contains_iff] at h
  have hsize := r.size_le
  rw [offset, BitVec.toNat_setWidth, BitVec.toNat_sub]
  have := a.isLt
  omega

theorem Region.offset_add (r : Region) (a : BitVec 64) (j : ℕ) :
    r.offset (a + BitVec.ofNat 64 j) = r.offset a + BitVec.ofNat 32 j := by
  apply BitVec.eq_of_toNat_eq
  simp only [offset, BitVec.toNat_setWidth, BitVec.toNat_sub, BitVec.toNat_add,
    BitVec.toNat_ofNat]
  omega

/-- The cell of a byte within three of a mapped address has that byte's address, and is
allocated. -/
theorem Region.cell_address {r : Region} {a : BitVec 64} (h : r.contains a = true) {q : ℕ}
    (hq : q < 4) :
    r.start + (r.offset a + BitVec.ofNat 32 q).setWidth 64 = a + BitVec.ofNat 64 q ∧
      (r.offset a + BitVec.ofNat 32 q).toNat < r.size.toNat + 3 := by
  have hsize := r.size_le
  obtain ⟨haddr, hlt⟩ := offset_of_contains h
  have hcell : (r.offset a + BitVec.ofNat 32 q).toNat = (r.offset a).toNat + q := by
    rw [BitVec.toNat_add, BitVec.toNat_ofNat]
    omega
  constructor
  · apply BitVec.eq_of_toNat_eq
    rw [BitVec.toNat_add, BitVec.toNat_setWidth, hcell, BitVec.toNat_add, BitVec.toNat_ofNat]
    omega
  · omega

theorem Region.start_add_offset {r : Region} {a : BitVec 64} (h : r.contains a = true) :
    r.start + (r.offset a).setWidth 64 = a := by
  simpa using (cell_address h (q := 0) (by decide)).1

/-- Regions consist of whole aligned words. -/
theorem Region.contains_add_of_aligned (r : Region) {a : BitVec 64} (ha : a % 4 = 0) {j : ℕ}
    (hj : j < 4) : r.contains (a + BitVec.ofNat 64 j) = r.contains a := by
  have hmod : a.toNat % 4 = 0 := by
    have := congrArg BitVec.toNat ha
    rwa [BitVec.toNat_umod] at this
  have hlt := a.isLt
  have hadd : (a + BitVec.ofNat 64 j).toNat = a.toNat + j := by
    rw [BitVec.toNat_add, BitVec.toNat_ofNat]
    omega
  rw [Bool.eq_iff_iff, contains_iff, contains_iff, hadd]
  have hb := r.bounds
  omega

theorem memWrite32_of_contains {a : BitVec 64} {r : Region} (h : r.contains a = true)
    (mem : Memory) (v : BitVec 32) (r' : Region) (o : BitVec 32) :
    memWrite32 mem a v r' o =
      if r' = r ∧ (o - r.offset a).toNat < 4 then byte v (o - r.offset a).toNat
      else mem r' o := by
  have hb (i : ℕ) : ((v >>> (8 * i)) &&& 0xFF).setWidth 8 = byte v i := setWidth_shift_mask v i
  have hd (c : BitVec 32) : o = r.offset a + c ↔ (o - r.offset a).toNat = c.toNat := by
    rw [BitVec.toNat_inj, sub_eq_iff_eq_add, add_comm]
  have h0 := hb 0
  have h1 := hb 1
  have h2 := hb 2
  have h3 := hb 3
  simp only [memWrite32, findRegion_eq_some.mpr h, setByte, hd] at *
  generalize (o - r.offset a).toNat = d at *
  by_cases hr : r' = r
  · subst hr
    rw [show (0 : BitVec 32).toNat = 0 from rfl, show (1 : BitVec 32).toNat = 1 from rfl,
      show (2 : BitVec 32).toNat = 2 from rfl, show (3 : BitVec 32).toNat = 3 from rfl]
    by_cases hlt : d < 4
    · simp only [true_and, if_pos hlt]
      interval_cases d
      · exact h0
      · exact h1
      · exact h2
      · exact h3
    · simp only [show d ≠ 0 ∧ d ≠ 1 ∧ d ≠ 2 ∧ d ≠ 3 by omega, hlt, and_false, if_false]
  · simp only [hr, false_and, if_false]

theorem memWrite32_of_unmapped {a : BitVec 64} (h : findRegion a = none) (mem : Memory)
    (v : BitVec 32) : memWrite32 mem a v = mem := by
  rw [memWrite32, h]

/-- What a word write leaves in every cell. -/
theorem memWrite32_apply (mem : Memory) (a : BitVec 64) (v : BitVec 32) (r : Region)
    (o : BitVec 32) :
    memWrite32 mem a v r o =
      if r.contains a = true ∧ (o - r.offset a).toNat < 4 then byte v (o - r.offset a).toNat
      else mem r o := by
  cases hf : findRegion a with
  | none => simp [memWrite32_of_unmapped hf, findRegion_eq_none.mp hf r]
  | some r' =>
    have hr' := findRegion_eq_some.mp hf
    rw [memWrite32_of_contains hr']
    by_cases hr : r = r'
    · subst hr
      simp only [hr', true_and]
    · have hno : ¬ r.contains a = true := fun h => hr (Region.contains_unique h hr')
      rw [if_neg fun h => hr h.1, if_neg fun h => hno h.1]

theorem byte_memRead32 {a : BitVec 64} {r : Region} (h : r.contains a = true) (mem : Memory)
    {i : ℕ} (hi : i < 4) :
    byte (memRead32 mem a) i = mem r (r.offset a + BitVec.ofNat 32 i) := by
  rw [memRead32, findRegion_eq_some.mpr h, byte_word _ _ _ _ hi]
  interval_cases i <;> rfl

theorem memRead32_of_unmapped {a : BitVec 64} (h : findRegion a = none) (mem : Memory) :
    memRead32 mem a = 0 := by
  rw [memRead32, h]

/-- How far byte `i` of an access at `b` lies behind the start of an access at `a`. -/
theorem Region.offset_distance {r : Region} {a b : BitVec 64} (ha : r.contains a = true)
    (hb : r.contains b = true) {i : ℕ} (hi : i < 4) :
    (r.offset b + BitVec.ofNat 32 i - r.offset a).toNat =
      if a.toNat ≤ b.toNat + i then b.toNat + i - a.toNat
      else 2 ^ 32 + b.toNat + i - a.toNat := by
  obtain ⟨haddra, hlta⟩ := Region.offset_of_contains ha
  obtain ⟨haddrb, hltb⟩ := Region.offset_of_contains hb
  have hsize := r.size_le
  rw [BitVec.toNat_sub, BitVec.toNat_add, BitVec.toNat_ofNat]
  split <;> omega

/-- Bytes of a read that a write covers come from the written word, and no others do. -/
theorem byte_memRead32_memWrite32 {a b : BitVec 64} {r : Region} (hb : findRegion b = some r)
    (mem : Memory) (v : BitVec 32) {i : ℕ} (hi : i < 4) :
    byte (memRead32 (memWrite32 mem a v) b) i =
      if findRegion a = some r ∧ a.toNat ≤ b.toNat + i ∧ b.toNat + i < a.toNat + 4 then
        byte v (b.toNat + i - a.toNat)
      else byte (memRead32 mem b) i := by
  have hb' := findRegion_eq_some.mp hb
  rw [byte_memRead32 hb' _ hi, byte_memRead32 hb' _ hi, memWrite32_apply]
  by_cases ha : findRegion a = some r
  · have ha' := findRegion_eq_some.mp ha
    have hd := Region.offset_distance ha' hb' hi
    by_cases hin : a.toNat ≤ b.toNat + i ∧ b.toNat + i < a.toNat + 4
    · rw [if_pos hin.1] at hd
      rw [hd, if_pos ⟨ha', by omega⟩, if_pos ⟨ha, hin⟩]
    · -- a write that starts behind the byte is almost `2 ^ 32` away from it
      have hfar : 4 ≤ (r.offset b + BitVec.ofNat 32 i - r.offset a).toNat := by
        have hsize := r.size_le
        rw [Region.contains_iff] at ha' hb'
        rw [hd]
        split <;> omega
      rw [if_neg (by omega), if_neg fun h => hin h.2]
  · have ha' : ¬ r.contains a = true := fun h => ha (findRegion_eq_some.mpr h)
    rw [if_neg fun h => ha' h.1, if_neg fun h => ha h.1]

/-- A word write is not seen by a read of other bytes. -/
theorem memRead32_memWrite32_of_apart {a b : BitVec 64} (mem : Memory) (v : BitVec 32)
    (hapart : a.toNat + 4 ≤ b.toNat ∨ b.toNat + 4 ≤ a.toNat) :
    memRead32 (memWrite32 mem a v) b = memRead32 mem b := by
  cases hb : findRegion b with
  | none => rw [memRead32_of_unmapped hb, memRead32_of_unmapped hb]
  | some r =>
    refine eq_of_bytes (n := 4) rfl fun i hi => ?_
    rw [byte_memRead32_memWrite32 hb mem v hi, if_neg (by omega)]

theorem memRead32_memWrite32_self {a : BitVec 64} {r : Region} (h : r.contains a = true)
    (mem : Memory) (v : BitVec 32) : memRead32 (memWrite32 mem a v) a = v := by
  have hr := findRegion_eq_some.mpr h
  refine eq_of_bytes (n := 4) rfl fun i hi => ?_
  rw [byte_memRead32_memWrite32 hr mem v hi, if_pos ⟨hr, by omega, by omega⟩,
    Nat.add_sub_cancel_left]

end ArmSim.Shell
