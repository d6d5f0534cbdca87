import ArmSim.Shell.Memory

/-! A word read after a word written, byte by byte and at every distance, and the bounds of the
buffers that both accesses keep to. -/
namespace ArmSim.Verify
open Shell Bytes

section Bounds

/-- The bytes of `malloc(size + 3)`. -/
def allocated (r : Region) (offset : BitVec 32) : Bool := offset.toNat < r.size.toNat + 3

/-- `mem[offset]` on the right of an assignment, and on the left. -/
def cell? (mem : Memory) (r : Region) (offset : BitVec 32) : Option (BitVec 8) :=
  if allocated r offset then some (mem r offset) else none

def setCell? (mem : Memory) (r : Region) (offset : BitVec 32) (b : BitVec 8) : Option Memory :=
  if allocated r offset then some (setByte mem r offset b) else none

/-- `mem_read_32` with every access to a buffer checked. -/
def memRead32? (mem : Memory) (address : BitVec 64) : Option (BitVec 32) :=
  match findRegion address with
  | some r => do
    let offset := r.offset address
    let b₃ ← cell? mem r (offset + 3)
    let b₂ ← cell? mem r (offset + 2)
    let b₁ ← cell? mem r (offset + 1)
    let b₀ ← cell? mem r (offset + 0)
    return word b₃ b₂ b₁ b₀
  | none => some 0

/-- `mem_write_32` with every access to a buffer checked. -/
def memWrite32? (mem : Memory) (address : BitVec 64) (value : BitVec 32) : Option Memory :=
  match findRegion address with
  | some r => do
    let offset := r.offset address
    let mem ← setCell? mem r (offset + 3) (((value >>> 24) &&& 0xFF).setWidth 8)
    let mem ← setCell? mem r (offset + 2) (((value >>> 16) &&& 0xFF).setWidth 8)
    let mem ← setCell? mem r (offset + 1) (((value >>> 8) &&& 0xFF).setWidth 8)
    setCell? mem r (offset + 0) (((value >>> 0) &&& 0xFF).setWidth 8)
  | none => some mem

variable {r : Region} {a : BitVec 64}

theorem allocated_offset (h : findRegion a = some r) {q : ℕ} (hq : q < 4) :
    allocated r (r.offset a + BitVec.ofNat 32 q) = true :=
  decide_eq_true (Region.cell_address (findRegion_eq_some.mp h) hq).2

theorem cell?_offset (h : findRegion a = some r) (mem : Memory) {q : ℕ} (hq : q < 4) :
    cell? mem r (r.offset a + BitVec.ofNat 32 q) =
      some (mem r (r.offset a + BitVec.ofNat 32 q)) :=
  if_pos (allocated_offset h hq)

theorem setCell?_offset (h : findRegion a = some r) (mem : Memory) (b : BitVec 8) {q : ℕ}
    (hq : q < 4) : setCell? mem r (r.offset a + BitVec.ofNat 32 q) b =
      some (setByte mem r (r.offset a + BitVec.ofNat 32 q) b) :=
  if_pos (allocated_offset h hq)

/-- A read stays inside its buffer. -/
theorem memRead32?_eq (mem : Memory) (a : BitVec 64) :
    memRead32? mem a = some (memRead32 mem a) := by
  unfold memRead32? memRead32
  cases hf : findRegion a with
  | none => rfl
  | some r =>
    have h0 := cell?_offset hf mem (q := 0) (by decide)
    have h1 := cell?_offset hf mem (q := 1) (by decide)
    have h2 := cell?_offset hf mem (q := 2) (by decide)
    have h3 := cell?_offset hf mem (q := 3) (by decide)
    simp only [BitVec.ofNat_eq_ofNat] at h0 h1 h2 h3 ⊢
    rw [h3, h2, h1, h0]
    rfl

/-- A write stays inside its buffer. -/
theorem memWrite32?_eq (mem : Memory) (a : BitVec 64) (v : BitVec 32) :
    memWrite32? mem a v = some (memWrite32 mem a v) := by
  unfold memWrite32? memWrite32
  cases hf : findRegion a with
  | none => rfl
  | some r =>
    have h0 := fun mem b => setCell?_offset hf mem b (q := 0) (by decide)
    have h1 := fun mem b => setCell?_offset hf mem b (q := 1) (by decide)
    have h2 := fun mem b => setCell?_offset hf mem b (q := 2) (by decide)
    have h3 := fun mem b => setCell?_offset hf mem b (q := 3) (by decide)
    simp only [BitVec.ofNat_eq_ofNat] at h0 h1 h2 h3 ⊢
    simp only [h3, h2, h1, h0, Option.bind_eq_bind, Option.bind_some]

end Bounds

/-- Both accesses keep to the allocated bytes of the region they select. Byte `i` of a word read
at `b` after `v` was written to `a` is a byte of `v` if the two accesses overlap there, and what
it was otherwise. -/
theorem memory_law (mem : Memory) (a b : BitVec 64) (v : BitVec 32) :
    memWrite32? mem a v = some (memWrite32 mem a v) ∧
    memRead32? mem b = some (memRead32 mem b) ∧
    (∀ r, findRegion b = some r → ∀ i < 4, byte (memRead32 (memWrite32 mem a v) b) i =
      if findRegion a = some r ∧ a.toNat ≤ b.toNat + i ∧ b.toNat + i < a.toNat + 4 then
        byte v (b.toNat + i - a.toNat)
      else byte (memRead32 mem b) i) ∧
    (findRegion b = none → memRead32 (memWrite32 mem a v) b = 0) ∧
    (findRegion a = none → memWrite32 mem a v = mem) ∧
    (findRegion a ≠ none → memRead32 (memWrite32 mem a v) a = v) := by
  refine ⟨memWrite32?_eq mem a v, memRead32?_eq mem b, fun r hb i hi => ?_, fun hb => ?_,
    fun ha => ?_, fun ha => ?_⟩
  · exact byte_memRead32_memWrite32 hb mem v hi
  · exact memRead32_of_unmapped hb _
  · exact memWrite32_of_unmapped ha mem v
  · obtain ⟨r, hr⟩ := Option.ne_none_iff_exists'.mp ha
    exact memRead32_memWrite32_self (findRegion_eq_some.mp hr) mem v

/-- A word at the last byte of the text, read from there and from one byte before. -/
theorem memory_law_last_byte :
    memRead32 (memWrite32 (fun _ _ => 0) 0x4FFFFF 0xAABBCCDD) 0x4FFFFF = 0xAABBCCDD ∧
      byte (memRead32 (memWrite32 (fun _ _ => 0) 0x4FFFFF 0xAABBCCDD) 0x4FFFFE) 1 = 0xDD := by
  have hlast := memory_law (fun _ _ => 0) 0x4FFFFF 0x4FFFFE 0xAABBCCDD
  constructor
  · exact hlast.2.2.2.2.2 (by decide)
  · exact hlast.2.2.1 .text (by decide) 1 (by decide)

end ArmSim.Verify
