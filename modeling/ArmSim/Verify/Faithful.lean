import ArmSim.Verify.Access

/-! Loads and stores at a 64-bit address. Every byte of an access is transferred to or from one
byte of a word of memory; the access is free of aliasing exactly when each of these is a byte of
the access itself, at the right place, and present whenever the access lies in one region. -/
namespace ArmSim.Verify
open Shell Sim Spec Bytes

/-- The allocated cell `o` of `r` holds one of the `k` bytes from `a` on. -/
def Covers (a : BitVec 64) (k : ℕ) (r : Region) (o : BitVec 32) : Prop :=
  o.toNat < r.size.toNat + 3 ∧ ∃ j < k, r.start + o.setWidth 64 = a + BitVec.ofNat 64 j

def Mapped (a : BitVec 64) : Prop := ∃ r : Region, r.contains a = true

/-- None of the `k` bytes from `a` on is mapped. -/
def Unmapped (a : BitVec 64) (k : ℕ) : Prop := ∀ j < k, ¬ Mapped (a + BitVec.ofNat 64 j)

/-- All of the `k` bytes from `a` on lie in `r`. -/
def Inside (r : Region) (a : BitVec 64) (k : ℕ) : Prop :=
  ∀ j < k, r.contains (a + BitVec.ofNat 64 j) = true

instance (r : Region) (a : BitVec 64) (k : ℕ) : Decidable (Inside r a k) :=
  inferInstanceAs (Decidable (∀ j < k, _))

/-- A store of the low `k` bytes of `v` at the 64-bit address `a`. -/
structure StoreAt (k : ℕ) (a v : BitVec 64) (mem mem' : Memory) : Prop where
  unmapped : Unmapped a k → mem' = mem
  inside : ∀ r, Inside r a k → ∀ j < k, mem' r (r.offset (a + BitVec.ofNat 64 j)) = byte v j
  confined : ∀ r o, mem' r o ≠ mem r o → Covers a k r o

/-- `v` is what a load of `k` bytes at the 64-bit address `a` gives. -/
structure LoadAt (k : ℕ) (a : BitVec 64) (mem : Memory) (v : BitVec 64) : Prop where
  unmapped : Unmapped a k → v = 0
  inside : ∀ r, Inside r a k → ∀ j < 8,
    byte v j = if j < k then mem r (r.offset (a + BitVec.ofNat 64 j)) else 0

/-- A completed cycle of the load or store `n` whose effective address is `a`. -/
structure AccessCycle (n : Name) (a : BitVec 64) (u : Indeterminate) (m m' : Machine) :
    Prop where
  decodes : DecodesTo (fetch m) n
  address : accessAddress m.currentState (fetch m) = a
  cycle : cycle u m = .ok m'

/-- In every machine state the access `n` at `a` is one at the 64-bit address `a`, and nothing
outside the bytes from `a` on plays a role. -/
structure AliasFree (n : Name) (a : BitVec 64) : Prop where
  store : n.isStore = true → ∀ u m m', AccessCycle n a u m m' →
    StoreAt (accessWidth n) a (m.currentState.reg (rd (fetch m))) m.memory m'.memory
  load : n.isStore = false → ∀ u m m', AccessCycle n a u m m' →
    LoadAt (accessWidth n) a m.memory (m'.currentState.reg (rd (fetch m))) ∧
      m'.memory = m.memory
  reads : n.isStore = false → ∀ u₁ u₂ m₁ m₂ m₁' m₂', AccessCycle n a u₁ m₁ m₁' →
    AccessCycle n a u₂ m₂ m₂' →
    (∀ r o, Covers a (accessWidth n) r o → m₁.memory r o = m₂.memory r o) →
      m₁'.currentState.reg (rd (fetch m₁)) = m₂'.currentState.reg (rd (fetch m₂))

def loadsAndStores : List Name := [.stur, .sturh, .sturb, .ldur, .ldurb]

/-- The second word of LDUR. -/
def highWord (a : BitVec 64) : BitVec 64 := (alignedAddress a + 4).setWidth 64

/-- The word that byte `j` of an access goes to or comes from, and the byte within it. -/
def transfer (n : Name) (a : BitVec 64) (j : ℕ) : BitVec 64 × ℕ :=
  match n with
  | .ldur => if j < 4 then (narrowed a, j) else (highWord a, j - 4)
  | .ldurb => (narrowed a, a.toNat % 4)
  | n => (storeBase n a, storeLane n a + j)

/-- Byte `j` of the access stays within the access, is not conjured up for an unmapped one,
and is the right one where all of them are in one region. -/
structure Faithful (n : Name) (a : BitVec 64) (j : ℕ) : Prop where
  covered : Mapped (transfer n a j).1 → ∃ i < accessWidth n,
    (transfer n a j).1 + BitVec.ofNat 64 (transfer n a j).2 = a + BitVec.ofNat 64 i
  unmapped : Unmapped a (accessWidth n) → ¬ Mapped (transfer n a j).1
  inside : ∀ r, Inside r a (accessWidth n) → r.contains (transfer n a j).1 = true ∧
    (transfer n a j).1 + BitVec.ofNat 64 (transfer n a j).2 = a + BitVec.ofNat 64 j

theorem accessWidth_pos {n : Name} (hn : n ∈ loadsAndStores) : 0 < accessWidth n := by
  revert n
  decide

theorem isStore_eq_false_iff {n : Name} (hn : n ∈ loadsAndStores) :
    n.isStore = false ↔ n = .ldur ∨ n = .ldurb := by
  revert n
  decide

theorem transfer_lt {n : Name} (hn : n ∈ loadsAndStores) (a : BitVec 64) {j : ℕ}
    (hj : j < accessWidth n) : (transfer n a j).2 < 4 := by
  cases n with
  | stur | sturh | sturb | ldurb =>
    simp only [transfer, storeLane, accessWidth] at hj ⊢
    omega
  | ldur =>
    simp only [transfer, accessWidth] at hj ⊢
    split_ifs <;> dsimp only <;> omega
  | _ => exact absurd hn (by decide)

/-- A byte of a load comes from its transfer cell. -/
theorem byte_loadValue {n : Name} (hn : n = .ldur ∨ n = .ldurb) (mem : Memory) (a : BitVec 64)
    {j : ℕ} (hj : j < 8) :
    byte (loadValue mem a n) j =
      if j < accessWidth n then byte (memRead32 mem (transfer n a j).1) (transfer n a j).2
      else 0 := by
  rcases hn with rfl | rfl
  · rw [accessWidth, if_pos hj, loadValue, byte_loadDoubleword mem a hj]
    simp only [transfer]
    split_ifs <;> rfl
  · change byte ((loadByte mem a).setWidth 64) j = if j < 1 then _ else _
    rw [byte_setWidth _ (by omega), loadByte_eq]
    exact if_congr Nat.lt_one_iff.symm rfl rfl

theorem findRegion_of_not_mapped {a : BitVec 64} (h : ¬ Mapped a) : findRegion a = none :=
  findRegion_eq_none.mpr fun r => by
    cases hr : r.contains a with
    | false => rfl
    | true => exact absurd ⟨r, hr⟩ h

theorem transfer_store {n : Name} (hn : n.isStore = true) (a : BitVec 64) (j : ℕ) :
    transfer n a j = (storeBase n a, storeLane n a + j) := by
  cases n <;> first | rfl | exact absurd hn (by decide)

section Store
variable {n : Name} (hn : n.isStore = true) (mem : Memory) {a : BitVec 64} (v : BitVec 64)
  {r : Region}
include hn

/-- The store puts byte `j` of the register into its transfer cell. -/
theorem store_cell (hr : r.contains (storeBase n a) = true) {j : ℕ} (hj : j < accessWidth n)
    (hq : storeLane n a + j < 4) :
    memWrite32 mem (storeBase n a) (storeWord mem a v n) r
      (r.offset (storeBase n a) + BitVec.ofNat 32 (storeLane n a + j)) = byte v j := by
  have hd : (r.offset (storeBase n a) + BitVec.ofNat 32 (storeLane n a + j) -
      r.offset (storeBase n a)).toNat = storeLane n a + j := by
    rw [add_sub_cancel_left, BitVec.toNat_ofNat]
    omega
  rw [setMemory_storeWord hn, hd, if_pos ⟨hr, by omega, by omega⟩, Nat.add_sub_cancel_left]

/-- Other cells keep their contents. -/
theorem store_changed {o : BitVec 32}
    (h : memWrite32 mem (storeBase n a) (storeWord mem a v n) r o ≠ mem r o) :
    r.contains (storeBase n a) = true ∧ ∃ j < accessWidth n,
      o = r.offset (storeBase n a) + BitVec.ofNat 32 (storeLane n a + j) := by
  rw [setMemory_storeWord hn] at h
  split_ifs at h with hw
  · obtain ⟨hr, hlo, hhi⟩ := hw
    refine ⟨hr, (o - r.offset (storeBase n a)).toNat - storeLane n a, by omega, ?_⟩
    rw [Nat.add_sub_cancel' hlo, BitVec.ofNat_toNat, BitVec.setWidth_eq, add_sub_cancel]
  · exact absurd rfl h

end Store

/-- A byte read from a mapped word is a cell of its region, any other is 0. -/
theorem byte_memRead32_of_not_mapped {x : BitVec 64} (h : ¬ Mapped x) (mem : Memory) (q : ℕ) :
    byte (memRead32 mem x) q = 0 := by
  rw [memRead32_of_unmapped (findRegion_of_not_mapped h), byte_zero]

section OfFaithful
variable {n : Name} (hn : n ∈ loadsAndStores) {a : BitVec 64}
  (h : ∀ j < accessWidth n, Faithful n a j)
include hn h

theorem storeAt_of_faithful (hs : n.isStore = true) (mem : Memory) (v : BitVec 64) :
    StoreAt (accessWidth n) a v mem
      (memWrite32 mem (storeBase n a) (storeWord mem a v n)) := by
  constructor
  · intro hU
    have hno := (h 0 (accessWidth_pos hn)).unmapped hU
    rw [transfer_store hs] at hno
    exact memWrite32_of_unmapped (findRegion_of_not_mapped hno) _ _
  · intro r hI j hj
    have hq := transfer_lt hn a hj
    obtain ⟨hr, heq⟩ := (h j hj).inside r hI
    rw [transfer_store hs] at hr heq hq
    rw [← heq, Region.offset_add]
    exact store_cell hs mem v hr hj hq
  · intro r o hne
    obtain ⟨hr, j, hj, rfl⟩ := store_changed hs mem v hne
    have hq := transfer_lt hn a hj
    have hcov := (h j hj).covered
    rw [transfer_store hs] at hcov hq
    obtain ⟨i, hi, heq⟩ := hcov ⟨r, hr⟩
    obtain ⟨haddr, hlt⟩ := Region.cell_address hr hq
    exact ⟨hlt, i, hi, haddr.trans heq⟩

theorem loadAt_of_faithful (hl : n = .ldur ∨ n = .ldurb) (mem : Memory) :
    LoadAt (accessWidth n) a mem (loadValue mem a n) := by
  constructor
  · intro hU
    refine eq_of_bytes (n := 8) rfl fun j hj => ?_
    rw [byte_loadValue hl mem a hj, byte_zero]
    split
    · exact byte_memRead32_of_not_mapped ((h j ‹_›).unmapped hU) mem _
    · rfl
  · intro r hI j hj
    rw [byte_loadValue hl mem a hj]
    split
    · rename_i hjk
      obtain ⟨hr, heq⟩ := (h j hjk).inside r hI
      rw [byte_memRead32 hr mem (transfer_lt hn a hjk), ← heq, Region.offset_add]
    · rfl

/-- Only the bytes of the access play a role in what is loaded. -/
theorem loadValue_congr_of_faithful (hl : n = .ldur ∨ n = .ldurb) {mem₁ mem₂ : Memory}
    (hagree : ∀ r o, Covers a (accessWidth n) r o → mem₁ r o = mem₂ r o) :
    loadValue mem₁ a n = loadValue mem₂ a n := by
  refine eq_of_bytes (n := 8) rfl fun j hj => ?_
  rw [byte_loadValue hl _ _ hj, byte_loadValue hl _ _ hj]
  split
  · rename_i hjk
    by_cases hx : Mapped (transfer n a j).1
    · obtain ⟨i, hi, heq⟩ := (h j hjk).covered hx
      obtain ⟨r, hr⟩ := hx
      have hq := transfer_lt hn a hjk
      obtain ⟨haddr, hlt⟩ := Region.cell_address hr hq
      rw [byte_memRead32 hr _ hq, byte_memRead32 hr _ hq]
      exact hagree r _ ⟨hlt, i, hi, haddr.trans heq⟩
    · rw [byte_memRead32_of_not_mapped hx, byte_memRead32_of_not_mapped hx]
  · rfl

theorem aliasFree_of_faithful : AliasFree n a := by
  constructor
  · intro hs u m m' hac
    have hst := storeAt_of_faithful hn h hs m.memory (m.currentState.reg (rd (fetch m)))
    have hmem := hac.decodes.store_memory hs hac.cycle
    rw [hac.address] at hmem
    rwa [hmem]
  · intro hs u m m' hac
    have hl := (isStore_eq_false_iff hn).mp hs
    rw [hac.decodes.load_reg hl hac.cycle, hac.address]
    exact ⟨loadAt_of_faithful hn h hl m.memory, hac.decodes.memory_eq hs hac.cycle⟩
  · intro hs u₁ u₂ m₁ m₂ m₁' m₂' hac₁ hac₂ hagree
    have hl := (isStore_eq_false_iff hn).mp hs
    rw [hac₁.decodes.load_reg hl hac₁.cycle, hac₁.address,
      hac₂.decodes.load_reg hl hac₂.cycle, hac₂.address]
    exact loadValue_congr_of_faithful hn h hl hagree

end OfFaithful

section Probe

/-- The word of `n` with registers X1 and X0 and offset 0. -/
def probeWord (n : Name) : BitVec 32 := (pattern n).word + 1

/-- A machine about to execute `n` at `a`: its program is in `r₀`, its memory otherwise `mem`,
and X1 holds `v`. -/
def probe (n : Name) (a v : BitVec 64) (mem : Memory) (r₀ : Region) : Machine :=
  let s : CpuState :=
    { pc := r₀.start, flagN := 0, flagZ := 0
      regs := ((Vector.replicate armRegs 0).set 0 a (by decide)).set 1 v (by decide) }
  { currentState := s, nextState := s, memory := memWrite32 mem r₀.start (probeWord n),
    runBit := 1, instructionCount := 0 }

variable {n : Name} (hn : n ∈ loadsAndStores) (a v : BitVec 64) (mem : Memory) (r₀ : Region)

theorem fetch_probe : fetch (probe n a v mem r₀) = probeWord n :=
  memRead32_memWrite32_self (Region.contains_start r₀) mem (probeWord n)

/-- The program leaves the other regions alone. -/
theorem probe_memory {r : Region} (hr : r ≠ r₀) (o : BitVec 32) :
    (probe n a v mem r₀).memory r o = mem r o := by
  change memWrite32 mem r₀.start (probeWord n) r o = _
  rw [memWrite32_apply, if_neg]
  exact fun h => hr (Region.contains_unique h.1 (Region.contains_start r₀))

include hn

theorem probe_cycle : ∃ m', AccessCycle n a .zeroed (probe n a v mem r₀) m' ∧
    (probe n a v mem r₀).currentState.reg (rd (fetch (probe n a v mem r₀))) = v := by
  have hd : DecodesTo (probeWord n) n := by
    revert n
    decide
  have hfields : rn (probeWord n) = 0 ∧ rd (probeWord n) = 1 ∧ offset9 (probeWord n) = 0 ∧
      topBits 11 (probeWord n) ≠ 0b10001011001 := by
    revert n
    decide
  obtain ⟨hrn, hrd, hoff, htop⟩ := hfields
  have hf := fetch_probe (n := n) a v mem r₀
  have hd' : DecodesTo (fetch (probe n a v mem r₀)) n := hf.symm ▸ hd
  obtain ⟨m', hc⟩ := hd'.cycle_defined (u := .zeroed) fun h21 =>
    absurd (hf ▸ h21) htop
  refine ⟨m', ⟨hd', ?_, hc⟩, ?_⟩
  · rw [hf, accessAddress, hrn, hoff, add_zero]
    rfl
  · rw [hf, hrd]
    rfl

end Probe

section Converse

/-- A memory with a single nonzero cell. -/
def spot (r : Region) (o : BitVec 32) : Memory := fun r' o' => if r' = r ∧ o' = o then 1 else 0

theorem exists_other_region (r r' : Region) : ∃ r₀, r ≠ r₀ ∧ r' ≠ r₀ := by
  cases r <;> cases r' <;> first
    | exact ⟨.text, by decide⟩ | exact ⟨.data, by decide⟩ | exact ⟨.stack, by decide⟩

/-- A register whose bytes are nonzero and all different. -/
def distinctBytes : BitVec 64 := 0x0807060504030201

theorem byte_distinctBytes {i j : ℕ} (hi : i < 8) (hj : j < 8) :
    byte distinctBytes j ≠ 0 ∧ (byte distinctBytes i = byte distinctBytes j → i = j) := by
  have hall : ∀ i < 8, ∀ j < 8, byte distinctBytes j ≠ 0 ∧
      (byte distinctBytes i = byte distinctBytes j → i = j) := by decide
  exact hall i hi j hj

variable {n : Name} {a : BitVec 64} (hn : n ∈ loadsAndStores) (h : AliasFree n a)
include hn h

theorem AliasFree.store_probe (hs : n.isStore = true) (v : BitVec 64) (mem : Memory)
    (r₀ : Region) :
    StoreAt (accessWidth n) a v (probe n a v mem r₀).memory
      (memWrite32 (probe n a v mem r₀).memory (storeBase n a)
        (storeWord (probe n a v mem r₀).memory a v n)) := by
  obtain ⟨m', hac, hv⟩ := probe_cycle hn a v mem r₀
  have hst := h.store hs _ _ _ hac
  rwa [hac.decodes.store_memory hs hac.cycle, hac.address, hv] at hst

theorem AliasFree.faithful_store (hs : n.isStore = true) {j : ℕ} (hj : j < accessWidth n) :
    Faithful n a j := by
  have hk : accessWidth n ≤ 8 := by cases n <;> decide
  have hq := transfer_lt hn a hj
  rw [transfer_store hs] at hq
  -- with zero memory outside the program, a written byte shows
  have hwritten : ∀ r r₀, r ≠ r₀ → r.contains (storeBase n a) = true →
      memWrite32 (probe n a distinctBytes (fun _ _ => 0) r₀).memory (storeBase n a)
        (storeWord (probe n a distinctBytes (fun _ _ => 0) r₀).memory a distinctBytes n) r
        (r.offset (storeBase n a) + BitVec.ofNat 32 (storeLane n a + j)) ≠
      (probe n a distinctBytes (fun _ _ => 0) r₀).memory r
        (r.offset (storeBase n a) + BitVec.ofNat 32 (storeLane n a + j)) := by
    intro r r₀ hr₀ hr
    rw [store_cell hs _ _ hr hj hq, probe_memory _ _ _ _ hr₀]
    exact (byte_distinctBytes (i := 0) (by omega) (by omega)).1
  constructor
  · rintro ⟨r, hr⟩
    rw [transfer_store hs] at hr ⊢
    obtain ⟨r₀, hr₀, -⟩ := exists_other_region r r
    obtain ⟨-, i, hi, heq⟩ := (h.store_probe hn hs distinctBytes (fun _ _ => 0) r₀).confined r _
      (hwritten r r₀ hr₀ hr)
    exact ⟨i, hi, (Region.cell_address hr hq).1.symm.trans heq⟩
  · rintro hU ⟨r, hr⟩
    rw [transfer_store hs] at hr
    obtain ⟨r₀, hr₀, -⟩ := exists_other_region r r
    refine hwritten r r₀ hr₀ hr ?_
    rw [(h.store_probe hn hs distinctBytes (fun _ _ => 0) r₀).unmapped hU]
  · intro r hI
    obtain ⟨r₀, hr₀, -⟩ := exists_other_region r r
    have hbyte := (h.store_probe hn hs distinctBytes (fun _ _ => 0) r₀).inside r hI j hj
    have hzero := probe_memory (n := n) a distinctBytes (fun _ _ => 0) r₀ hr₀
      (r.offset (a + BitVec.ofNat 64 j))
    obtain ⟨hr, i, hi, ho⟩ := store_changed hs _ _ fun hsame =>
      (byte_distinctBytes (i := 0) (by omega) (by omega)).1
        (hbyte.symm.trans (hsame.trans hzero))
    have hqi := transfer_lt hn a hi
    rw [transfer_store hs] at hqi ⊢
    rw [ho, store_cell hs _ _ hr hi hqi] at hbyte
    obtain rfl := (byte_distinctBytes (by omega) (by omega)).2 hbyte
    exact ⟨hr, (Region.cell_address hr hq).1.symm.trans
      (ho ▸ Region.start_add_offset (hI i hj))⟩

theorem AliasFree.load_probe (hl : n = .ldur ∨ n = .ldurb) (mem : Memory) (r₀ : Region) :
    LoadAt (accessWidth n) a (probe n a 0 mem r₀).memory
      (loadValue (probe n a 0 mem r₀).memory a n) := by
  have hs := (isStore_eq_false_iff hn).mpr hl
  obtain ⟨m', hac, -⟩ := probe_cycle hn a 0 mem r₀
  have hld := (h.load hs _ _ _ hac).1
  rwa [hac.decodes.load_reg hl hac.cycle, hac.address] at hld

theorem AliasFree.reads_probe (hl : n = .ldur ∨ n = .ldurb) (mem₁ mem₂ : Memory) (r₀ : Region)
    (hagree : ∀ r o, Covers a (accessWidth n) r o → mem₁ r o = mem₂ r o) :
    loadValue (probe n a 0 mem₁ r₀).memory a n = loadValue (probe n a 0 mem₂ r₀).memory a n := by
  have hs := (isStore_eq_false_iff hn).mpr hl
  obtain ⟨m₁', hac₁, -⟩ := probe_cycle hn a 0 mem₁ r₀
  obtain ⟨m₂', hac₂, -⟩ := probe_cycle hn a 0 mem₂ r₀
  have hrd := h.reads hs _ _ _ _ _ _ hac₁ hac₂ fun r o hcov => by
    change memWrite32 mem₁ r₀.start (probeWord n) r o = memWrite32 mem₂ r₀.start (probeWord n) r o
    rw [memWrite32_apply, memWrite32_apply, hagree r o hcov]
  rwa [hac₁.decodes.load_reg hl hac₁.cycle, hac₁.address,
    hac₂.decodes.load_reg hl hac₂.cycle, hac₂.address] at hrd

theorem AliasFree.faithful_load (hl : n = .ldur ∨ n = .ldurb) {j : ℕ}
    (hj : j < accessWidth n) : Faithful n a j := by
  have hj8 : j < 8 := lt_of_lt_of_le hj (by cases n <;> decide)
  have hq := transfer_lt hn a hj
  -- what the load sees of a memory, outside the region of the program
  have hseen : ∀ mem r r₀, r ≠ r₀ → r.contains (transfer n a j).1 = true →
      byte (loadValue (probe n a 0 mem r₀).memory a n) j =
        mem r (r.offset (transfer n a j).1 + BitVec.ofNat 32 (transfer n a j).2) := by
    intro mem r r₀ hr₀ hr
    rw [byte_loadValue hl _ _ hj8, if_pos hj, byte_memRead32 hr _ hq, probe_memory _ _ _ _ hr₀]
  constructor
  · rintro ⟨r, hr⟩
    by_contra hnone
    obtain ⟨r₀, hr₀, -⟩ := exists_other_region r r
    obtain ⟨haddr, -⟩ := Region.cell_address hr hq
    have heq := h.reads_probe hn hl (fun _ _ => 0)
      (spot r (r.offset (transfer n a j).1 + BitVec.ofNat 32 (transfer n a j).2)) r₀ ?_
    · have hbyte := congrArg (fun x => byte x j) heq
      simp only [hseen _ r r₀ hr₀ hr, spot, and_self, if_true] at hbyte
      exact absurd hbyte (by decide)
    · rintro r' o ⟨-, i, hi, hcell⟩
      rw [spot, if_neg]
      rintro ⟨rfl, rfl⟩
      exact hnone ⟨i, hi, haddr.symm.trans hcell⟩
  · rintro hU ⟨r, hr⟩
    obtain ⟨r₀, hr₀, -⟩ := exists_other_region r r
    have hzero := (h.load_probe hn hl
      (spot r (r.offset (transfer n a j).1 + BitVec.ofNat 32 (transfer n a j).2)) r₀).unmapped hU
    have hbyte := hseen (spot r (r.offset (transfer n a j).1 +
      BitVec.ofNat 32 (transfer n a j).2)) r r₀ hr₀ hr
    rw [hzero, byte_zero, spot, if_pos ⟨rfl, rfl⟩] at hbyte
    exact absurd hbyte (by decide)
  · intro r hI
    -- the program avoids both the region of the access and that of the transfer word
    obtain ⟨r', hr'⟩ : ∃ r' : Region, ∀ r'' : Region,
        r''.contains (transfer n a j).1 = true → r'' = r' := by
      by_cases hx : Mapped (transfer n a j).1
      · exact hx.imp fun r' hr' r'' hr'' => Region.contains_unique hr'' hr'
      · exact ⟨r, fun r'' hr'' => absurd ⟨r'', hr''⟩ hx⟩
    obtain ⟨r₀, hr₀, hr₀'⟩ := exists_other_region r r'
    have hbyte := (h.load_probe hn hl (spot r (r.offset (a + BitVec.ofNat 64 j))) r₀).inside
      r hI j hj8
    rw [if_pos hj, probe_memory _ _ _ _ hr₀, spot, if_pos ⟨rfl, rfl⟩] at hbyte
    by_cases hx : Mapped (transfer n a j).1
    · obtain ⟨r'', hr''⟩ := hx
      rw [hseen _ r'' r₀ ((hr' r'' hr'').symm ▸ hr₀') hr'', spot] at hbyte
      split_ifs at hbyte with hcell
      · obtain ⟨rfl, ho⟩ := hcell
        exact ⟨hr'', (Region.cell_address hr'' hq).1.symm.trans
          (ho ▸ Region.start_add_offset (hI j hj))⟩
      · exact absurd hbyte (by decide)
    · rw [byte_loadValue hl _ _ hj8, if_pos hj, byte_memRead32_of_not_mapped hx] at hbyte
      exact absurd hbyte (by decide)

theorem AliasFree.faithful {j : ℕ} (hj : j < accessWidth n) : Faithful n a j := by
  cases hs : n.isStore with
  | true => exact h.faithful_store hn hs hj
  | false => exact h.faithful_load hn ((isStore_eq_false_iff hn).mp hs) hj

end Converse

theorem aliasFree_iff_faithful {n : Name} (hn : n ∈ loadsAndStores) {a : BitVec 64} :
    AliasFree n a ↔ ∀ j < accessWidth n, Faithful n a j :=
  ⟨fun h _ hj => h.faithful hn hj, aliasFree_of_faithful hn⟩

end ArmSim.Verify
