import ArmSim.Spec.Transfer
import ArmSim.Verify.Aliasing
import ArmSim.Verify.Step

/-! The loads and stores at an address whose bytes lie in one region. STUR stores half of its
register, LDUR and STURH round the address down, LDURH does not load, and the byte accesses do
what they should. -/
namespace ArmSim.Verify
open Shell Sim Spec Loop Bytes

section Address
variable {r : Region} {a : BitVec 64}

theorem toNat_lt_of_contains (hr : r ≠ .stack) (h : r.contains a = true) :
    a.toNat < 2 ^ 32 := by
  have hend : r ≠ .stack → r.start.toNat + r.size.toNat < 2 ^ 32 := by
    cases r <;> decide
  rw [Region.contains_iff] at h
  have := hend hr
  omega

/-- The first byte that a store writes. -/
def storePlace (n : Name) (a : BitVec 64) : BitVec 64 :=
  storeBase n a + BitVec.ofNat 64 (storeLane n a)

/-- Every store writes the low bytes of its register at that place. -/
theorem store_eq {n : Name} (hn : n.isStore = true) (h : r.contains (storeBase n a) = true)
    (v : BitVec 64) (mem : Memory) :
    memWrite32 mem (storeBase n a) (storeWord mem a v n) =
      storeBytes (accessWidth n) r (storePlace n a) v mem := by
  have hlane : storeLane n a + accessWidth n ≤ 4 := by
    cases n with
    | stur | sturb | sturh => simp only [storeLane, accessWidth]; omega
    | _ => exact absurd hn (by decide)
  funext r' o
  rw [setMemory_storeWord hn]
  unfold storeBytes storePlace
  -- in the region both sides depend on the distance from the word that is written
  by_cases hr : r' = r
  · subst hr
    have hd : (o - r'.offset (storeBase n a + BitVec.ofNat 64 (storeLane n a))).toNat =
        ((o - r'.offset (storeBase n a)).toNat + 2 ^ 32 - storeLane n a) % 2 ^ 32 := by
      rw [Region.offset_add, ← sub_sub, BitVec.toNat_sub, BitVec.toNat_ofNat]
      omega
    have hlt := (o - r'.offset (storeBase n a)).isLt
    rw [hd]
    generalize (o - r'.offset (storeBase n a)).toNat = d at hlt
    by_cases hin : storeLane n a ≤ d ∧ d < storeLane n a + accessWidth n
    · rw [if_pos ⟨h, hin⟩, if_pos ⟨rfl, by omega⟩]
      congr 1
      omega
    · rw [if_neg fun hx => hin hx.2, if_neg fun hx => hin (by omega)]
  · have hno : ¬ r'.contains (storeBase n a) = true :=
      fun hx => hr (Region.contains_unique hx h)
    rw [if_neg fun hx => hno hx.1, if_neg fun hx => hr hx.1]

theorem storePlace_stur (a : BitVec 64) : storePlace .stur a = a := BitVec.add_zero a

theorem storePlace_sturb (ha : a.toNat < 2 ^ 32) : storePlace .sturb a = a := by
  apply BitVec.eq_of_toNat_eq
  change (narrowed a + BitVec.ofNat 64 (a.toNat % 4)).toNat = a.toNat
  rw [BitVec.toNat_add, BitVec.toNat_ofNat, toNat_narrowed]
  omega

theorem storePlace_sturh (ha : a.toNat < 2 ^ 32) :
    storePlace .sturh a = a - BitVec.ofNat 64 (a.toNat % 2) := by
  apply BitVec.eq_of_toNat_eq
  change (narrowed a + BitVec.ofNat 64 (a.toNat / 2 % 2 * 2)).toNat = _
  rw [BitVec.toNat_add, BitVec.toNat_ofNat, toNat_narrowed, BitVec.toNat_sub,
    BitVec.toNat_ofNat]
  omega

/-- The word at which a store starts is in the region of its address. -/
theorem contains_storeBase {n : Name} (hr : r ≠ .stack) (h : r.contains a = true) :
    r.contains (storeBase n a) = true := by
  have hnarrow := contains_narrowed (toNat_lt_of_contains hr h) r
  cases n <;> first | exact h | exact hnarrow.trans h

end Address

section Store
variable {op : BitVec 11} {n : Name} {u : Indeterminate} {m : Machine} {imm : BitVec 9}
  {xn xt : BitVec 5} {r : Region}

theorem accessAddress_transferWord (s : CpuState) : accessAddress s (transferWord op imm xn xt) =
    baseOffset s xn imm := by
  unfold accessAddress baseOffset
  rw [rn_transferWord, offset9_transferWord]

/-- What a cycle of a store leaves. -/
theorem cycle_store (hd : DecodesTo (transferWord op 0 0 0) n) (hn : n.isStore = true)
    (hf : fetch m = transferWord op imm xn xt)
    (hr : r.contains (storeBase n (baseOffset m.currentState xn imm)) = true) :
    ∃ store, cycle u m = .ok (finish { store } m) ∧ (finish { store } m).memory =
      storeBytes (accessWidth n) r (storePlace n (baseOffset m.currentState xn imm))
        (m.currentState.reg xt) m.memory := by
  have h : DecodesTo (fetch m) n := hf ▸ transferWord_decodes hd imm xn xt
  refine ⟨_, h.cycle_eq (h.effect_store u m.currentState m.memory hn u.instrDef), ?_⟩
  rw [finish_memory, hf, accessAddress_transferWord, rd_transferWord]
  exact store_eq hn hr _ _

/-- STUR stores its doubleword, and touches nothing else, exactly when the upper four bytes are
there already. -/
theorem stur_iff (u : Indeterminate) (m : Machine) (imm : BitVec 9) (xn xt : BitVec 5)
    (r : Region) (hm : m.currentState = m.nextState)
    (hf : fetch m = transferWord 0b11111000000 imm xn xt)
    (hr : Inside r (baseOffset m.currentState xn imm) 8) :
    Yields (cycle u m) (fun m' =>
      m'.memory = storeBytes 8 r (baseOffset m.currentState xn imm)
        (m.currentState.reg xt) m.memory ∧ SameRegisters m.currentState m'.currentState) ↔
      ∀ j, 4 ≤ j → j < 8 → bytesAt m.memory r (baseOffset m.currentState xn imm) j =
        byte (m.currentState.reg xt) j := by
  obtain ⟨store, hc, hmem⟩ := cycle_store (u := u) (n := .stur) (by decide) rfl hf
    (hr.contains (by decide))
  rw [yields_iff hc, hmem, storePlace_stur, and_iff_left (SameRegisters.of_finish hm store none)]
  exact storeBytes_eq_iff _ _ (by decide) (by decide) _ _

/-- STUR of a number below 2 ^ 32 to zeroed memory. -/
theorem stur_iff_word :
    Yields (cycle .zeroed (probe .stur memDataStart 0x12345678 (fun _ _ => 0) .text)) fun m' =>
      m'.memory = storeBytes 8 .data memDataStart 0x12345678
        (probe .stur memDataStart 0x12345678 (fun _ _ => 0) .text).memory ∧
      SameRegisters (probe .stur memDataStart 0x12345678 (fun _ _ => 0) .text).currentState
        m'.currentState := by
  have hf : fetch (probe .stur memDataStart 0x12345678 (fun _ _ => 0) .text) =
      transferWord 0b11111000000 0 0 1 := (fetch_probe _ _ _ _).trans (by decide)
  have hr : Inside .data memDataStart 8 := by decide
  refine (stur_iff _ _ 0 0 1 .data rfl hf hr).mpr fun j hlow hhigh => ?_
  have hzero : bytesAt (probe .stur memDataStart 0x12345678 (fun _ _ => 0) .text).memory .data
      memDataStart j = 0 := probe_memory _ _ _ _ (by decide) _
  have hbyte : ∀ j < 8, 4 ≤ j → byte (0x12345678 : BitVec 64) j = 0 := by decide
  exact hzero.trans (hbyte j hhigh hlow).symm

/-- STUR of 2 ^ 32 to zeroed memory. -/
theorem not_stur : ¬ ∀ (u : Indeterminate) (m : Machine) (imm : BitVec 9) (xn xt : BitVec 5)
    (r : Region), r ≠ .stack → m.currentState = m.nextState →
      fetch m = transferWord 0b11111000000 imm xn xt →
      Inside r (baseOffset m.currentState xn imm) 8 →
      Yields (cycle u m) fun m' =>
        m'.memory = storeBytes 8 r (baseOffset m.currentState xn imm)
          (m.currentState.reg xt) m.memory ∧ SameRegisters m.currentState m'.currentState := by
  intro hall
  have hf : fetch (probe .stur memDataStart 0x100000000 (fun _ _ => 0) .text) =
      transferWord 0b11111000000 0 0 1 := (fetch_probe _ _ _ _).trans (by decide)
  have hr : Inside .data memDataStart 8 := by decide
  obtain ⟨store, hc, hmem⟩ := cycle_store (u := .zeroed) (n := .stur) (r := .data) (by decide)
    rfl hf (by decide)
  have hmem' := ((yields_iff hc).mp (hall .zeroed _ 0 0 1 .data (by decide) rfl hf hr)).1
  rw [hmem, storePlace_stur] at hmem'
  have hzero := (storeBytes_eq_iff _ _ (by decide) (by decide) _ _).mp hmem' 4 (by decide)
    (by decide)
  have hcell := probe_memory (n := .stur) memDataStart 0x100000000 (fun _ _ => 0) .text
    (by decide : Region.data ≠ .text) (Region.offset .data (memDataStart + BitVec.ofNat 64 4))
  exact absurd (hcell.symm.trans hzero) (by decide)

end Store

section Load
variable {r : Region} {a : BitVec 64} (mem : Memory)

theorem byte_memRead32_at (h : r.contains a = true) {j : ℕ} (hj : j < 4) :
    byte (memRead32 mem a) j = bytesAt mem r a j := by
  rw [byte_memRead32 h mem hj, bytesAt, Region.offset_add]

theorem bytesAt_add (i j : ℕ) :
    bytesAt mem r (a + BitVec.ofNat 64 i) j = bytesAt mem r a (i + j) := by
  unfold bytesAt
  rw [BitVec.ofNat_add, add_assoc]

/-- LDUR loads the doubleword at the address rounded down. -/
theorem loadDoubleword_eq (hlow : r.contains (narrowed a) = true)
    (hhigh : highWord a = narrowed a + BitVec.ofNat 64 4)
    (hcontains : r.contains (highWord a) = true) :
    loadDoubleword mem a = loadBytes 8 r (narrowed a) mem := by
  apply eq_of_bytes (n := 8) rfl
  intro j hj
  unfold loadBytes
  rw [byte_loadDoubleword mem a hj, byte_ofBytes _ _ (by omega), if_pos hj]
  split
  · exact byte_memRead32_at mem hlow ‹_›
  · change byte (memRead32 mem (highWord a)) (j - 4) = _
    rw [byte_memRead32_at mem hcontains (by omega), hhigh, bytesAt_add,
      Nat.add_sub_cancel' (by omega)]

/-- A byte load is right at every address of the text and data regions. -/
theorem loadByte_eq_cell (hr : r ≠ .stack) (h : r.contains a = true) :
    loadByte mem a = mem r (r.offset a) := by
  have hlt := toNat_lt_of_contains hr h
  have hplace : narrowed a + BitVec.ofNat 64 (a.toNat % 4) = a := storePlace_sturb hlt
  rw [loadByte_eq, byte_memRead32_at mem ((contains_narrowed hlt r).trans h) (by omega),
    bytesAt, hplace]

/-- The low half of a doubleword is the word at its address. -/
theorem loadBytes_low (h : r.contains a = true) :
    (loadBytes 8 r a mem).setWidth 32 = memRead32 mem a := by
  apply eq_of_bytes (n := 4) rfl
  intro j hj
  unfold loadBytes
  rw [byte_truncate _ (by omega), byte_ofBytes _ _ (by omega), if_pos (by omega),
    byte_memRead32_at mem h hj]

/-- The second word of LDUR follows the first when the access stays in a region below 2 ^ 32. -/
theorem highWord_of_inside (hr : r ≠ .stack) (h : Inside r a 8) :
    highWord a = narrowed a + BitVec.ofNat 64 4 ∧ r.contains (highWord a) = true := by
  have hfirst := h.contains (by decide)
  have hlast := h 7 (by decide)
  have hlt := toNat_lt_of_contains hr hlast
  have hb := r.bounds
  have ha := toNat_lt_of_contains hr hfirst
  rw [BitVec.toNat_add, BitVec.toNat_ofNat] at hlt
  rw [Region.contains_iff] at hfirst hlast ⊢
  rw [BitVec.toNat_add, BitVec.toNat_ofNat] at hlast
  rw [toNat_highWord]
  constructor
  · apply BitVec.eq_of_toNat_eq
    rw [toNat_highWord, BitVec.toNat_add, BitVec.toNat_ofNat, toNat_narrowed]
    omega
  · omega

theorem loadDoubleword_eq_iff (hr : r ≠ .stack) (h : Inside r a 8) :
    loadDoubleword mem a = loadBytes 8 r a mem ↔
      ∀ j < 8, bytesAt mem r (narrowed a) j = bytesAt mem r a j := by
  have ha := h.contains (by decide)
  have hnarrow := (contains_narrowed (toNat_lt_of_contains hr ha) r).trans ha
  obtain ⟨hhigh, hcontains⟩ := highWord_of_inside hr h
  rw [loadDoubleword_eq mem hnarrow hhigh hcontains]
  exact ofBytes_eq_iff (n := 8) (le_refl 8)

/-- What a cycle of LDUR or LDURB leaves. -/
theorem cycle_load {op : BitVec 11} {n : Name} (u : Indeterminate) {m : Machine} {imm : BitVec 9}
    {xn xt : BitVec 5} (hl : n = .ldur ∨ n = .ldurb) (hd : DecodesTo (transferWord op 0 0 0) n)
    (hm : m.currentState = m.nextState) (hf : fetch m = transferWord op imm xn xt) :
    ∃ m', cycle u m = .ok m' ∧ m'.currentState.reg xt =
      loadValue m.memory (baseOffset m.currentState xn imm) n ∧ OnlyWrites xt m m' := by
  have h : DecodesTo (fetch m) n := hf ▸ transferWord_decodes hd imm xn xt
  have hr : result m.currentState m.memory (fetch m) n =
      some (loadValue m.memory (accessAddress m.currentState (fetch m)) n) := by
    rcases hl with rfl | rfl <;> rfl
  have hn : n ≠ .addExtendedRegister ∧ n.setsFlags = false := by
    rcases hl with rfl | rfl <;> decide
  have hstep : ∃ m', cycle u m = .ok m' ∧ OnlyWrites (rd (fetch m)) m m' :=
    ⟨_, h.cycle_result (absurd · hn.1) hr, .of_writeback hn.2 hm (fetch m) _⟩
  obtain ⟨m', hc, honly⟩ := hstep
  have hreg := h.load_reg hl hc
  have hrd : rd (fetch m) = xt := by rw [hf, rd_transferWord]
  have haddr : accessAddress m.currentState (fetch m) =
      baseOffset m.currentState xn imm := by
    rw [hf, accessAddress_transferWord]
  rw [hrd, haddr] at hreg
  rw [hrd] at honly
  exact ⟨m', hc, hreg, honly⟩

/-- LDUR loads the doubleword at its address, and touches nothing else, exactly when that is the
one at the address rounded down. -/
theorem ldur_iff (u : Indeterminate) (m : Machine) (imm : BitVec 9) (xn xt : BitVec 5)
    (r : Region) (hm : m.currentState = m.nextState)
    (hf : fetch m = transferWord 0b11111000010 imm xn xt) (hr : r ≠ .stack)
    (hin : Inside r (baseOffset m.currentState xn imm) 8) :
    Yields (cycle u m) (fun m' =>
      m'.currentState.reg xt = loadBytes 8 r (baseOffset m.currentState xn imm) m.memory ∧
      (m'.currentState.reg xt).setWidth 32 =
        memRead32 m.memory (baseOffset m.currentState xn imm) ∧ OnlyWrites xt m m') ↔
      (baseOffset m.currentState xn imm).toNat % 4 = 0 ∨ ∀ j < 8,
        bytesAt m.memory r (narrowed (baseOffset m.currentState xn imm)) j =
          bytesAt m.memory r (baseOffset m.currentState xn imm) j := by
  obtain ⟨m', hc, hreg, honly⟩ := cycle_load u (.inl rfl) (by decide) hm hf
  generalize baseOffset m.currentState xn imm = a at hin hreg ⊢
  have ha := hin.contains (by decide)
  have hlt := toNat_lt_of_contains hr ha
  have hiff := loadDoubleword_eq_iff m.memory hr hin
  rw [yields_iff hc, hreg]
  constructor
  · exact fun h => .inr (hiff.mp h.1)
  · intro h
    have heq : loadDoubleword m.memory a = loadBytes 8 r a m.memory := by
      rcases h with haligned | hsame
      · have hnarrow : narrowed a = a := by
          apply BitVec.eq_of_toNat_eq
          rw [toNat_narrowed]
          omega
        exact hiff.mpr fun j _ => by rw [hnarrow]
      · exact hiff.mpr hsame
    exact ⟨heq, (congrArg _ heq).trans (loadBytes_low m.memory ha), honly⟩

/-- LDUR from memory in which byte `o` of each region holds `o + 1`. -/
theorem ldur_iff_bytes :
    Yields (cycle .zeroed (probe .ldur memDataStart 0 (fun _ o => o.setWidth 8 + 1) .text))
      fun m' => m'.currentState.reg 1 = 0x0807060504030201 := by
  have hf : fetch (probe .ldur memDataStart 0 (fun _ o => o.setWidth 8 + 1) .text) =
      transferWord 0b11111000010 0 0 1 := (fetch_probe _ _ _ _).trans (by decide)
  have hr : Inside .data memDataStart 8 := by decide
  obtain ⟨m', hc, hload, -⟩ :=
    (ldur_iff .zeroed _ 0 0 1 .data rfl hf (by decide) hr).mpr (.inl (by decide))
  have hcells : loadBytes 8 .data memDataStart
      (probe .ldur memDataStart 0 (fun _ o => o.setWidth 8 + 1) .text).memory =
        loadBytes 8 .data memDataStart fun _ o => o.setWidth 8 + 1 := by
    unfold loadBytes bytesAt
    exact congrArg (fun f => ofBytes 64 f 8) (funext fun j => probe_memory _ _ _ _ (by decide) _)
  exact ⟨m', hc, hload.trans (hcells.trans (by decide))⟩

/-- LDUR from the address behind the only nonzero byte. -/
theorem not_ldur : ¬ ∀ (u : Indeterminate) (m : Machine) (imm : BitVec 9) (xn xt : BitVec 5)
    (r : Region), xt ≠ 31 → m.currentState = m.nextState →
      fetch m = transferWord 0b11111000010 imm xn xt → r ≠ .stack →
      Inside r (baseOffset m.currentState xn imm) 8 →
      Yields (cycle u m) fun m' =>
        m'.currentState.reg xt =
          loadBytes 8 r (baseOffset m.currentState xn imm) m.memory ∧
        (m'.currentState.reg xt).setWidth 32 =
          memRead32 m.memory (baseOffset m.currentState xn imm) ∧
        OnlyWrites xt m m' := by
  intro hall
  have hf : fetch (probe .ldur (memDataStart + 1) 0 (spot .data 0) .text) =
      transferWord 0b11111000010 0 0 1 := (fetch_probe _ _ _ _).trans (by decide)
  have hr : Inside .data (memDataStart + 1) 8 := by decide
  obtain ⟨m', hc, hload, -⟩ := cycle_load .zeroed (.inl rfl) (by decide) rfl hf
  have hreg := ((yields_iff hc).mp
    (hall .zeroed _ 0 0 1 .data (by decide) rfl hf (by decide) hr)).1
  have hbyte := (loadDoubleword_eq_iff _ (by decide) hr).mp (hload.symm.trans hreg) 0 (by decide)
  have hcell := probe_memory (n := .ldur) (memDataStart + 1) 0 (spot .data 0) .text
    (by decide : Region.data ≠ .text)
  exact absurd ((hcell _).symm.trans (hbyte.trans (hcell _))) (by decide)

end Load

end ArmSim.Verify
