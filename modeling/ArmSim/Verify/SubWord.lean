import ArmSim.Verify.Transfers

/-! The halfword and byte accesses in the text and data regions. STURH drops the lowest bit of
its address and LDURH loads nothing; STURB and LDURB are right at every address. -/
namespace ArmSim.Verify
open Shell Sim Spec Loop Bytes

section Halfword
variable {u : Indeterminate} {m : Machine} {imm : BitVec 9} {xn xt : BitVec 5} {r : Region}
  {a : BitVec 64}

/-- What STURH stores is what it should store. -/
theorem sturh_place_iff (ha : a.toNat < 2 ^ 32) (v : BitVec 64) (mem : Memory) :
    storeBytes 2 r (storePlace .sturh a) v mem = storeBytes 2 r a v mem ↔
      a.toNat % 2 = 0 ∨ byte v 0 = byte v 1 ∧ bytesAt mem r (a - 1) 0 = byte v 0 ∧
        bytesAt mem r a 1 = byte v 1 := by
  rw [storePlace_sturh ha]
  rcases Nat.mod_two_eq_zero_or_one a.toNat with heven | hodd
  · have hplace : a - BitVec.ofNat 64 0 = a := sub_zero a
    rw [heven, hplace]
    simp only [true_or]
  · have hback : a - 1 + BitVec.ofNat 64 1 = a := sub_add_cancel a 1
    have habove : bytesAt mem r (a - 1) 2 = bytesAt mem r a 1 := by
      conv_rhs => rw [← hback, bytesAt_add]
    have hshift := storeBytes_shift_iff r (a - 1) v mem
    rw [hback, habove] at hshift
    rw [hodd, or_iff_right (by decide)]
    exact hshift

theorem sturh_yields (hr : r ≠ .stack)
    (hin : Inside r (baseOffset m.currentState xn imm) 2)
    (hf : fetch m = transferWord 0b01111000000 imm xn xt) :
    Yields (cycle u m) (fun m' =>
      m'.memory = storeBytes 2 r (baseOffset m.currentState xn imm)
        (m.currentState.reg xt) m.memory) ↔
      (baseOffset m.currentState xn imm).toNat % 2 = 0 ∨
        byte (m.currentState.reg xt) 0 = byte (m.currentState.reg xt) 1 ∧
        bytesAt m.memory r (baseOffset m.currentState xn imm - 1) 0 =
          byte (m.currentState.reg xt) 0 ∧
        bytesAt m.memory r (baseOffset m.currentState xn imm) 1 =
          byte (m.currentState.reg xt) 1 := by
  have ha := hin.contains (by decide)
  obtain ⟨store, hc, hmem⟩ := cycle_store (u := u) (n := .sturh) (by decide) rfl hf
    (contains_storeBase hr ha)
  rw [yields_iff hc, hmem]
  exact sturh_place_iff (toNat_lt_of_contains hr ha) _ _

/-- A cycle of LDURH leaves the register file of the latch. -/
theorem cycle_ldurh (hf : fetch m = transferWord 0b01111000010 imm xn xt) :
    ∃ m', cycle u m = .ok m' ∧ ∀ k, m'.currentState.reg k = m.nextState.reg k := by
  have h : DecodesTo (fetch m) .ldurh := hf ▸ transferWord_decodes (by decide) imm xn xt
  have htop : topBits 11 (fetch m) ≠ 0b10001011001 := by
    rw [hf, topBits_transferWord]
    decide
  obtain ⟨m', hc⟩ := h.cycle_defined (u := u) fun h21 => absurd h21 htop
  exact ⟨m', hc, h.reg_kept rfl hc⟩

theorem ldurh_yields (hf : fetch m = transferWord 0b01111000010 imm xn xt) (v : BitVec 64) :
    Yields (cycle u m) (fun m' => m'.currentState.reg xt = v) ↔ m.nextState.reg xt = v := by
  obtain ⟨m', hc, hreg⟩ := cycle_ldurh (u := u) hf
  rw [yields_iff hc, hreg]

/-- STURH stores its halfword exactly at the even addresses, up to bytes that are all the same
anyway; LDURH, also behind STURH, gives what the latch holds for its register already. -/
theorem halfword_transfers (u : Indeterminate) (m : Machine) (imm : BitVec 9) (xn xt : BitVec 5)
    (r : Region) (hr : r ≠ .stack) (hin : Inside r (baseOffset m.currentState xn imm) 2) :
    (fetch m = transferWord 0b01111000000 imm xn xt →
      (Yields (cycle u m) (fun m' =>
        m'.memory = storeBytes 2 r (baseOffset m.currentState xn imm) (m.currentState.reg xt)
          m.memory) ↔
        (baseOffset m.currentState xn imm).toNat % 2 = 0 ∨
          byte (m.currentState.reg xt) 0 = byte (m.currentState.reg xt) 1 ∧
          bytesAt m.memory r (baseOffset m.currentState xn imm - 1) 0 =
            byte (m.currentState.reg xt) 0 ∧
          bytesAt m.memory r (baseOffset m.currentState xn imm) 1 =
            byte (m.currentState.reg xt) 1)) ∧
    (fetch m = transferWord 0b01111000010 imm xn xt →
      (Yields (cycle u m) (fun m' => m'.currentState.reg xt =
        loadBytes 2 r (baseOffset m.currentState xn imm) m.memory) ↔
        m.nextState.reg xt = loadBytes 2 r (baseOffset m.currentState xn imm) m.memory)) ∧
    (fetch m = transferWord 0b01111000000 imm xn xt → Yields (cycle u m) fun m₁ =>
      ∀ (u₁ : Indeterminate) (imm₁ : BitVec 9) (xn₁ xt₁ : BitVec 5),
        fetch m₁ = transferWord 0b01111000010 imm₁ xn₁ xt₁ →
        baseOffset m₁.currentState xn₁ imm₁ = baseOffset m.currentState xn imm →
        (Yields (cycle u₁ m₁) (fun m₂ => m₂.currentState.reg xt₁ =
          ((m.currentState.reg xt).setWidth 16).setWidth 64) ↔
          m.nextState.reg xt₁ = ((m.currentState.reg xt).setWidth 16).setWidth 64)) := by
  refine ⟨sturh_yields hr hin, fun hf => ldurh_yields hf _, fun hf => ?_⟩
  obtain ⟨store, hc, -⟩ := cycle_store (u := u) (n := .sturh) (by decide) rfl hf
    (contains_storeBase hr (hin.contains (by decide)))
  rw [yields_iff hc]
  exact fun u₁ imm₁ xn₁ xt₁ hf₁ _ => ldurh_yields hf₁ _

/-- STURH to an even address. -/
theorem halfword_transfers_even :
    Yields (cycle .zeroed (probe .sturh memDataStart 1 (fun _ _ => 0) .text)) fun m' =>
      m'.memory = storeBytes 2 .data memDataStart 1
        (probe .sturh memDataStart 1 (fun _ _ => 0) .text).memory := by
  have hf : fetch (probe .sturh memDataStart 1 (fun _ _ => 0) .text) =
      transferWord 0b01111000000 0 0 1 := (fetch_probe _ _ _ _).trans (by decide)
  have hin : Inside .data memDataStart 2 := by decide
  exact ((halfword_transfers .zeroed (probe .sturh memDataStart 1 (fun _ _ => 0) .text) 0 0 1
    .data (by decide) hin).1 hf).mpr (.inl (by decide))

/-- LDURH of a nonzero halfword to a register that holds 0. -/
theorem not_halfword_transfers : ¬ ∀ (u : Indeterminate) (m : Machine) (imm : BitVec 9)
    (xn xt : BitVec 5) (r : Region), r ≠ .stack →
      Inside r (baseOffset m.currentState xn imm) 2 →
      (fetch m = transferWord 0b01111000000 imm xn xt → Yields (cycle u m) fun m' =>
        m'.memory = storeBytes 2 r (baseOffset m.currentState xn imm) (m.currentState.reg xt)
          m.memory) ∧
      (fetch m = transferWord 0b01111000010 imm xn xt → xt ≠ 31 → Yields (cycle u m) fun m' =>
        m'.currentState.reg xt =
          loadBytes 2 r (baseOffset m.currentState xn imm) m.memory) := by
  intro hall
  have hf : fetch (probe .ldurh memDataStart 0 (spot .data 0) .text) =
      transferWord 0b01111000010 0 0 1 := (fetch_probe _ _ _ _).trans (by decide)
  have hin : Inside .data memDataStart 2 := by decide
  have hkept := (ldurh_yields hf _).mp
    ((hall .zeroed (probe .ldurh memDataStart 0 (spot .data 0) .text) 0 0 1 .data (by decide)
      hin).2 hf (by decide))
  have hbyte := congrArg (fun v => byte v 0) hkept
  rw [loadBytes, byte_ofBytes _ _ (by decide), if_pos (by decide)] at hbyte
  have hcell := probe_memory (n := .ldurh) memDataStart 0 (spot .data 0) .text
    (by decide : Region.data ≠ .text)
  exact absurd (hbyte.trans (hcell _)) (by decide)

end Halfword

section Byte
variable {u : Indeterminate} {m : Machine} {imm : BitVec 9} {xn xt : BitVec 5} {r : Region}

theorem cycle_sturb (u : Indeterminate) (hr : r ≠ .stack)
    (ha : r.contains (baseOffset m.currentState xn imm) = true)
    (hm : m.currentState = m.nextState) (hf : fetch m = transferWord 0b00111000000 imm xn xt) :
    ∃ m', cycle u m = .ok m' ∧ m'.currentState = m'.nextState ∧
      m'.memory = storeBytes 1 r (baseOffset m.currentState xn imm) (m.currentState.reg xt)
        m.memory ∧ SameRegisters m.currentState m'.currentState := by
  obtain ⟨store, hc, hmem⟩ := cycle_store (u := u) (n := .sturb) (by decide) rfl hf
    (contains_storeBase hr ha)
  rw [storePlace_sturb (toNat_lt_of_contains hr ha)] at hmem
  exact ⟨_, hc, rfl, hmem, .of_finish hm store none⟩

theorem cycle_ldurb (u : Indeterminate) (hr : r ≠ .stack)
    (ha : r.contains (baseOffset m.currentState xn imm) = true)
    (hm : m.currentState = m.nextState) (hf : fetch m = transferWord 0b00111000010 imm xn xt) :
    Yields (cycle u m) fun m' => m'.currentState.reg xt =
      (bytesAt m.memory r (baseOffset m.currentState xn imm) 0).setWidth 64 := by
  obtain ⟨m', hc, hreg, -⟩ := cycle_load u (.inr rfl) (by decide) hm hf
  have hzero : baseOffset m.currentState xn imm + BitVec.ofNat 64 0 =
      baseOffset m.currentState xn imm := add_zero _
  rw [yields_iff hc, hreg, bytesAt, hzero, ← loadByte_eq_cell m.memory hr ha]
  rfl

/-- A byte load after a byte store. -/
theorem bytesAt_after_store {r r₁ : Region} {a b : BitVec 64} (ha : r.contains a = true)
    (hb : r₁.contains b = true) (v : BitVec 64) (mem : Memory) :
    bytesAt (storeBytes 1 r a v mem) r₁ b 0 = if b = a then byte v 0 else bytesAt mem r₁ b 0 := by
  by_cases hr : r₁ = r
  · subst hr
    have hzero : b + BitVec.ofNat 64 0 = b := add_zero b
    have hcell : (r₁.offset b - r₁.offset a).toNat < 1 ↔ b = a := by
      rw [Nat.lt_one_iff]
      constructor
      · intro h
        have hoff : r₁.offset b = r₁.offset a := sub_eq_zero.mp (BitVec.eq_of_toNat_eq h)
        rw [← Region.start_add_offset ha, ← Region.start_add_offset hb, hoff]
      · rintro rfl
        rw [sub_self]
        rfl
    unfold bytesAt storeBytes
    rw [hzero]
    by_cases h : b = a
    · subst h
      rw [if_pos ⟨rfl, hcell.mpr rfl⟩, if_pos rfl, sub_self]
      rfl
    · rw [if_neg fun hx => h (hcell.mp hx.2), if_neg h]
  · have hne : b ≠ a := by
      rintro rfl
      exact hr (Region.contains_unique hb ha)
    rw [if_neg hne, bytesAt, bytesAt, storeBytes_other r a v mem hr]

/-- STURB stores a byte and does nothing else, LDURB loads one, and behind STURB it gives the
byte that was stored or, at any other address, the one that was there before. -/
theorem byte_transfers (u : Indeterminate) (m : Machine) (imm : BitVec 9) (xn xt : BitVec 5)
    (r : Region) (hr : r ≠ .stack) (hm : m.currentState = m.nextState)
    (ha : r.contains (baseOffset m.currentState xn imm) = true) :
    (fetch m = transferWord 0b00111000000 imm xn xt → Yields (cycle u m) fun m₁ =>
      m₁.memory = storeBytes 1 r (baseOffset m.currentState xn imm) (m.currentState.reg xt)
        m.memory ∧ SameRegisters m.currentState m₁.currentState ∧
      ∀ (u₁ : Indeterminate) (imm₁ : BitVec 9) (xn₁ xt₁ : BitVec 5) (r₁ : Region), r₁ ≠ .stack →
        r₁.contains (baseOffset m₁.currentState xn₁ imm₁) = true →
        fetch m₁ = transferWord 0b00111000010 imm₁ xn₁ xt₁ → Yields (cycle u₁ m₁) fun m₂ =>
          m₂.currentState.reg xt₁ = (if baseOffset m₁.currentState xn₁ imm₁ =
              baseOffset m.currentState xn imm then byte (m.currentState.reg xt) 0
            else bytesAt m.memory r₁ (baseOffset m₁.currentState xn₁ imm₁) 0).setWidth 64) ∧
    (fetch m = transferWord 0b00111000010 imm xn xt → Yields (cycle u m) fun m' =>
      m'.currentState.reg xt =
        (bytesAt m.memory r (baseOffset m.currentState xn imm) 0).setWidth 64) := by
  refine ⟨fun hf => ?_, cycle_ldurb u hr ha hm⟩
  obtain ⟨m₁, hc, hm₁, hmem, hregs⟩ := cycle_sturb u hr ha hm hf
  refine (yields_iff hc).mpr ⟨hmem, hregs, fun u₁ imm₁ xn₁ xt₁ r₁ hr₁ hb hf₁ => ?_⟩
  have hload := cycle_ldurb u₁ hr₁ hb hm₁ hf₁
  rwa [hmem, bytesAt_after_store ha hb] at hload

/-- STURB of 7 to the last byte of a word. -/
theorem byte_transfers_lane :
    Yields (cycle .zeroed (probe .sturb (memDataStart + 3) 7 (fun _ _ => 0) .text)) fun m' =>
      m'.memory = storeBytes 1 .data (memDataStart + 3) 7
        (probe .sturb (memDataStart + 3) 7 (fun _ _ => 0) .text).memory := by
  have hf : fetch (probe .sturb (memDataStart + 3) 7 (fun _ _ => 0) .text) =
      transferWord 0b00111000000 0 0 1 := (fetch_probe _ _ _ _).trans (by decide)
  obtain ⟨m', hc, hmem, -⟩ := (byte_transfers .zeroed
    (probe .sturb (memDataStart + 3) 7 (fun _ _ => 0) .text) 0 0 1 .data (by decide) rfl
    (by decide)).1 hf
  exact ⟨m', hc, hmem⟩

end Byte

end ArmSim.Verify
