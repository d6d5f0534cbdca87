import ArmSim.Verify.Operands
import ArmSim.Verify.Session

/-! What one cycle leaves alone, for every mnemonic and in every session. -/
namespace ArmSim.Verify
open Shell Sim Spec

/-- The mnemonics that the source gives no destination register. -/
def noDestination : List Name :=
  [.stur, .sturb, .sturh, .b, .bcond, .br, .cbz, .cbnz, .hlt]

/-- The machine `m'` differs from `m` only where one cycle of `n` with the word `w` may write. -/
structure Frame (n : Name) (w : BitVec 32) (m m' : Machine) : Prop where
  reg : ∀ k : BitVec 5, k ≠ rd w ∨ n ∈ noDestination →
    m'.currentState.reg k = m.currentState.reg k
  memory : n ∉ [.stur, .sturb, .sturh] → m'.memory = m.memory
  window : ∃ (r : Region) (o : BitVec 32), ∀ r' o', m'.memory r' o' ≠ m.memory r' o' →
    r' = r ∧ o.toNat ≤ o'.toNat ∧ o'.toNat < o.toNat + 4
  pc : n ∉ [.b, .bcond, .br, .cbz, .cbnz] → m'.currentState.pc = m.currentState.pc + 4
  runBit : n ≠ .hlt → m'.runBit = m.runBit

/-- A word write changes four consecutive bytes of one region at most. -/
theorem setMemory_window (mem : Memory) (store : Option (BitVec 64 × BitVec 32)) :
    ∃ (r : Region) (o : BitVec 32), ∀ r' o', Effect.setMemory mem store r' o' ≠ mem r' o' →
      r' = r ∧ o.toNat ≤ o'.toNat ∧ o'.toNat < o.toNat + 4 := by
  rcases store with _ | ⟨a, v⟩
  · exact ⟨.text, 0, fun r' o' h => absurd rfl h⟩
  · cases hf : findRegion a with
    | none =>
      refine ⟨.text, 0, fun r' o' h => absurd ?_ h⟩
      exact congrFun (congrFun (memWrite32_of_unmapped hf mem v) r') o'
    | some r =>
      have hr := findRegion_eq_some.mp hf
      refine ⟨r, r.offset a, fun r' o' h => ?_⟩
      change memWrite32 mem a v r' o' ≠ _ at h
      rw [memWrite32_of_contains hr] at h
      split_ifs at h with hw
      · obtain ⟨rfl, hlt⟩ := hw
        have hsize := r'.size_le
        have hoff := (Region.offset_of_contains hr).2
        rw [BitVec.toNat_sub] at hlt
        have := o'.isLt
        exact ⟨rfl, by omega, by omega⟩
      · exact absurd rfl h

theorem DecodesTo.memory_eq {u : Indeterminate} {m m' : Machine} {n : Name}
    (h : DecodesTo (fetch m) n) (hn : n.isStore = false) (hc : cycle u m = .ok m') :
    m'.memory = m.memory := by
  obtain ⟨e, he, rfl⟩ := h.cycle_ok_iff.mp hc
  rw [finish_memory]
  cases hstore : e.store with
  | none => rfl
  | some w => exact absurd ((effect_confined he).store w hstore) (by simp [hn])

theorem DecodesTo.frame {u : Indeterminate} {m m' : Machine} {n : Name}
    (h : DecodesTo (fetch m) n) (hm : m.currentState = m.nextState) (hc : cycle u m = .ok m') :
    Frame n (fetch m) m m' := by
  obtain ⟨e, he, rfl⟩ := h.cycle_ok_iff.mp hc
  have hconf := effect_confined he
  constructor
  · intro k hk
    rw [finish_currentState, reg_finish, hm]
    cases hreg : e.reg with
    | none => rfl
    | some w =>
      obtain ⟨hj, hw⟩ := hconf.reg w.1 w.2 hreg
      have hrd : rowType n ∈ [.I, .X, .IW, .R, .D] ∧ n ∉ noDestination := by
        cases n <;> first | (exact absurd hw (by decide)) | decide
      rw [h.rd_eq hrd.1, field_rd] at hj
      have hne : w.1.val ≠ k.toNat := by
        rw [hj]
        exact fun heq => hk.elim (fun hne => hne (BitVec.eq_of_toNat_eq heq.symm)) hrd.2
      simp only [hne, if_false]
  · intro hn
    refine h.memory_eq ?_ hc
    cases n <;> first | rfl | exact absurd (by decide) hn
  · exact setMemory_window m.memory e.store
  · intro hn
    rw [finish_currentState, finish_pc]
    cases hpc : e.pc with
    | none => rfl
    | some t =>
      have hb := (hconf.pc t hpc).1
      cases n <;> first | (exact absurd hb (by decide)) | exact absurd (by decide) hn
  · intro hn
    rw [finish_runBit, hconf.halt, beq_false_of_ne hn]
    rfl

/-- A freshly loaded word completes, unless it is an ADD with bit 21 set. -/
theorem DecodesTo.cycle_oneWord {w : BitVec 32} {n : Name} (h : DecodesTo w n)
    (u : Indeterminate) (h21 : topBits 11 w ≠ 0b10001011001) :
    ∃ m', cycle u (Verify.oneWord w) = .ok m' :=
  h.oneWord.cycle_defined fun h21' => absurd (fetch_oneWord w ▸ h21') h21

/-- In every session the latch is in step between cycles, and a cycle of a named word
completes within its frame as soon as accesses past the register file give some value. -/
theorem session_frame {slack : Memory} {programs : List (List (BitVec 32))} {m : Machine}
    (hs : Session (initializeMachine slack programs) m) :
    m.currentState = m.nextState ∧ ∀ (u : Indeterminate) (n : Name),
      (∀ i, ∃ v, u.register i = some v) → DecodesTo (fetch m) n →
        ∃ m', cycle u m = .ok m' ∧ Frame n (fetch m) m m' := by
  have hm := (Session.wellFormed (.initial slack programs) hs).latched
  refine ⟨hm, fun u n hu h => ?_⟩
  have hread : ∃ v, readReg u m.currentState ((fetch m >>> 16) &&& mask26) = .ok v := by
    unfold readReg
    split
    · exact ⟨_, rfl⟩
    · obtain ⟨v, hv⟩ := hu ((fetch m >>> 16) &&& mask26)
      exact ⟨v, by rw [hv]⟩
  obtain ⟨m', hc⟩ := h.cycle_defined fun _ => hread
  exact ⟨m', hc, h.frame hm hc⟩

/-- ADD X2, X1, X0 after `input 0 7` and a `run` of MOVZ X1, #1. -/
theorem session_frame_add : ∃ m m',
    Session (initializeMachine (fun _ _ => 0) [[0xD2800021, 0x8B000022]]) m ∧
      m.currentState.reg 0 = 7 ∧ m.currentState.reg 1 = 1 ∧ cycle .zeroed m = .ok m' ∧
      Frame .addExtendedRegister 0x8B000022 m m' := by
  have hrun : (input 0 7 (initializeMachine (fun _ _ => 0) [[0xD2800021, 0x8B000022]]) >>=
      run (fun _ => .zeroed) 1).map (fun m => (fetch m, m.currentState.reg 0, m.currentState.reg 1))
        = .ok (0x8B000022, 7, 1) := by decide +kernel
  obtain ⟨m, hm, hword⟩ := Loop.map_ok_iff.mp hrun
  obtain ⟨m₁, hinput, hm⟩ := Loop.bind_ok_iff.mp hm
  obtain ⟨hf, hregs⟩ := Prod.mk.inj hword
  obtain ⟨h0, h1⟩ := Prod.mk.inj hregs
  have hs : Session (initializeMachine (fun _ _ => 0) [[0xD2800021, 0x8B000022]]) m :=
    .command (fun _ => .zeroed) (.run 1) (.command (fun _ => .zeroed) (.input 0 7) .start hinput) hm
  have hd : DecodesTo (fetch m) .addExtendedRegister := by
    rw [hf]
    decide +kernel
  obtain ⟨m', hc, hframe⟩ := (session_frame hs).2 .zeroed _ (fun _ => ⟨0, rfl⟩) hd
  exact ⟨m, m', hs, h0, h1, hc, hf ▸ hframe⟩

end ArmSim.Verify
