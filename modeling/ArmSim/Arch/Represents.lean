import ArmSim.Arch.Instruction
import ArmSim.Core.Simulation
import ArmSim.Verify.SubWord

/-! When the simulator's machine stands for a state of the architecture, and the instructions that
keep it so. -/
namespace ArmSim.Arch
open Shell Sim Spec Verify Loop Bytes

/-- A state together with whether the simulator's flags are those of the state: MOVZ and LSL
overwrite them. -/
structure Tracked where
  state : State
  live : Bool

/-- The bytes lie in one region, below the one that the narrowed addresses do not reach. -/
def Accessible (a : BitVec 64) (k : ℕ) : Prop := ∃ r ≠ Region.stack, Inside r a k

/-- A result goes to a register, or is the 0 that register 31 stands for. -/
def Lands (xd : BitVec 5) (r : BitVec 64) : Prop := xd = 31 → r = 0

/-- What is known of the bit that CBNZ finds in a field that is never set. -/
def Leftover (u : Indeterminate) (stale : Option Bool) : Prop :=
  ∀ b ∈ stale, u.instrDef.brAddress.getLsbD 18 = b

theorem leftover_none {u : Indeterminate} : Leftover u none := by
  simp [Leftover]

/-- What the simulator takes for granted at each instruction. -/
def Supported (stale : Option Bool) (c : Tracked) : Instr → Prop
  | .register op xm xn xd =>
    (op = .orr → c.state.reg xn ||| c.state.reg 0 = c.state.reg xn ||| c.state.reg xm) ∧
      (op = .add ∨ op = .subs ∨ Lands xd (op.value (c.state.reg xn) (c.state.reg xm)))
  | .immediate op sh imm xn xd =>
    (sh = false ∨ imm = 0) ∧ xn ≠ 31 ∧ (op = .add → xd ≠ 31) ∧
      (op = .adds → Lands xd (c.state.reg xn + imm.setWidth 64))
  | .movz hw imm xd => (hw = 0 ∨ imm = 0) ∧ Lands xd (imm.setWidth 64)
  | .lsl amount xn xd =>
    (amount.val ≤ 32 ∨ c.state.reg xn = 0) ∧ Lands xd (c.state.reg xn <<< amount.val)
  | .lsr amount xn xd =>
    (amount.val < 32 ∨ c.state.reg xn = 0) ∧ Lands xd (c.state.reg xn >>> amount.val)
  | .store size imm xn xt =>
    xn ≠ 31 ∧ Accessible (c.state.address xn imm) size.bytes ∧ match size with
      | .byte => True
      | .half => (c.state.address xn imm).toNat % 2 = 0
      | .double => ∀ j, 4 ≤ j → j < 8 →
        c.state.mem (c.state.address xn imm + BitVec.ofNat 64 j) = byte (c.state.reg xt) j
  | .load size imm xn xt =>
    let v := loadAt size.bytes (c.state.address xn imm) c.state.mem
    match size with
    | .byte => xn ≠ 31 ∧ Accessible (c.state.address xn imm) 1 ∧ Lands xt v
    | .half => xt = 31 ∨ c.state.reg xt = v
    | .double => xn ≠ 31 ∧ Accessible (c.state.address xn imm) 8 ∧
      (c.state.address xn imm).toNat % 4 = 0 ∧ Lands xt v
  | .b imm => imm.toNat < 64
  | .bcond cond _ => c.live = true ∧ (cond = .eq ∨ cond = .ne ∨ c.state.flags.v = false)
  | .br xn => c.state.reg xn % 4 = 0
  | .cbz _ _ => True
  | .cbnz imm xt => c.state.reg xt = 0 ∨ stale = some imm.msb
  | .hlt _ => True

/-- Whether the flags are right after an instruction. -/
def Instr.keepsFlags (live : Bool) : Instr → Bool
  | register op _ _ _ => live || (op.flags 0 0).isSome
  | immediate op _ _ _ _ => live || (op.op.flags 0 0).isSome
  | movz _ _ _ | lsl _ _ _ => false
  | lsr amount _ _ => live && amount.val < 32
  | _ => live

def Tracked.after (c : Tracked) (i : Instr) : Tracked :=
  { state := i.exec c.state, live := i.keepsFlags c.live }

/-- One instruction that the simulator supports. -/
inductive Next (stale : Option Bool) : Tracked → Tracked → Prop
  | step {c : Tracked} (i : Instr) : c.state.running = true → Accessible c.state.pc 4 →
      Fetches c.state i → Supported stale c i → Next stale c (c.after i)

/-- The regions below `2 ^ 32` hold the memory `s`. -/
def Shows (mem : Memory) (s : BitVec 64 → BitVec 8) : Prop :=
  ∀ r ≠ Region.stack, ∀ a, r.contains a = true → s a = mem r (r.offset a)

/-- The machine has the registers, the memory and, as far as they are live, the flags. -/
structure Represents (c : Tracked) (m : Machine) : Prop where
  wellFormed : WellFormed m
  pc : m.currentState.pc = c.state.pc
  reg : ∀ k, m.currentState.reg k = c.state.reg k
  flags : c.live = true → m.currentState.flagN = (if c.state.flags.n = true then 1 else 0) ∧
    m.currentState.flagZ = if c.state.flags.z = true then 1 else 0
  memory : Shows m.memory c.state.mem
  running : halted m = !c.state.running

section Registers
variable (s : State) (k j : BitVec 5) (v : BitVec 64) (f : Option Flags)

theorem reg_setFlags : (s.setFlags f).reg k = s.reg k := by
  cases f <;> rfl

theorem reg_setReg : (s.setReg k v).reg j = if j = k ∧ k ≠ 31 then v else s.reg j := by
  unfold State.setReg
  by_cases hk : k = 31
  · rw [if_pos hk, if_neg fun h => h.2 hk]
  · rw [if_neg hk]
    by_cases hj : j = k
    · subst hj
      rw [if_pos ⟨rfl, hk⟩, State.reg, if_neg hk]
      exact Function.update_self j v s.x
    · rw [if_neg fun h => hj h.1]
      unfold State.reg State.setX
      exact if_congr Iff.rfl rfl (Function.update_of_ne hj v s.x)

/-- An operation writes nothing but a register and the flags. -/
theorem setReg_setFlags_frame : ((s.setFlags f).setReg k v).pc = s.pc ∧
    ((s.setFlags f).setReg k v).mem = s.mem ∧
    ((s.setFlags f).setReg k v).running = s.running ∧
    ((s.setFlags f).setReg k v).flags = f.getD s.flags := by
  unfold State.setReg
  cases f <;> split <;> exact ⟨rfl, rfl, rfl, rfl⟩

theorem x_eq_reg {k : BitVec 5} (hk : k ≠ 31) : s.x k = s.reg k := (if_neg hk).symm

theorem setX_eq_setReg {k : BitVec 5} (hk : k ≠ 31) : s.setX k v = s.setReg k v :=
  (if_neg hk).symm

end Registers

section Memory
variable {r : Region} {a : BitVec 64} {k : ℕ} {mem : Memory} {s : BitVec 64 → BitVec 8}

theorem Shows.bytesAt (h : Shows mem s) (hr : r ≠ .stack) (ha : Inside r a k) {j : ℕ}
    (hj : j < k) : s (a + BitVec.ofNat 64 j) = bytesAt mem r a j :=
  h r hr _ (ha j hj)

theorem Shows.loadAt_eq (h : Shows mem s) (hr : r ≠ .stack) (ha : Inside r a k) (hk : k ≤ 8) :
    loadAt k a s = loadBytes k r a mem :=
  (ofBytes_eq_iff (n := 8) hk).mpr fun _ hj => h.bytesAt hr ha hj

/-- A word at an accessible address. -/
theorem Shows.memRead32 (h : Shows mem s) (ha : Accessible a 4) {w : BitVec 32}
    (hw : ∀ j < 4, s (a + BitVec.ofNat 64 j) = byte w j) : memRead32 mem a = w := by
  obtain ⟨r, hr, hin⟩ := ha
  refine eq_of_bytes (n := 4) rfl fun j hj => ?_
  rw [byte_memRead32_at mem (hin.contains (by decide)) hj, ← h.bytesAt hr hin hj, hw j hj]

/-- The bytes from `a` on have the same distance from each other as their cells. -/
theorem offset_sub_lt_iff {b : BitVec 64} (ha : r.contains a = true) (hb : r.contains b = true)
    (hk : k ≤ 8) : (r.offset b - r.offset a).toNat < k ↔ (b - a).toNat < k := by
  obtain ⟨haddra, hlta⟩ := Region.offset_of_contains ha
  obtain ⟨haddrb, hltb⟩ := Region.offset_of_contains hb
  have hsize := r.size_le
  rw [BitVec.toNat_sub, BitVec.toNat_sub]
  omega

theorem offset_sub_eq {b : BitVec 64} (ha : r.contains a = true) (hb : r.contains b = true)
    (hk : k ≤ 8) (h : (b - a).toNat < k) :
    (r.offset b - r.offset a).toNat = (b - a).toNat := by
  obtain ⟨haddra, hlta⟩ := Region.offset_of_contains ha
  obtain ⟨haddrb, hltb⟩ := Region.offset_of_contains hb
  have hsize := r.size_le
  rw [BitVec.toNat_sub] at h ⊢
  rw [BitVec.toNat_sub]
  omega

theorem Shows.storeAt (h : Shows mem s) (ha : Inside r a k) (hpos : 0 < k) (hk : k ≤ 8)
    (v : BitVec 64) : Shows (storeBytes k r a v mem) (storeAt k a v s) := by
  intro r' hr' b hb
  unfold Arch.storeAt storeBytes
  have hcontains := ha.contains hpos
  by_cases hr : r' = r
  · subst hr
    by_cases hlt : (b - a).toNat < k
    · have hcell := (offset_sub_lt_iff hcontains hb hk).mpr hlt
      rw [if_pos hlt, if_pos ⟨rfl, hcell⟩, offset_sub_eq hcontains hb hk hlt]
    · have hcell := mt (offset_sub_lt_iff hcontains hb hk).mp hlt
      rw [if_neg hlt, if_neg fun hx => hcell hx.2]
      exact h r' hr' b hb
  · -- the bytes from `a` on are all in `r`
    have hout : ¬ (b - a).toNat < k := by
      intro hlt
      have hin := ha _ hlt
      rw [BitVec.ofNat_toNat, BitVec.setWidth_eq, add_sub_cancel] at hin
      exact hr (Region.contains_unique hb hin)
    rw [if_neg hout, if_neg fun hx => hr hx.1]
    exact h r' hr' b hb

end Memory

end ArmSim.Arch
