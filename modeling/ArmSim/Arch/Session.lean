import ArmSim.Arch.Run
import ArmSim.Verify.Prompt

/-! Sessions. The commands of the shell have a meaning on the architecture as well, and a session
on the simulator shows in its dumps what the same session on the architecture shows. -/
namespace ArmSim.Arch
open Shell Sim Spec Verify Loop Simulation SignedLoop Bytes

/-- What a command does to the architecture, in how many instructions. -/
inductive Does (stale : Option Bool) (c : Tracked) : Command → ℕ → Tracked → Prop
  | go {n : ℕ} {c' : Tracked} : Run (Next stale) n c c' → Stopped c' → Does stale c .go n c'
  | run {K : BitVec 32} {c' : Tracked} : Run (Next stale) K.toInt.toNat c c' →
      Does stale c (.run K) K.toInt.toNat c'
  | runHalts {K : BitVec 32} {n : ℕ} {c' : Tracked} : n ≤ K.toInt.toNat →
      Run (Next stale) n c c' → Stopped c' → Does stale c (.run K) n c'
  | input {k : BitVec 5} {v : BitVec 64} : k ≠ 31 →
      Does stale c (.input (k.setWidth 32) v) 0 { c with state := c.state.setX k v }
  | mdump {start stop : BitVec 32} : stop.toInt < 2 ^ 31 - 4 + start.toNat % 4 →
      Does stale c (.mdump start stop) 0 c
  | rdump : Does stale c .rdump 0 c
  | help : Does stale c .help 0 c
  | invalid : Does stale c .invalid 0 c

/-- What is to be seen of the architecture, with the number of instructions so far. -/
inductive View
  | registers (n : ℕ) (c : Tracked)
  | memory (start stop : BitVec 32) (c : Tracked)

def views (n : ℕ) (c : Tracked) : Command → List View
  | .rdump => [.registers n c]
  | .mdump start stop => [.memory start stop c]
  | .go | .run _ | .help | .input _ _ | .invalid => []

/-- The registers are those of the state, and the flags as far as they are live. -/
structure ShowsRegisters (c : Tracked) (x : CpuState) : Prop where
  pc : x.pc = c.state.pc
  reg : ∀ k, x.reg k = c.state.reg k
  flags : c.live = true → x.flagN = (if c.state.flags.n = true then 1 else 0) ∧
    x.flagZ = if c.state.flags.z = true then 1 else 0

/-- The dump is a true view: every register, and every word that is accessible. -/
inductive Truthful : View → Dump → Prop
  | registers {n : ℕ} {c : Tracked} {x : CpuState} : ShowsRegisters c x →
      Truthful (.registers n c) (.registers (BitVec.ofNat 32 n) x)
  | memory {start stop : BitVec 32} {c : Tracked} {word : BitVec 32 → BitVec 32} :
      (∀ a : BitVec 32, Accessible (a.signExtend 64) 4 → ∀ j < 4,
        c.state.mem (a.signExtend 64 + BitVec.ofNat 64 j) = byte (word a) j) →
      Truthful (.memory start stop c)
        (.memory start stop ((values 4 start stop).map fun a => (a, word a)))

/-- The commands are performed one after the other, the first of them after `n` instructions. -/
inductive Story (stale : Option Bool) : Tracked → ℕ → List Command → List View → Prop
  | done {c : Tracked} {n : ℕ} : Story stale c n [] []
  | command {c c' : Tracked} {n k : ℕ} {cmd : Command} {cs : List Command} {vs : List View} :
      Does stale c cmd k c' → Story stale c' (n + k) cs vs →
      Story stale c n (cmd :: cs) (views n c cmd ++ vs)

/-- A word of the dump of an accessible address. -/
theorem Shows.dumped {mem : Memory} {s : BitVec 64 → BitVec 8} (h : Shows mem s) {a : BitVec 64}
    (ha : Accessible a 4) {j : ℕ} (hj : j < 4) :
    s (a + BitVec.ofNat 64 j) = byte (Shell.memRead32 mem a) j := by
  obtain ⟨r, hr, hin⟩ := ha
  rw [byte_memRead32_at mem (hin.contains (by decide)) hj]
  exact h.bytesAt hr hin hj

section Commands
variable {u : Machine → Indeterminate} {stale : Option Bool} {c c' : Tracked} {m : Machine}
  {n k : ℕ} {cmd : Command}

theorem Represents.input (h : Represents c m) {k : BitVec 5} (hk : k ≠ 31) (v : BitVec 64) :
    ∃ m', Shell.input (k.setWidth 32) v m = .ok m' ∧ m'.instructionCount = m.instructionCount ∧
      Represents { c with state := c.state.setX k v } m' := by
  have hindex : regIndex (k.setWidth 32) = .ok (regNo k) := by
    refine regIndex_eq ?_
    rw [BitVec.toNat_setWidth]
    exact Nat.mod_eq_of_lt (by omega)
  have hinput : Shell.input (k.setWidth 32) v m = .ok { m with
      currentState := Effect.setReg m.currentState (some (regNo k, v))
      nextState := Effect.setReg m.nextState (some (regNo k, v)) } := by
    unfold Shell.input
    simp only [writeReg_eq, hindex]
    rfl
  have hwf := h.wellFormed.command (u := fun _ => .zeroed) (c := .input (k.setWidth 32) v) hinput
  refine ⟨_, hinput, rfl, hwf, h.pc, fun j => ?_, h.flags, h.memory, h.running⟩
  rw [setX_eq_setReg c.state v hk, reg_setReg, ← h.reg]
  have hset : (Effect.setReg m.currentState (some (regNo k, v))).reg j =
      if k.toNat = j.toNat then v else m.currentState.reg j := Vector.getElem_set k.isLt j.isLt
  refine hset.trans (if_congr ?_ rfl rfl)
  rw [BitVec.toNat_inj]
  exact ⟨fun hkj => ⟨hkj.symm, hk⟩, fun hjk => hjk.1.symm⟩

/-- The step lemma of sessions. -/
theorem Does.completes (hu : ∀ m, Leftover (u m) stale)
    (hdo : Does stale c cmd k c') (h : Represents c m) :
    ∃ m', cmd.Completes u m m' ∧ Represents c' m' ∧
      m'.instructionCount = m.instructionCount + BitVec.ofNat 32 k := by
  have hzero : m.instructionCount = m.instructionCount + BitVec.ofNat 32 0 := (add_zero _).symm
  cases hdo with
  | go hc hstop =>
    obtain ⟨m', hR, hhalts⟩ := go_halts hu h hc hstop
    exact ⟨m', ⟨k, hhalts.go k le_rfl⟩, hR, hhalts.count⟩
  | run hc =>
    obtain ⟨m', hrun, hR, hcount⟩ := run_lockstep hu h hc
    exact ⟨m', hrun, hR, hcount⟩
  | runHalts hle hc hstop =>
    obtain ⟨m', hR, hhalts⟩ := go_halts hu h hc hstop
    exact ⟨m', hhalts.run _ hle, hR, hhalts.count⟩
  | input hk =>
    obtain ⟨m', hinput, hcount, hR⟩ := h.input hk _
    exact ⟨m', hinput, hR, hcount.trans hzero⟩
  | mdump hstop => exact ⟨m, (mdump_completes_iff u m m _ _).mpr ⟨hstop, rfl⟩, h, hzero⟩
  | rdump | help | invalid => exact ⟨m, rfl, h, hzero⟩

theorem Represents.dumps (h : Represents c m) (hcount : m.instructionCount = BitVec.ofNat 32 n)
    (cmd : Command) : List.Forall₂ Truthful (views n c cmd) (dumps m cmd) := by
  cases cmd with
  | rdump =>
    unfold Verify.dumps
    rw [hcount]
    exact .cons (.registers ⟨h.pc, h.reg, h.flags⟩) .nil
  | mdump start stop =>
    exact .cons (.memory fun a ha j hj => h.memory.dumped ha hj) .nil
  | go | run | help | input | invalid => exact .nil

/-- The run lemma of sessions. -/
theorem Story.transcript (hu : ∀ m, Leftover (u m) stale)
    {cs : List Command} {vs : List View} (hs : Story stale c n cs vs) (h : Represents c m)
    (hcount : m.instructionCount = BitVec.ofNat 32 n) :
    ∃ ds m', Transcript u m cs ds m' ∧ List.Forall₂ Truthful vs ds := by
  induction hs generalizing m with
  | done => exact ⟨[], m, ⟨rfl, rfl⟩, .nil⟩
  | @command c c' n k cmd cs vs hdo _ ih =>
    obtain ⟨m₁, hc, hR, hk⟩ := hdo.completes hu h
    have hcount₁ : m₁.instructionCount = BitVec.ofNat 32 (n + k) := by
      rw [hk, hcount, BitVec.ofNat_add]
    obtain ⟨ds, m', ht, hds⟩ := ih hR hcount₁
    exact ⟨_, m', ⟨m₁, ds, hc, ht, rfl⟩, List.rel_append (h.dumps hcount cmd) hds⟩

end Commands

end ArmSim.Arch
