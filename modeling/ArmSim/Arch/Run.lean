import ArmSim.Arch.Step
import ArmSim.Verify.Chunking

/-! Whole runs. As long as the program keeps to what the simulator supports, the simulator is in
lockstep with the architecture, through the halt or for ever. -/
namespace ArmSim.Arch
open Shell Sim Spec Verify Loop Simulation Bytes

def Stopped (c : Tracked) : Prop := c.state.running = false

section Boot

/-- The byte that a loaded program has at the address `a`. -/
def image (programs : List (List (BitVec 32))) (a : BitVec 64) : BitVec 8 :=
  byte ((lastWord programs ((a - memTextStart).toNat / 4)).getD 0) (a.toNat % 4)

/-- The architecture in front of the first instruction of the programs. -/
def boot (programs : List (List (BitVec 32))) : Tracked where
  state :=
    { pc := memTextStart, x := fun _ => 0, flags := { n := false, z := false, v := false },
      mem := image programs, running := true }
  live := true

theorem shows_initializeMachine (slack : Memory) {programs : List (List (BitVec 32))}
    (hlen : ∀ words ∈ programs, words.length ≤ 0x40000) :
    Shows (initializeMachine slack programs).memory (image programs) := by
  intro r _ a ha
  -- the word of the byte
  have hlt := a.isLt
  have hstart : memTextStart.toNat = 0x400000 := Region.toNat_text.1
  have hmod : (a - BitVec.ofNat 64 (a.toNat % 4)) % 4 = 0 := by
    have h4 : (4 : BitVec 64).toNat = 4 := rfl
    apply BitVec.eq_of_toNat_eq
    rw [BitVec.toNat_umod, BitVec.toNat_sub, BitVec.toNat_ofNat, h4]
    change _ % 4 = 0
    omega
  have hback : a - BitVec.ofNat 64 (a.toNat % 4) + BitVec.ofNat 64 (a.toNat % 4) = a :=
    sub_add_cancel _ _
  have hj : a.toNat % 4 < 4 := Nat.mod_lt _ (by decide)
  have hcontains := r.contains_add_of_aligned hmod hj
  rw [hback, ha] at hcontains
  have hword := alignedWords_initializeMachine slack hlen ⟨_, hmod⟩
  have hindex : wordIndex ⟨_, hmod⟩ = (a - memTextStart).toNat / 4 := by
    unfold wordIndex
    rw [BitVec.toNat_sub, BitVec.toNat_sub, BitVec.toNat_sub, BitVec.toNat_ofNat, hstart]
    omega
  have hbyte := byte_memRead32_at (initializeMachine slack programs).memory hcontains.symm hj
  unfold bytesAt at hbyte
  rw [hback] at hbyte
  rw [← hbyte]
  unfold image
  rw [← hindex, ← hword]
  rfl

theorem represents_boot (slack : Memory) {programs : List (List (BitVec 32))}
    (hne : programs ≠ []) (hlen : ∀ words ∈ programs, words.length ≤ 0x40000) :
    Represents (boot programs) (initializeMachine slack programs) := by
  obtain ⟨-, -, -, hpc, hreg, hN, hZ, -, hrun⟩ := initialize_loads slack programs hne hlen
  refine ⟨.initial slack programs, hpc, fun k => ?_, fun _ => ⟨hN, hZ⟩,
    shows_initializeMachine slack hlen, ?_⟩
  · rw [hreg]
    exact (ite_self 0).symm
  · unfold halted
    rw [hrun]
    rfl

theorem initializeMachine_instructionCount (slack : Memory)
    (programs : List (List (BitVec 32))) :
    (initializeMachine slack programs).instructionCount = 0 := by
  have hfold (m : Machine) : (programs.foldl (fun m words => loadProgram words m)
      m).instructionCount = m.instructionCount := by
    induction programs generalizing m with
    | nil => rfl
    | cons words programs ih => exact ih (loadProgram words m)
  exact hfold _

end Boot

/-- `go`, and `run` with a count that suffices, halt with `m'` after `n` cycles. -/
structure HaltsWith (u : Machine → Indeterminate) (n : ℕ) (m m' : Machine) : Prop where
  count : m'.instructionCount = m.instructionCount + BitVec.ofNat 32 n
  go : ∀ fuel ≥ n, go u fuel m = .ok (some m')
  run : ∀ K : BitVec 32, n ≤ K.toInt.toNat → run u K m = .ok m'

/-- ADD X0, X1, #7 and HLT. -/
def addHlt : List (List (BitVec 32)) :=
  [[(Instr.immediate .add false 7 1 0).word, (Instr.hlt 0).word]]

def addHltEnd : Tracked := ((boot addHlt).after (.immediate .add false 7 1 0)).after (.hlt 0)

theorem run_addHlt : Run (Next none) 2 (boot addHlt) addHltEnd := by
  have hpc (a : BitVec 64) (ha : Inside .text a 4) : Accessible a 4 := ⟨.text, by decide, ha⟩
  have hadd : Supported none (boot addHlt) (.immediate .add false 7 1 0) :=
    ⟨.inl rfl, by decide, fun _ => by decide, by simp⟩
  exact .step (.step _ rfl (hpc _ (by decide)) (by decide) hadd)
    (.step (.step (.hlt 0) rfl (hpc _ (by decide)) (by decide) trivial) (.done _))

theorem represents_addHlt :
    Represents (boot addHlt) (initializeMachine (fun _ _ => 0) addHlt) :=
  represents_boot _ (List.cons_ne_nil _ _) (by simp [addHlt])

section Runs
variable {u : Machine → Indeterminate} {stale : Option Bool}

/-- The step lemma as a simulation. -/
theorem simulates (hu : ∀ m, Leftover (u m) stale) :
    Simulates (Next stale) Stopped (step u) halted Represents where
  step h hnext := h.step (hu _) hnext
  running hnext := by
    obtain ⟨i, hrun, -, -, -⟩ := hnext
    unfold Stopped
    rw [hrun]
    exact Bool.true_eq_false_eq_False
  halted_iff h := by
    rw [h.running, Bool.not_eq_true']
    rfl

variable (hu : ∀ m, Leftover (u m) stale) {c : Tracked} {m : Machine}
  (h : Represents c m)
include hu h

/-- `run` with a count that the program supports is that many instructions of the architecture. -/
theorem run_lockstep {K : BitVec 32} {c' : Tracked} (hc : Run (Next stale) K.toInt.toNat c c') :
    Yields (run u K m) fun m' => Represents c' m' ∧
      m'.instructionCount = m.instructionCount + BitVec.ofNat 32 K.toInt.toNat := by
  obtain ⟨m', hit, hR⟩ := (simulates hu).iterate hc h
  refine ⟨m', ?_, hR, instructionCount_of_iterate hit⟩
  rw [run_eq_counted, (simulates hu).counted_eq hc h, hit]

theorem go_halts {n : ℕ} {c' : Tracked} (hc : Run (Next stale) n c c') (hstop : Stopped c') :
    ∃ m', Represents c' m' ∧ HaltsWith u n m m' := by
  obtain ⟨m', hfirst, hR⟩ := (simulates hu).firstHalt hc hstop h
  refine ⟨m', hR, instructionCount_of_iterate hfirst.1, fun fuel hfuel => ?_, fun K hK => ?_⟩
  · rw [go_eq_unbounded]
    exact (hfirst.loops_eq hfuel).2
  · rw [run_eq_counted]
    exact (hfirst.loops_eq hK).1

/-- `go` ends exactly as the program does, with its registers, flags and memory, or goes on for
ever with it, unless the program comes to an instruction that is not supported; up to there the
two are in lockstep. -/
theorem go_outcome :
    (∃ n c', Run (Next stale) n c c' ∧ Stopped c' ∧
      ∃ m', Represents c' m' ∧ HaltsWith u n m m') ∨
    Endless (Next stale) c ∧ (∀ fuel, go u fuel m = .ok none) ∨
    ∃ n c', Run (Next stale) n c c' ∧ Stuck (Next stale) Stopped c' ∧
      Yields (iterate (step u) n m) (Represents c') := by
  rcases @run_cases _ (Next stale) Stopped c with
    ⟨n, c', hc, hstop⟩ | hendless | ⟨n, c', hc, hstuck⟩
  · exact .inl ⟨n, c', hc, hstop, go_halts hu h hc hstop⟩
  · refine .inr (.inl ⟨hendless, fun fuel => ?_⟩)
    rw [go_eq_unbounded]
    exact (simulates hu).unbounded_of_endless hendless h fuel
  · exact .inr (.inr ⟨n, c', hc, hstuck, (simulates hu).iterate hc h⟩)

end Runs

theorem go_outcome_addHlt :
    (∃ n c', Run (Next none) n (boot addHlt) c' ∧ Stopped c' ∧ ∃ m', Represents c' m' ∧
      HaltsWith (fun _ => .zeroed) n (initializeMachine (fun _ _ => 0) addHlt) m') ∨
    Endless (Next none) (boot addHlt) ∧
      (∀ fuel, go (fun _ => .zeroed) fuel (initializeMachine (fun _ _ => 0) addHlt) = .ok none) ∨
    ∃ n c', Run (Next none) n (boot addHlt) c' ∧ Stuck (Next none) Stopped c' ∧
      Yields (iterate (step fun _ => .zeroed) n (initializeMachine (fun _ _ => 0) addHlt))
        (Represents c') :=
  go_outcome (fun _ => leftover_none) represents_addHlt

end ArmSim.Arch
