import ArmSim.Core.Progress
import ArmSim.Verify.Branches
import ArmSim.Verify.Chunking
import ArmSim.Verify.Static

/-! Control flow. Where a cycle may go on is fixed by its word, except for BR and CBNZ, and a
program whose words go on at its own words never faults. -/
namespace ArmSim.Verify
open Shell Sim Spec Loop

/-- The offsets in words at which an instruction may go on, for the mnemonics whose target is
fixed. That of a B is what the simulator makes of its field, the low six bits, and not the one that
the word encodes. -/
def successors (w : BitVec 32) : Name → List (BitVec 64)
  | .b => [signedOffset19 (w &&& mask26) (w &&& mask26)]
  | .bcond | .cbz => [1, signedOffset19 ((w >>> 5) &&& mask19bits) ((w >>> 5) &&& mask19bits)]
  | _ => [1]

theorem successors_near {w : BitVec 32} {n : Name} {o : BitVec 64} (ho : o ∈ successors w n) :
    o.toNat < 2 ^ 18 ∨ 2 ^ 64 - 2 ^ 18 ≤ o.toNat := by
  have hone : (1 : BitVec 64).toNat < 2 ^ 18 ∨ 2 ^ 64 - 2 ^ 18 ≤ (1 : BitVec 64).toNat := by decide
  cases n with
  | b =>
    obtain rfl := List.mem_singleton.mp ho
    exact signedOffset19_near _ _
  | bcond | cbz =>
    rcases List.mem_cons.mp ho with rfl | ho
    · exact hone
    · obtain rfl := List.mem_singleton.mp ho
      exact signedOffset19_near _ _
  | _ =>
    obtain rfl := List.mem_singleton.mp ho
    exact hone

/-- Where a cycle goes on. -/
theorem DecodesTo.pc_successor {u : Indeterminate} {m m' : Machine} {n : Name} (hm : WellFormed m)
    (hd : DecodesTo (fetch m) n) (hbr : n ≠ .br) (hcbnz : n ≠ .cbnz) (hc : cycle u m = .ok m') :
    ∃ o ∈ successors (fetch m) n, m'.currentState.pc = m.currentState.pc + (o <<< 2) := by
  cases n with
  | b =>
    obtain rfl := Except.ok.inj (hd.cycle_b.symm.trans hc)
    exact ⟨_, List.mem_singleton.mpr rfl, finish_pc _ m⟩
  | bcond =>
    obtain rfl := Except.ok.inj (hd.cycle_bcond.symm.trans hc)
    by_cases htaken : branchTaken (fetch m &&& mask5bits) m.currentState.flagN m.currentState.flagZ
    · rw [if_pos htaken]
      exact ⟨_, List.mem_cons_of_mem _ (List.mem_singleton.mpr rfl), finish_pc _ m⟩
    · rw [if_neg htaken]
      exact ⟨1, List.mem_cons_self, finish_pc _ m⟩
  | cbz =>
    obtain ⟨e, he, rfl⟩ := hd.cycle_ok_iff.mp hc
    rw [hd.effect_cbz] at he
    obtain rfl := Except.ok.inj he
    by_cases hzero : m.currentState.reg (rd (fetch m)) = 0
    · rw [if_pos hzero, alignedBranchEffect_of_aligned hm.pc]
      exact ⟨_, List.mem_cons_of_mem _ (List.mem_singleton.mpr rfl), finish_pc _ m⟩
    · rw [if_neg hzero]
      exact ⟨1, List.mem_cons_self, finish_pc _ m⟩
  | br => exact absurd rfl hbr
  | cbnz => exact absurd rfl hcbnz
  | _ => exact ⟨1, List.mem_singleton.mpr rfl, (hd.frame hm.latched hc).pc (by decide)⟩

/-- A program whose words are defined instructions without stores that go on inside of it. -/
structure Closed (programs : List (List (BitVec 32))) : Prop where
  start : lastWord programs 0 ≠ none
  decodes : ∀ i w, lastWord programs i = some w → ∃ n, DecodesTo w n
  plain : ∀ i w n, lastWord programs i = some w → DecodesTo w n →
    n.isStore = false ∧ n ≠ .br ∧ n ≠ .cbnz ∧ topBits 11 w ≠ 0b10001011001
  next : ∀ i w n, lastWord programs i = some w → DecodesTo w n → n ≠ .hlt →
    ∀ o ∈ successors w n, ∃ j, lastWord programs j ≠ none ∧ textWord i + (o <<< 2) = textWord j

/-- A machine that is halted or about to execute a word of its program. -/
structure InProgram (slack : Memory) (programs : List (List (BitVec 32))) (m : Machine) : Prop where
  wellFormed : WellFormed m
  memory : m.memory = (initializeMachine slack programs).memory
  pc : m.runBit ≠ 0 → ∃ k, lastWord programs k ≠ none ∧ m.currentState.pc = textWord k

theorem runBit_ne_zero {m : Machine} (hrun : halted m = false) : m.runBit ≠ 0 := by
  intro hzero
  unfold halted at hrun
  rw [hzero] at hrun
  exact absurd hrun (by decide)

section Closed
variable {slack : Memory} {programs : List (List (BitVec 32))}
  (hlen : ∀ words ∈ programs, words.length ≤ 0x40000) (hclosed : Closed programs)
include hlen hclosed

theorem InProgram.executes {m : Machine} (hm : InProgram slack programs m) (hrun : m.runBit ≠ 0) :
    ∃ k n, lastWord programs k = some (fetch m) ∧ m.currentState.pc = textWord k ∧
      DecodesTo (fetch m) n := by
  obtain ⟨k, hk, hpc⟩ := hm.pc hrun
  obtain ⟨w, hw⟩ := Option.ne_none_iff_exists'.mp hk
  obtain rfl : fetch m = w := by
    unfold fetch
    rw [hm.memory, hpc]
    exact memRead32_textWord slack hlen hw
  obtain ⟨n, hd⟩ := hclosed.decodes k _ hw
  exact ⟨k, n, hw, hpc, hd⟩

/-- The step lemma: progress and preservation. -/
theorem InProgram.cycle (u : Indeterminate) {m : Machine} (hm : InProgram slack programs m)
    (hrun : m.runBit ≠ 0) : ∃ m', Shell.cycle u m = .ok m' ∧ InProgram slack programs m' := by
  obtain ⟨k, n, hw, hpc, hd⟩ := hm.executes hlen hclosed hrun
  obtain ⟨hstore, hbr, hcbnz, h21⟩ := hclosed.plain k _ n hw hd
  obtain ⟨m', hc⟩ := hd.cycle_defined (u := u) fun h => absurd h h21
  refine ⟨m', hc, hm.wellFormed.cycle hc, (hd.memory_eq hstore hc).trans hm.memory, fun hrun' => ?_⟩
  have hhlt : n ≠ .hlt := by
    rintro rfl
    obtain ⟨e, he, rfl⟩ := hd.cycle_ok_iff.mp hc
    obtain rfl := Except.ok.inj he
    exact hrun' rfl
  obtain ⟨o, ho, hnext⟩ := hd.pc_successor hm.wellFormed hbr hcbnz hc
  obtain ⟨j, hj, htarget⟩ := hclosed.next k _ n hw hd hhlt o ho
  exact ⟨j, hj, by rw [hnext, hpc, htarget]⟩

theorem InProgram.initial : InProgram slack programs (initializeMachine slack programs) := by
  refine ⟨.initial slack programs, rfl, fun _ => ⟨0, hclosed.start, ?_⟩⟩
  have hne : programs ≠ [] := by
    rintro rfl
    exact hclosed.start rfl
  rw [initializeMachine_currentState, if_neg hne]
  rfl

variable {u : Machine → Indeterminate} {m : Machine}

theorem InProgram.step (u : Machine → Indeterminate) (a : Machine) (ha : InProgram slack programs a)
    (hrun : halted a = false) : ∃ b, Shell.step u a = .ok b ∧ InProgram slack programs b :=
  ha.cycle hlen hclosed (u a) (runBit_ne_zero hrun)

/-- None of the cycles of such a program leaves anything open. -/
theorem InProgram.settledRun (hm : InProgram slack programs m) (n : ℕ) : SettledRun n m := by
  refine Choice.Along.of_invariant (I := InProgram slack programs) (fun u a b ha hrun hc => ?_)
    (fun a ha hrun => ?_) hm
  · obtain ⟨b', hb, hin⟩ := ha.cycle hlen hclosed u (runBit_ne_zero hrun)
    exact Except.ok.inj (hb.symm.trans hc) ▸ hin
  · obtain ⟨k, n, hw, -, hd⟩ := ha.executes hlen hclosed (runBit_ne_zero hrun)
    obtain ⟨-, -, hcbnz, h21⟩ := hclosed.plain k _ n hw hd
    exact ⟨hd.selected, h21, fun hd' => absurd (hd.unique hd') hcbnz⟩

theorem InProgram.run (hm : InProgram slack programs m) (K : BitVec 32) :
    ∃ m', Shell.run u K m = .ok m' ∧ InProgram slack programs m' := by
  rw [run_eq_counted]
  exact counted_progress (InProgram.step hlen hclosed u) _ hm

theorem InProgram.go (hm : InProgram slack programs m) (fuel : ℕ) :
    ∃ r, Shell.go u fuel m = .ok r ∧ ∀ m', r = some m' → InProgram slack programs m' := by
  rw [go_eq_unbounded]
  exact unbounded_progress (InProgram.step hlen hclosed u) _ hm

theorem InProgram.command (hm : InProgram slack programs m) {c : Command} {m' : Machine}
    (hc : c.Completes u m m') : InProgram slack programs m' := by
  cases c with
  | go =>
    obtain ⟨fuel, hgo⟩ := hc
    obtain ⟨r, hr, hin⟩ := hm.go hlen hclosed (u := u) fuel
    exact hin m' (Except.ok.inj (hr.symm.trans hgo))
  | run K =>
    obtain ⟨m₁, h₁, hin⟩ := hm.run hlen hclosed (u := u) K
    obtain rfl := Except.ok.inj (h₁.symm.trans hc)
    exact hin
  | mdump start stop => exact hc.2 ▸ hm
  | rdump | help | invalid =>
    obtain rfl := hc
    exact hm
  | input r v =>
    have hm' : WellFormed m' := hm.wellFormed.command (c := .input r v) (u := u) hc
    obtain ⟨k, -, rfl⟩ := input_ok hc
    exact ⟨hm', hm.memory, hm.pc⟩

theorem InProgram.completeAll (hm : InProgram slack programs m) {cs : List Command} {m' : Machine}
    (h : CompleteAll u m cs m') : InProgram slack programs m' := by
  induction cs generalizing m with
  | nil =>
    obtain rfl := h
    exact hm
  | cons c cs ih =>
    obtain ⟨m₁, hc, hcs⟩ := h
    exact ih (hm.command hlen hclosed hc) hcs

/-- In a program without stores whose instructions go on inside of it, no command faults, whatever
the user did before: the memory stays as loaded, the program counter is at a word of the program
until the machine is halted, every `run` completes and no `go` fails. -/
theorem closed_runs {cs : List Command}
    (h : CompleteAll u (initializeMachine slack programs) cs m) :
    m.memory = (initializeMachine slack programs).memory ∧
    (m.runBit ≠ 0 → ∃ k, lastWord programs k ≠ none ∧ m.currentState.pc = textWord k) ∧
    ∀ u' : Machine → Indeterminate, (∀ K, ∃ m', run u' K m = .ok m') ∧
      ∀ fuel, ∃ r, go u' fuel m = .ok r := by
  have hboot : InProgram slack programs (initializeMachine slack programs) :=
    .initial hlen hclosed
  have hm := hboot.completeAll hlen hclosed h
  refine ⟨hm.memory, hm.pc, fun u' => ⟨fun K => ?_, fun fuel => ?_⟩⟩
  · exact (hm.run hlen hclosed K).imp fun _ => And.left
  · exact (hm.go hlen hclosed fuel).imp fun _ => And.left

end Closed

/-- A B to itself. -/
theorem closed_runs_loop : ∃ m', run (fun _ => .zeroed) 5 (oneWord 0x14000000) = .ok m' := by
  have hlast {i : ℕ} {w : BitVec 32} (h : lastWord [[0x14000000]] i = some w) :
      i = 0 ∧ w = 0x14000000 := by
    cases i with
    | zero => exact ⟨rfl, (Option.some.inj h).symm⟩
    | succ i => simp [lastWord] at h
  have hclosed : Closed [[0x14000000]] := by
    refine ⟨by simp [lastWord], fun i w h => ?_, fun i w n h hd => ?_, fun i w n h hd _ o ho => ?_⟩
    all_goals obtain ⟨rfl, rfl⟩ := hlast h
    · exact ⟨.b, decodesTo_loop⟩
    all_goals obtain rfl := hd.unique decodesTo_loop
    · exact ⟨rfl, by decide, by decide, by decide⟩
    · obtain rfl := List.mem_singleton.mp ho
      exact ⟨0, by simp [lastWord], by decide⟩
  have h : CompleteAll (fun _ => .zeroed) (initializeMachine (fun _ _ => 0) [[0x14000000]]) [] _ :=
    rfl
  exact ((closed_runs (by decide) hclosed h).2.2 fun _ => .zeroed).1 5

end ArmSim.Verify
