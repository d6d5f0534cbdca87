import ArmSim.Spec.Operands
import ArmSim.Verify.Typing

/-! The whole process: what a session typed at the prompt does to the machine that has been loaded
and to the dumpsim file. -/
namespace ArmSim.Verify
open Shell Text Scan Loop

section Main
variable {e : Environment} {slack : Memory} {files : List (Option (List Char))}
  {stdin : List Char} {fuel prompts : ℕ} {s : Console}

theorem main_ok (h : main e slack files stdin fuel prompts = .ok s) :
    ∃ programs, List.Forall₂ (Reads e) files programs ∧
      iterate (getCommand e fuel) prompts
        { machine := initializeMachine slack programs, stdin, dumpsim := [] } = .ok s := by
  have hend {status : ℤ} {d : Option (List Char)}
      (hmain : main e slack files stdin fuel prompts = .error (.exit status d)) : False := by
    rw [hmain] at h
    exact absurd h (by simp)
  by_cases hne : files = []
  · rw [hne] at hend
    exact (hend (main_of_nil slack stdin fuel prompts)).elim
  by_cases hopen : e.dumpsimOpens = true
  · by_cases hreads : ∃ programs, List.Forall₂ (Reads e) files programs
    · obtain ⟨programs, hprograms⟩ := hreads
      rw [main_of_reads slack stdin fuel prompts hprograms hne hopen] at h
      exact ⟨programs, hprograms, h⟩
    · exact (hend (main_of_not_reads slack stdin fuel prompts hreads hne)).elim
  · exact (hend (main_of_not_open slack stdin fuel prompts hne hopen)).elim

/-- Whatever the files and the input are, a process that comes to a prompt has loaded the words
of its files, has completed the commands that the prompts before it have read, keeps the invariant
of sessions, and has written the dumps of these commands and nothing else. -/
theorem main_session (h : main e slack files stdin fuel prompts = .ok s) :
    ∃ programs, List.Forall₂ (Reads e) files programs ∧
      prompts + s.stdin.length ≤ stdin.length ∧
      (commandsRead e prompts stdin).length ≤ prompts ∧ ∃ ds,
        Transcript e.cycle (initializeMachine slack programs) (commandsRead e prompts stdin) ds
          s.machine ∧
        s.dumpsim = dumpText ds ∧ Session (initializeMachine slack programs) s.machine ∧
        WellFormed s.machine := by
  obtain ⟨programs, hprograms, hrun⟩ := main_ok h
  obtain ⟨hlen, ds, ht, hd⟩ := prompts_transcript hrun
  have hsession := ht.session .start
  exact ⟨programs, hprograms, hlen, commandsRead_length_le e prompts stdin, ds, ht, hd, hsession,
    Session.wellFormed (.initial slack programs) hsession⟩

end Main

theorem reads_empty : List.Forall₂ (Reads wrapping) [some []] [[]] :=
  .cons ⟨[], [], rfl, .done rfl, rfl⟩ .nil

/-- `input 0 7` and `rdump`. -/
def inputDump : List Char := spelling (.input 0 7) ++ ("\n".toList ++ "rdump".toList)

theorem typed_inputDump : Typed [.input 0 7, .rdump] inputDump [] := by
  have hgap : Gap "\n".toList := gap_singleton rfl
  have h := Typed.command blank_nil (spells_spelling (.input 0 7)) (hgap.delimited _)
    (.command hgap.blank (spells_spelling .rdump) delimited_nil (.done []))
  rwa [List.append_nil] at h

theorem commandsRead_inputDump : commandsRead wrapping 2 inputDump = [.input 0 7, .rdump] :=
  typed_inputDump.commandsRead_eq wrapping

/-- The state of a program without words after `input 0 7`. -/
def afterInput : CpuState :=
  Spec.Effect.setReg { bootState with pc := memTextStart } (some (Spec.regNo 0, 7))

theorem transcript_inputDump (slack : Memory) : ∃ m,
    Transcript wrapping.cycle (initializeMachine slack [[]]) [.input 0 7, .rdump]
      [.registers 0 afterInput] m := by
  have hinput := input_eq (r := 0) (k := Spec.regNo 0) rfl 7 (initializeMachine slack [[]])
  rw [initializeMachine_currentState] at hinput
  exact ⟨_, _, _, hinput, ⟨_, [], rfl, ⟨rfl, rfl⟩, rfl⟩, rfl⟩

/-- A program without words, and a register that is set and dumped at the prompt. -/
theorem main_inputDump (slack : Memory) : ∃ fuel s,
    main wrapping slack [some []] inputDump fuel 2 = .ok s ∧
      s.dumpsim = dumpText [.registers 0 afterInput] := by
  obtain ⟨m, ht⟩ := transcript_inputDump slack
  obtain ⟨enough, hrun⟩ := (typed_inputDump.prompts_iff _ m [] _).mp ht
  have hmain := main_of_reads slack inputDump enough 2 reads_empty (List.cons_ne_nil _ _) rfl
  exact ⟨enough, _, hmain.trans (hrun enough le_rfl), rfl⟩

theorem main_session_inputDump : ∃ fuel s programs ds,
    main wrapping (fun _ _ => 0) [some []] inputDump fuel 2 = .ok s ∧
      Transcript wrapping.cycle (initializeMachine (fun _ _ => 0) programs) [.input 0 7, .rdump] ds
        s.machine ∧ s.dumpsim = dumpText ds ∧ ds = [.registers 0 afterInput] := by
  obtain ⟨fuel, s, hmain, hdump⟩ := main_inputDump fun _ _ => 0
  obtain ⟨programs, -, -, -, ds, ht, hd, -, -⟩ := main_session hmain
  rw [commandsRead_inputDump] at ht
  exact ⟨fuel, s, programs, ds, hmain, ht, hd, dumpText_injective (hd.symm.trans hdump)⟩

section Determines
variable {e₁ e₂ : Environment} {slack₁ slack₂ : Memory} {files₁ files₂ : List (Option (List Char))}
  {stdin₁ stdin₂ : List Char} {fuel₁ fuel₂ prompts₁ prompts₂ : ℕ} {s₁ s₂ : Console}

/-- Two processes, with any programs and any input, that have written the same dumpsim file have
dumped the same registers, flags, counts and words of memory, in the same order: the commands that
each of them has read make the same dumps `ds`, and no other dumps are written as this file. -/
theorem dumpsim_determines (h₁ : main e₁ slack₁ files₁ stdin₁ fuel₁ prompts₁ = .ok s₁)
    (h₂ : main e₂ slack₂ files₂ stdin₂ fuel₂ prompts₂ = .ok s₂) (hd : s₁.dumpsim = s₂.dumpsim) :
    ∃ programs₁ programs₂ ds, List.Forall₂ (Reads e₁) files₁ programs₁ ∧
      List.Forall₂ (Reads e₂) files₂ programs₂ ∧
      Transcript e₁.cycle (initializeMachine slack₁ programs₁) (commandsRead e₁ prompts₁ stdin₁) ds
        s₁.machine ∧
      Transcript e₂.cycle (initializeMachine slack₂ programs₂) (commandsRead e₂ prompts₂ stdin₂) ds
        s₂.machine ∧
      s₁.dumpsim = dumpText ds ∧ s₂.dumpsim = dumpText ds ∧
      ∀ ds', s₁.dumpsim = dumpText ds' → ds' = ds := by
  obtain ⟨programs₁, hp₁, hrun₁⟩ := main_ok h₁
  obtain ⟨programs₂, hp₂, hrun₂⟩ := main_ok h₂
  obtain ⟨-, ds₁, ht₁, hd₁⟩ := prompts_transcript hrun₁
  obtain ⟨-, ds₂, ht₂, hd₂⟩ := prompts_transcript hrun₂
  have hfile₁ : s₁.dumpsim = dumpText ds₁ := hd₁
  have hfile₂ : s₂.dumpsim = dumpText ds₂ := hd₂
  obtain rfl : ds₁ = ds₂ := dumpText_injective (hfile₁.symm.trans (hd.trans hfile₂))
  exact ⟨programs₁, programs₂, ds₁, hp₁, hp₂, ht₁, ht₂, hfile₁, hfile₂,
    fun ds' hds' => dumpText_injective (hds'.symm.trans hfile₁)⟩

/-- The slack of the buffers does not show in the registers. -/
theorem dumpsim_determines_slack : ∃ fuel₁ fuel₂ s₁ s₂ programs₁ programs₂ ds,
    main wrapping (fun _ _ => 0) [some []] inputDump fuel₁ 2 = .ok s₁ ∧
    main wrapping (fun _ _ => 1) [some []] inputDump fuel₂ 2 = .ok s₂ ∧
    Transcript wrapping.cycle (initializeMachine (fun _ _ => 0) programs₁) [.input 0 7, .rdump] ds
      s₁.machine ∧
    Transcript wrapping.cycle (initializeMachine (fun _ _ => 1) programs₂) [.input 0 7, .rdump] ds
      s₂.machine ∧ [.registers 0 afterInput] = ds := by
  obtain ⟨fuel₁, s₁, h₁, hdump₁⟩ := main_inputDump fun _ _ => 0
  obtain ⟨fuel₂, s₂, h₂, hdump₂⟩ := main_inputDump fun _ _ => 1
  obtain ⟨programs₁, programs₂, ds, -, -, ht₁, ht₂, -, -, hunique⟩ :=
    dumpsim_determines h₁ h₂ (hdump₁.trans hdump₂.symm)
  rw [commandsRead_inputDump] at ht₁ ht₂
  exact ⟨fuel₁, fuel₂, s₁, s₂, programs₁, programs₂, ds, h₁, h₂, ht₁, ht₂, hunique _ hdump₁⟩

end Determines

end ArmSim.Verify
