import ArmSim.Verify.Chunking
import ArmSim.Verify.Dump
import ArmSim.Verify.DumpFile

/-! The prompt as a reader of text. A command that is read is one of the session's commands,
performed on the machine, and every prompt that returns has consumed input. -/
namespace ArmSim.Verify
open Shell Text Scan Loop SignedLoop

/-- What a command appends to the dumpsim file, by the machine that it finds. -/
def dumps (m : Machine) : Command → List Dump
  | .rdump => [.registers m.instructionCount m.currentState]
  | .mdump start stop => [.memory start stop
      ((values 4 start stop).map fun a => (a, memRead32 m.memory (a.signExtend 64)))]
  | .go | .run _ | .help | .input _ _ | .invalid => []

def dumpText (ds : List Dump) : List Char := ds.flatMap Dump.text

section Perform
variable {e : Environment} {fuel : ℕ} {c : Command} {s s' : Console}

theorem advance_eq_ok {x : Except Sim.Fault Machine} (h : s.advance x = .ok s') :
    x = .ok s'.machine ∧ s' = { s with machine := s'.machine } := by
  cases x with
  | error f => exact absurd h nofun
  | ok m =>
    obtain rfl := Except.ok.inj h
    exact ⟨rfl, rfl⟩

/-- The outcome of a command that dumps nothing. -/
theorem advance_ok {m' : Machine} (hc : dumps s.machine c = []) : s.advance (.ok m') = .ok
    { s with machine := m', dumpsim := s.dumpsim ++ dumpText (dumps s.machine c) } := by
  rw [hc, dumpText, List.flatMap_nil, List.append_nil]
  rfl

/-- A command that is performed completes in the sense of the session, and appends its dumps. -/
theorem completes_of_perform (h : c.perform e fuel s = .ok s') :
    c.Completes e.cycle s.machine s'.machine ∧ s' = { s with
      machine := s'.machine, dumpsim := s.dumpsim ++ dumpText (dumps s.machine c) } := by
  cases c with
  | go =>
    unfold Command.perform at h
    dsimp only at h
    split at h
    · exact absurd h nofun
    · rename_i m hgo
      obtain ⟨hm, hs⟩ := advance_eq_ok h
      refine ⟨⟨fuel, by rw [hgo, Except.ok.inj hm]⟩, ?_⟩
      rw [hs]
      simp [dumpText, dumps]
    · exact absurd h nofun
  | run cycles =>
    obtain ⟨hm, hs⟩ := advance_eq_ok h
    refine ⟨hm, ?_⟩
    rw [hs]
    simp [dumpText, dumps]
  | mdump start stop =>
    unfold Command.perform at h
    dsimp only at h
    split at h
    · exact absurd h nofun
    · rename_i lines hlines
      obtain rfl := Except.ok.inj h
      obtain ⟨-, rfl⟩ := exists_mdumpLoop_iff.mp ⟨fuel, hlines⟩
      exact ⟨⟨⟨fuel, Option.isSome_of_eq_some hlines⟩, rfl⟩, by simp [dumpText, dumps, Dump.text]⟩
  | rdump =>
    obtain rfl := Except.ok.inj h
    exact ⟨rfl, by simp [dumpText, dumps, Dump.text]⟩
  | help | invalid =>
    obtain rfl := Except.ok.inj h
    exact ⟨rfl, by simp [dumpText, dumps]⟩
  | input r v =>
    obtain ⟨hm, hs⟩ := advance_eq_ok h
    refine ⟨hm, ?_⟩
    rw [hs]
    simp [dumpText, dumps]

/-- A command that has come to an end does not notice more fuel. -/
theorem perform_mono {fuel' : ℕ} (h : c.perform e fuel s ≠ .error .running)
    (hle : fuel ≤ fuel') : c.perform e fuel' s = c.perform e fuel s := by
  cases c with
  | go =>
    have hgo : Shell.go e.cycle fuel' s.machine = Shell.go e.cycle fuel s.machine := by
      simp only [go_eq_unbounded]
      refine unbounded_mono (fun hnone => h ?_) hle
      rw [← go_eq_unbounded] at hnone
      simp only [Command.perform, hnone]
    simp only [Command.perform, hgo]
  | mdump start stop =>
    have hloop : mdumpLoop s.machine.memory stop fuel' start =
        mdumpLoop s.machine.memory stop fuel start := by
      simp only [mdumpLoop_eq_forLe]
      refine forLe_mono (fun hnone => h ?_) hle
      rw [← mdumpLoop_eq_forLe] at hnone
      simp only [Command.perform, hnone]
    simp only [Command.perform, hloop]
  | run | rdump | help | input | invalid => rfl

/-- A command that completes is performed as soon as the fuel suffices. -/
theorem perform_of_completes {m' : Machine} (h : c.Completes e.cycle s.machine m') :
    ∃ fuel, c.perform e fuel s = .ok { s with
      machine := m', dumpsim := s.dumpsim ++ dumpText (dumps s.machine c) } := by
  cases c with
  | go =>
    obtain ⟨fuel, hgo⟩ := h
    refine ⟨fuel, ?_⟩
    simp only [Command.perform, hgo]
    exact advance_ok rfl
  | run cycles =>
    have hrun : Shell.run e.cycle cycles s.machine = .ok m' := h
    refine ⟨0, ?_⟩
    simp only [Command.perform, hrun]
    exact advance_ok rfl
  | mdump start stop =>
    obtain ⟨⟨fuel, hsome⟩, rfl⟩ := h
    obtain ⟨lines, hlines⟩ := Option.isSome_iff_exists.mp hsome
    obtain ⟨-, rfl⟩ := exists_mdumpLoop_iff.mp ⟨fuel, hlines⟩
    refine ⟨fuel, ?_⟩
    simp only [Command.perform, hlines]
    simp [dumpText, dumps, Dump.text]
  | rdump =>
    obtain rfl : m' = s.machine := h
    exact ⟨0, by simp [Command.perform, dumpText, dumps, Dump.text]⟩
  | help | invalid =>
    obtain rfl : m' = s.machine := h
    exact ⟨0, by simp [Command.perform, dumpText, dumps]⟩
  | input r v =>
    have hinput : Shell.input r v s.machine = .ok m' := h
    refine ⟨0, ?_⟩
    simp only [Command.perform, hinput]
    exact advance_ok rfl

end Perform

section Consume

theorem convert_length_le {k : Conversion} {input rest : List Char}
    (h : convert k input = .matchingFailure rest) : rest.length ≤ input.length := by
  have hskip := skipSpace_length_le input
  unfold convert at h
  generalize skipSpace input = text at h hskip
  cases text with
  | nil => exact absurd h nofun
  | cons c cs =>
    dsimp only at h
    split at h
    · exact absurd h nofun
    · obtain rfl := Scanned.matchingFailure.inj h
      exact (munch_length_le _ _).trans hskip

theorem scanf_length_le (ks : List Conversion) (input : List Char) :
    (scanf ks input).2.length ≤ input.length := by
  induction ks generalizing input with
  | nil => exact le_rfl
  | cons k ks ih =>
    unfold scanf
    split
    · exact Nat.zero_le _
    · rename_i rest h
      exact convert_length_le h
    · rename_i v rest h
      exact (ih rest).trans (length_of_converted h).le

theorem switch_length_le (e : Environment) (b : Char) (b' : Option Char) (input : List Char) :
    (switch e b b' input).2.length ≤ input.length := by
  have hscan (ks : List Conversion) {vs : List ℤ} {rest : List Char}
      (h : scanf ks input = (vs, rest)) : rest.length ≤ input.length := by
    have hle := scanf_length_le ks input
    rwa [h] at hle
  unfold switch
  split_ifs
  · exact le_rfl
  · split <;> exact hscan _ ‹_›
  · exact le_rfl
  · exact le_rfl
  · exact le_rfl
  · split <;> exact hscan _ ‹_›
  · split <;> exact hscan _ ‹_›
  · exact le_rfl

theorem scanWord_length {input rest : List Char} {word : List Char}
    (h : scanWord input = (word, rest)) : word.length + rest.length ≤ input.length := by
  obtain ⟨rfl, rfl⟩ := Prod.mk.inj h
  have hsplit := congrArg List.length
    (List.takeWhile_append_dropWhile (p := fun c => !isSpace c) (l := skipSpace input))
  rw [List.length_append] at hsplit
  rw [hsplit]
  exact skipSpace_length_le input

end Consume

section Read
variable {e : Environment} {s : Console} {input rest : List Char} {a : Action}

/-- What a prompt reads: the case of the `switch` that its word selects, and the input behind the
operands. Nothing is read where there is no word, or one that does not fit the buffer. -/
def nextAction (e : Environment) (input : List Char) : Option (Action × List Char) :=
  match scanWord input with
  | ([], _) => none
  | (buffer0 :: more, rest) =>
    if bufferSize < (buffer0 :: more).length + 1 then none
    else some (switch e buffer0 more.head? rest)

/-- The commands that the first `n` prompts read. -/
def commandsRead (e : Environment) : ℕ → List Char → List Command
  | 0, _ => []
  | n + 1, input =>
    match nextAction e input with
    | some (.command c, rest) => c :: commandsRead e n rest
    | some (.skip, rest) => commandsRead e n rest
    | some (.quit, _) | none => []

theorem commandsRead_length_le (e : Environment) (n : ℕ) (input : List Char) :
    (commandsRead e n input).length ≤ n := by
  induction n generalizing input with
  | zero => exact le_rfl
  | succ n ih =>
    unfold commandsRead
    split
    · exact Nat.succ_le_succ (ih _)
    · exact (ih _).trans (Nat.le_succ n)
    · exact Nat.zero_le _
    · exact Nat.zero_le _

theorem length_of_nextAction (h : nextAction e input = some (a, rest)) :
    rest.length < input.length := by
  unfold nextAction at h
  split at h
  · exact absurd h nofun
  · rename_i b more input' hword
    split_ifs at h with hfit
    have hlen := scanWord_length hword
    have hswitch := switch_length_le e b more.head? input'
    rw [Option.some.inj h] at hswitch
    rw [List.length_cons] at hlen
    dsimp only at hswitch
    omega

/-- A prompt performs what it reads. -/
theorem getCommand_of_read (h : nextAction e s.stdin = some (a, rest)) (fuel : ℕ) :
    getCommand e fuel s = match a with
      | .quit => .error (.exit 0 (some s.dumpsim))
      | .skip => .ok { s with stdin := rest }
      | .command c => c.perform e fuel { s with stdin := rest } := by
  unfold nextAction at h
  unfold getCommand
  rcases hword : scanWord s.stdin with ⟨_ | ⟨b, more⟩, input⟩ <;> rw [hword] at h
  · exact absurd h nofun
  · by_cases hfit : bufferSize < (b :: more).length + 1
    · exact absurd ((if_pos hfit).symm.trans h) nofun
    · have hswitch := Option.some.inj ((if_neg hfit).symm.trans h)
      simp only [if_neg hfit, hswitch]
      cases a <;> rfl

theorem getCommand_of_unread (h : nextAction e s.stdin = none) :
    (∀ fuel, getCommand e fuel s = .error (.exit 0 (some s.dumpsim))) ∨
      ∀ fuel, getCommand e fuel s = .error .bufferOverrun := by
  unfold nextAction at h
  unfold getCommand
  rcases hword : scanWord s.stdin with ⟨_ | ⟨b, more⟩, input⟩ <;> rw [hword] at h
  · exact .inl fun _ => rfl
  · by_cases hfit : bufferSize < (b :: more).length + 1
    · exact .inr fun _ => if_pos hfit
    · exact absurd ((if_neg hfit).symm.trans h) nofun

end Read

/-- The commands complete one after the other and dump `ds`. -/
def Transcript (u : Machine → Sim.Indeterminate) (m : Machine) :
    List Command → List Dump → Machine → Prop
  | [], ds, m' => m' = m ∧ ds = []
  | c :: cs, ds, m' => ∃ m₁ ds₁, c.Completes u m m₁ ∧ Transcript u m₁ cs ds₁ m' ∧
      ds = dumps m c ++ ds₁

section Transcript
variable {u : Machine → Sim.Indeterminate} {cs : List Command} {ds : List Dump}

theorem Transcript.session {m₀ m m' : Machine} (h₀ : Session m₀ m)
    (h : Transcript u m cs ds m') : Session m₀ m' := by
  induction cs generalizing m ds with
  | nil => exact h.1 ▸ h₀
  | cons c cs ih =>
    obtain ⟨m₁, ds₁, hc, hcs, -⟩ := h
    exact ih (.command u c h₀ hc) hcs

end Transcript

section Prompts
variable {e : Environment} {fuel : ℕ} {s s' : Console}

/-- The step lemma: a prompt that returns consumes input and performs the command that it reads, if
it reads one. -/
theorem getCommand_ok (h : getCommand e fuel s = .ok s') :
    s'.stdin.length < s.stdin.length ∧ ∃ cs ds,
      (∀ n, commandsRead e (n + 1) s.stdin = cs ++ commandsRead e n s'.stdin) ∧
      Transcript e.cycle s.machine cs ds s'.machine ∧ s'.dumpsim = s.dumpsim ++ dumpText ds := by
  cases hread : nextAction e s.stdin with
  | none =>
    rcases getCommand_of_unread hread with hexit | hover
    · exact absurd ((hexit fuel).symm.trans h) nofun
    · exact absurd ((hover fuel).symm.trans h) nofun
  | some p =>
    obtain ⟨a, rest⟩ := p
    have hlen := length_of_nextAction hread
    have hdo := (getCommand_of_read hread fuel).symm.trans h
    cases a with
    | quit => exact absurd hdo nofun
    | skip =>
      obtain rfl := Except.ok.inj hdo
      exact ⟨hlen, [], [], fun n => by simp only [commandsRead, hread, List.nil_append],
        ⟨rfl, rfl⟩, (List.append_nil _).symm⟩
    | command c =>
      obtain ⟨hdone, hs⟩ := completes_of_perform hdo
      have hrest : s'.stdin = rest := congrArg Console.stdin hs
      refine ⟨hrest ▸ hlen, [c], dumps s.machine c, fun n => ?_,
        ⟨_, [], hdone, ⟨rfl, rfl⟩, (List.append_nil _).symm⟩, congrArg Console.dumpsim hs⟩
      simp only [commandsRead, hread, hrest, List.cons_append, List.nil_append]

theorem Transcript.append {u : Machine → Sim.Indeterminate} {cs cs' : List Command}
    {ds ds' : List Dump} {m m₁ m' : Machine} (h : Transcript u m cs ds m₁)
    (h' : Transcript u m₁ cs' ds' m') : Transcript u m (cs ++ cs') (ds ++ ds') m' := by
  induction cs generalizing m ds with
  | nil =>
    obtain ⟨rfl, rfl⟩ := h
    exact h'
  | cons c cs ih =>
    obtain ⟨m₂, ds₂, hc, hcs, rfl⟩ := h
    exact ⟨m₂, ds₂ ++ ds', hc, ih hcs, List.append_assoc _ _ _⟩

/-- The run lemma: the prompts perform the commands that they read, in this order. -/
theorem prompts_transcript {n : ℕ} (h : iterate (getCommand e fuel) n s = .ok s') :
    n + s'.stdin.length ≤ s.stdin.length ∧ ∃ ds,
      Transcript e.cycle s.machine (commandsRead e n s.stdin) ds s'.machine ∧
        s'.dumpsim = s.dumpsim ++ dumpText ds := by
  induction n generalizing s with
  | zero =>
    obtain rfl := Except.ok.inj h
    exact ⟨by omega, [], ⟨rfl, rfl⟩, (List.append_nil _).symm⟩
  | succ n ih =>
    obtain ⟨s₁, hs₁, h⟩ := bind_ok_iff.mp h
    obtain ⟨hlen₁, cs₁, ds₁, hread, ht₁, hd₁⟩ := getCommand_ok hs₁
    obtain ⟨hlen, ds, ht, hd⟩ := ih h
    refine ⟨by omega, ds₁ ++ ds, ?_, ?_⟩
    · rw [hread]
      exact ht₁.append ht
    · rw [hd, hd₁, dumpText, dumpText, dumpText, List.flatMap_append, List.append_assoc]

/-- The loop of the command does not end on this machine. -/
def Diverges (u : Machine → Sim.Indeterminate) (m : Machine) : Command → Prop
  | .go => ∀ fuel, Shell.go u fuel m = .ok none
  | .mdump start stop => ∀ fuel, mdumpLoop m.memory stop fuel start = none
  | .run _ | .rdump | .help | .input _ _ | .invalid => False

/-- The prompt does not return: it exits with the dumpsim file as it is, has no defined
continuation, or performs a command whose loop does not end. -/
inductive Leaves (e : Environment) (enough : ℕ) (s : Console) : Prop
  | exit (h : ∀ fuel, getCommand e fuel s = .error (.exit 0 (some s.dumpsim)))
  | bufferOverrun (h : ∀ fuel, getCommand e fuel s = .error .bufferOverrun)
  | fault (f : Sim.Fault) (h : ∀ fuel ≥ enough, getCommand e fuel s = .error (.fault f))
  | diverges (c : Command) (hc : Diverges e.cycle s.machine c)
    (h : ∀ fuel, getCommand e fuel s = .error .running)

theorem Leaves.mono {enough enough' : ℕ} (h : Leaves e enough s) (hle : enough ≤ enough') :
    Leaves e enough' s := by
  cases h with
  | exit h => exact .exit h
  | bufferOverrun h => exact .bufferOverrun h
  | fault f h => exact .fault f fun fuel hfuel => h fuel (by omega)
  | diverges c hc h => exact .diverges c hc h

end Prompts

end ArmSim.Verify
