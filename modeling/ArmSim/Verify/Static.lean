import ArmSim.Verify.Frame
import ArmSim.Verify.Settled
import ArmSim.Verify.Slack

/-! Programs without stores. Their memory never changes, so what holds of every word of the
program files holds of every instruction that a session executes. -/
namespace ArmSim.Verify
open Shell Sim Spec Relation Loop Choice

/-- Each word of the files selects a row of the table, and what it decodes to meets `P`. -/
def Uses (programs : List (List (BitVec 32))) (P : BitVec 32 → Name → Prop) : Prop :=
  ∀ words ∈ programs, ∀ w ∈ words, selectedRow w ≠ none ∧ ∀ n, DecodesTo w n → P w n

theorem DecodesTo.selected {w : BitVec 32} {n : Name} (h : DecodesTo w n) :
    selectedRow w ≠ none := by
  obtain ⟨row, hrow, -⟩ := decodesTo_iff_row.mp h
  rw [hrow]
  exact Option.some_ne_none row

theorem uses_of_decodes {programs : List (List (BitVec 32))} {P : BitVec 32 → Name → Prop}
    (h : ∀ words ∈ programs, ∀ w ∈ words, ∃ n, DecodesTo w n ∧ P w n) : Uses programs P := by
  intro words hwords w hw
  obtain ⟨n, hn, hP⟩ := h words hwords w hw
  exact ⟨hn.selected, fun n' hn' => hn.unique hn' ▸ hP⟩

/-- A row without a mnemonic has no readable name, so only a mnemonic completes its cycle. -/
theorem decodesTo_of_cycle {u : Indeterminate} {m m' : Machine}
    (hsel : selectedRow (fetch m) ≠ none) (hc : cycle u m = .ok m') :
    ∃ n, DecodesTo (fetch m) n := by
  obtain ⟨row, hrow⟩ := Option.ne_none_iff_exists'.mp hsel
  have hname (g : Instruction) : (decodeInstruction g (fetch m)).name = row.name := by
    rw [decodeInstruction_name, decodeInstructionOpcode_eq, hrow]
    rfl
  apply (name_of_emptySlot (fetch m)).resolve_left
  intro hnull
  rw [← decodeInstruction_name, hname, ← hname u.instrDef] at hnull
  obtain ⟨e, he, -⟩ := cycle_ok_iff.mp hc
  unfold instructionEffect at he
  simp [hnull] at he

/-- Zero selects a row without a mnemonic. -/
theorem zero_not_decodes (n : Name) : ¬ DecodesTo 0 n :=
  fun hn => absurd (listed_iff_decodesTo.mpr ⟨n, hn⟩) (by decide)

/-- What cycles preserve lasts through the cycles of a command. -/
theorem WellFormed.cycles_keep {P : Machine → Prop} {a b : Machine} (ha : WellFormed a) (hP : P a)
    (hcycle : ∀ u a b, WellFormed a → P a → Shell.cycle u a = .ok b → P b)
    (hab : ReflTransGen (fun a b => ∃ u, Shell.cycle u a = .ok b) a b) : P b := by
  induction hab with
  | refl => exact hP
  | tail hab hstep ih =>
    obtain ⟨u, hu⟩ := hstep
    exact hcycle u _ _ (ha.cycles hab) ih hu

/-- What cycles and register inputs preserve lasts through a session. -/
theorem Session.keeps {P : Machine → Prop} {m₀ m : Machine} (hm₀ : WellFormed m₀) (h₀ : P m₀)
    (hcycle : ∀ u a b, WellFormed a → P a → cycle u a = .ok b → P b)
    (hinput : ∀ a w, P a → P { a with
      currentState := Effect.setReg a.currentState w, nextState := Effect.setReg a.nextState w })
    (h : Session m₀ m) : P m := by
  induction h with
  | start => exact h₀
  | command u c hs hc ih =>
    have ha := Session.wellFormed hm₀ hs
    cases c with
    | go => exact hc.elim fun _ hgo => ha.cycles_keep ih hcycle (go_cycles hgo)
    | run n => exact ha.cycles_keep ih hcycle (run_cycles hc)
    | mdump start stop => exact hc.2 ▸ ih
    | rdump | help | invalid =>
      obtain rfl := hc
      exact ih
    | input r v =>
      obtain ⟨k, -, rfl⟩ := input_ok hc
      exact hinput _ _ ih
  | cycle u hs hc ih => exact hcycle u _ _ (Session.wellFormed hm₀ hs) ih hc

section Static
variable {slack : Memory} {programs : List (List (BitVec 32))}
  (hlen : ∀ words ∈ programs, words.length ≤ 0x40000) {P : BitVec 32 → Name → Prop}
  (huses : Uses programs P)
include hlen

/-- As long as the memory is what was loaded, the next word is one of the program, or zero. -/
theorem fetch_loaded {m : Machine} (hm : WellFormed m)
    (hmem : m.memory = (initializeMachine slack programs).memory) : fetch m = 0 ∨
      (∃ k, lastWord programs k = some (fetch m) ∧ m.currentState.pc = textWord k) ∧
        ∃ words ∈ programs, fetch m ∈ words := by
  have hread := alignedWords_initializeMachine slack hlen ⟨m.currentState.pc, hm.pc⟩
  rw [← hmem] at hread
  change fetch m = _ at hread
  cases hw : lastWord programs (wordIndex ⟨m.currentState.pc, hm.pc⟩) with
  | none =>
    rw [hw] at hread
    exact .inl hread
  | some w =>
    rw [hw] at hread
    obtain rfl : fetch m = w := hread
    obtain ⟨words, hwords, hat⟩ := List.exists_of_findSome?_eq_some hw
    have hpc := (wordIndex_eq_iff _ (lt_of_lastWord hlen hw)).mp rfl
    exact .inr ⟨⟨_, hw, hpc⟩, words, List.mem_reverse.mp hwords, List.mem_of_getElem? hat⟩

include huses

/-- A cycle that completes on the memory as it was loaded executes a loaded word. -/
theorem executes_loaded {u : Indeterminate} {m m' : Machine} (hm : WellFormed m)
    (hmem : m.memory = (initializeMachine slack programs).memory) (hc : cycle u m = .ok m') :
    ∃ k n, lastWord programs k = some (fetch m) ∧ m.currentState.pc = textWord k ∧
      DecodesTo (fetch m) n ∧ P (fetch m) n := by
  rcases fetch_loaded hlen hm hmem with hzero | ⟨⟨k, hk, hpc⟩, words, hwords, hw⟩
  · obtain ⟨n, hn⟩ := decodesTo_of_cycle (by rw [hzero]; decide) hc
    exact absurd (hzero ▸ hn) (zero_not_decodes n)
  · obtain ⟨hsel, hP⟩ := huses words hwords _ hw
    obtain ⟨n, hn⟩ := decodesTo_of_cycle hsel hc
    exact ⟨k, n, hk, hpc, hn, hP n hn⟩

variable (hstore : ∀ w n, P w n → n.isStore = false)
include hstore

/-- What the instructions of the program and register inputs preserve lasts through a session. -/
theorem Session.keeps_static {Q : Machine → Prop} (h₀ : Q (initializeMachine slack programs))
    (hcycle : ∀ u a b n, WellFormed a → DecodesTo (fetch a) n → P (fetch a) n → Q a →
      cycle u a = .ok b → Q b)
    (hinput : ∀ a w, Q a → Q { a with
      currentState := Effect.setReg a.currentState w, nextState := Effect.setReg a.nextState w })
    {m : Machine} (hs : Session (initializeMachine slack programs) m) : Q m := by
  refine (Session.keeps (P := fun a =>
    a.memory = (initializeMachine slack programs).memory ∧ Q a)
    (.initial slack programs) ⟨rfl, h₀⟩ ?_ (fun a w h => ⟨h.1, hinput a w h.2⟩) hs).2
  rintro u a b ha ⟨hmem, hQ⟩ hc
  obtain ⟨k, n, -, -, hn, hP⟩ := executes_loaded hlen huses ha hmem hc
  exact ⟨(hn.memory_eq (hstore _ _ hP) hc).trans hmem, hcycle u a b n ha hn hP hQ hc⟩

variable {m : Machine} (hs : Session (initializeMachine slack programs) m)
include hs

theorem memory_static : m.memory = (initializeMachine slack programs).memory :=
  Session.keeps_static hlen huses hstore (Q := fun a =>
    a.memory = (initializeMachine slack programs).memory) rfl
    (fun _ _ _ _ _ hn hP h hc => (hn.memory_eq (hstore _ _ hP) hc).trans h) (fun _ _ h => h) hs

theorem runBit_static (hhlt : ∀ w n, P w n → n ≠ .hlt) : m.runBit = 1 := by
  refine Session.keeps_static hlen huses hstore (Q := fun a => a.runBit = 1) rfl ?_
    (fun _ _ h => h) hs
  intro u a b n ha hn hP h hc
  exact ((hn.frame ha.latched hc).runBit (hhlt _ _ hP)).trans h

theorem flags_static (hflags : ∀ w n, P w n → n.setsFlags = false) :
    m.currentState.flagN = 0 ∧ m.currentState.flagZ = 0 := by
  refine Session.keeps_static hlen huses hstore
    (Q := fun a => a.currentState.flagN = 0 ∧ a.currentState.flagZ = 0) ?_ ?_ ?_ hs
  · rw [initializeMachine_currentState]
    exact ⟨rfl, rfl⟩
  · intro u a b n ha hn hP h hc
    obtain ⟨hN, hZ⟩ := hn.flags_kept (hflags _ _ hP) hc
    rw [hN, hZ, ← ha.latched]
    exact h
  · intro a w h
    cases w <;> exact h

/-- A register that no word of the program may write belongs to the `input` command. -/
theorem reg_static {k : BitVec 5} (hreg : ∀ w n, P w n → n.writesReg = true → rd w ≠ k)
    {u : Machine → Indeterminate} {c : Command} {m' : Machine} (hc : c.Completes u m m')
    (hinput : ∀ r v, c = .input r v → r.toNat ≠ k.toNat) :
    m'.currentState.reg k = m.currentState.reg k := by
  have hm := Session.wellFormed (.initial slack programs) hs
  have hkept := hm.cycles_keep (P := fun a => a.memory = (initializeMachine slack programs).memory ∧
    a.currentState.reg k = m.currentState.reg k) (b := m')
    ⟨memory_static hlen huses hstore hs, rfl⟩ <| by
      rintro u a b ha ⟨hmem, h⟩ hc
      obtain ⟨-, n, -, -, hn, hP⟩ := executes_loaded hlen huses ha hmem hc
      refine ⟨(hn.memory_eq (hstore _ _ hP) hc).trans hmem, Eq.trans ?_ h⟩
      cases hw : n.writesReg with
      | false => rw [hn.reg_kept hw hc, ← ha.latched]
      | true => exact (hn.frame ha.latched hc).reg k (.inl (hreg _ _ hP hw).symm)
  cases c with
  | go => exact hc.elim fun _ hgo => (hkept (go_cycles hgo)).2
  | run n => exact (hkept (run_cycles hc)).2
  | mdump start stop => rw [hc.2]
  | rdump | help | invalid =>
    obtain rfl := hc
    rfl
  | input r v =>
    obtain ⟨j, hj, rfl⟩ := input_ok hc
    have hne : j.val ≠ k.toNat := hj ▸ hinput r v rfl
    exact Vector.getElem_set_ne j.isLt k.isLt hne

/-- A program of words that store nothing stays as it was loaded, and only its own words are
executed. So what none of them can do never happens in a session: without HLT the machine is not
halted, without a mnemonic that sets the flags they stay clear, and a register that is no
destination changes by `input` only. -/
theorem static_session :
    m.memory = (initializeMachine slack programs).memory ∧
    (∀ u m', cycle u m = .ok m' → ∃ k n, lastWord programs k = some (fetch m) ∧
      m.currentState.pc = textWord k ∧ DecodesTo (fetch m) n ∧ P (fetch m) n) ∧
    ((∀ w n, P w n → n ≠ .hlt) → m.runBit = 1) ∧
    ((∀ w n, P w n → n.setsFlags = false) →
      m.currentState.flagN = 0 ∧ m.currentState.flagZ = 0) ∧
    ∀ k : BitVec 5, (∀ w n, P w n → n.writesReg = true → rd w ≠ k) →
      ∀ (u : Machine → Indeterminate) (c : Command) m', c.Completes u m m' →
        (∀ r v, c = .input r v → r.toNat ≠ k.toNat) →
          m'.currentState.reg k = m.currentState.reg k := by
  have hm := Session.wellFormed (.initial slack programs) hs
  have hmem := memory_static hlen huses hstore hs
  refine ⟨hmem, fun u m' hc => executes_loaded hlen huses hm hmem hc, ?_, ?_, ?_⟩
  · exact runBit_static hlen huses hstore hs
  · exact flags_static hlen huses hstore hs
  · intro k hreg u c m' hc hinput
    exact reg_static hlen huses hstore hs hreg hc hinput

end Static

section Branch

theorem decodesTo_loop : DecodesTo 0x14000000 .b := by decide +kernel

theorem uses_loop : Uses [[0x14000000]] fun w n => w = 0x14000000 ∧ n = .b := by
  apply uses_of_decodes
  simpa using decodesTo_loop

theorem cycle_loop : ∃ m, cycle .zeroed (oneWord 0x14000000) = .ok m ∧ m.instructionCount = 1 := by
  obtain ⟨m, hc⟩ := decodesTo_loop.cycle_oneWord .zeroed (by decide)
  obtain ⟨e, -, rfl⟩ := cycle_ok_iff.mp hc
  exact ⟨_, hc, rfl⟩

/-- After one cycle of a B to itself. -/
theorem static_session_loop : ∃ m, Session (initializeMachine (fun _ _ => 0) [[0x14000000]]) m ∧
    m.instructionCount = 1 ∧ m.memory = (oneWord 0x14000000).memory ∧ m.runBit = 1 := by
  obtain ⟨m, hc, hcount⟩ := cycle_loop
  have hs : Session (initializeMachine (fun _ _ => 0) [[0x14000000]]) m := .cycle _ .start hc
  obtain ⟨hmem, -, hrun, -⟩ :=
    static_session (by decide) uses_loop (fun _ n hn => hn.2 ▸ rfl) hs
  exact ⟨m, hs, hcount, hmem, hrun fun _ n hn => by simp [hn.2]⟩

end Branch

section Defined
variable {slack : Memory} {programs : List (List (BitVec 32))}
  (hlen : ∀ words ∈ programs, words.length ≤ 0x40000) {P : BitVec 32 → Name → Prop}
  (huses : Uses programs P) (hP : ∀ w n, P w n →
    n.isStore = false ∧ n ≠ .cbnz ∧ topBits 11 w ≠ 0b10001011001)
include hlen huses hP

theorem settled_of_loaded {m : Machine} (hm : WellFormed m)
    (hmem : m.memory = (initializeMachine slack programs).memory) : Settled m := by
  rcases fetch_loaded hlen hm hmem with hzero | ⟨-, words, hwords, hw⟩
  · refine ⟨?_, ?_, fun hn => absurd hn ?_⟩
    · rw [hzero]
      decide
    · rw [hzero]
      decide
    · rw [hzero]
      exact zero_not_decodes .cbnz
  · obtain ⟨hsel, hw⟩ := huses words hwords _ hw
    refine ⟨hsel, fun h21 => ?_, fun hn => absurd rfl (hP _ _ (hw _ hn)).2.1⟩
    have hadd : DecodesTo 0x8B200000 .addExtendedRegister := by decide +kernel
    have hd : DecodesTo (fetch m) .addExtendedRegister :=
      (decodesTo_congr (by rw [h21]; rfl)).mp hadd
    exact (hP _ _ (hw _ hd)).2.2 h21

theorem settledRun_static {m : Machine} (hs : Session (initializeMachine slack programs) m)
    (n : ℕ) : SettledRun n m := by
  refine Along.of_invariant (I := Session (initializeMachine slack programs))
    (fun u _ _ ha _ hc => .cycle u ha hc) (fun a ha _ => ?_) hs
  have hstore (w : BitVec 32) (n : Name) (h : P w n) : n.isStore = false := (hP w n h).1
  exact settled_of_loaded hlen huses hP (Session.wellFormed (.initial slack programs) ha)
    (memory_static hlen huses hstore ha)

theorem transcript_static {u : Machine → Indeterminate} (u' : Machine → Indeterminate)
    {cs : List Command} {ds : List Dump} {m : Machine}
    (h : Transcript u (initializeMachine slack programs) cs ds m) :
    Transcript u' (initializeMachine slack programs) cs ds m := by
  have hsettled {a : Machine} (ha : Session (initializeMachine slack programs) a) :
      SettledSession u a cs := by
    clear h
    induction cs generalizing a with
    | nil => trivial
    | cons c cs ih =>
      refine ⟨?_, fun b hc => ih (.command u c ha hc)⟩
      cases c with
      | go => exact settledRun_static hlen huses hP ha
      | run n => exact settledRun_static hlen huses hP ha _
      | mdump | rdump | help | input | invalid => trivial
  exact h.transfer u' (.initial slack programs) (hsettled .start)

/-- For a program of words in the table, without stores, without CBNZ and without the ADD that
numbers its operand past the register file, no session in which no word of a `mdump` crosses the
end of a region depends on anything that C leaves open: neither in the cycles nor in the bytes that
`malloc` leaves behind the regions. -/
theorem static_defined (u u' : Machine → Indeterminate) (slack' : Memory) {cs : List Command}
    (hcs : WholeDumps cs) {ds : List Dump} {m : Machine}
    (h : Transcript u (initializeMachine slack programs) cs ds m) :
    ∃ m', Transcript u' (initializeMachine slack' programs) cs ds m' ∧ Alike m m' := by
  -- the bytes behind the regions matter to no session in which the cycles leave nothing open
  have hzeroed := transcript_static hlen huses hP (fun _ => .zeroed) h
  have halike := alike_initializeMachine slack slack' programs
  obtain ⟨m', h', hm⟩ := Alike.transcript (fun _ _ _ => rfl) hcs (.initial slack programs) halike
    hzeroed
  exact ⟨m', transcript_static hlen huses hP u' h', hm⟩

end Defined

/-- A B to itself and its dump, for two records left over and two fillings of the buffers. -/
theorem static_defined_loop : ∃ ds m m', m.instructionCount = 1 ∧
    Transcript (fun _ => .zeroed) (initializeMachine (fun _ _ => 0) [[0x14000000]])
      [.run 1, .rdump, .mdump 0x400000 0x400000] ds m ∧
    Transcript (fun _ => .strict { emptySlot with brAddress := 5 })
      (initializeMachine (fun _ _ => 0xFF) [[0x14000000]])
      [.run 1, .rdump, .mdump 0x400000 0x400000] ds m' := by
  obtain ⟨m, hc, hcount⟩ := cycle_loop
  have hrun : run (fun _ => .zeroed) 1 (oneWord 0x14000000) = .ok m := run_one rfl hc
  have h : Transcript (fun _ => .zeroed) (initializeMachine (fun _ _ => 0) [[0x14000000]])
      [.run 1, .rdump, .mdump 0x400000 0x400000] _ m :=
    ⟨m, _, hrun, ⟨m, _, rfl, ⟨m, _, ⟨⟨2, rfl⟩, rfl⟩, ⟨rfl, rfl⟩, rfl⟩, rfl⟩, rfl⟩
  have hcs : WholeDumps [.run 1, .rdump, .mdump 0x400000 0x400000] := by
    apply wholeDumps_of_aligned
    simp
  have hstatic (w : BitVec 32) (n : Name) (hw : w = 0x14000000 ∧ n = .b) :
      n.isStore = false ∧ n ≠ .cbnz ∧ topBits 11 w ≠ 0b10001011001 := by
    obtain ⟨rfl, rfl⟩ := hw
    exact ⟨rfl, by decide, by decide⟩
  obtain ⟨m', h', -⟩ := static_defined (by decide) uses_loop hstatic (fun _ => .zeroed)
    (fun _ => .strict { emptySlot with brAddress := 5 }) (fun _ _ => 0xFF) hcs h
  exact ⟨_, m, m', hcount, h, h'⟩

end ArmSim.Verify
