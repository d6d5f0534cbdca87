import ArmSim.Core.Choice
import ArmSim.Verify.Definedness
import ArmSim.Verify.Step
import ArmSim.Verify.Listing

/-! Programs whose runs C defines. The outcome of a cycle is left open at three kinds of words,
and the runs that meet none of them are the same for every implementation. -/
namespace ArmSim.Verify
open Shell Sim Spec Loop Choice Text Scan

/-- Nothing that the next cycle depends on is left open: the decoder finds the word in its table, an
ADD numbers its operand inside the register file, and a CBNZ is not taken. A slot of the table
without a mnemonic counts as found: every implementation reads the same null name there. -/
structure Settled (m : Machine) : Prop where
  found : selectedRow (fetch m) ≠ none
  inside : topBits 11 (fetch m) ≠ 0b10001011001
  untaken : DecodesTo (fetch m) .cbnz → m.currentState.reg (rd (fetch m)) = 0

/-- The writes of a word at which nothing is left open. -/
def settledEffect (s : CpuState) (mem : Memory) (w : BitVec 32) : Name → Effect
  | .hlt => { halt := true }
  | .stur => { store := some (storeBase .stur (accessAddress s w),
      storeWord mem (accessAddress s w) (s.reg (rd w)) .stur) }
  | .sturb => { store := some (storeBase .sturb (accessAddress s w),
      storeWord mem (accessAddress s w) (s.reg (rd w)) .sturb) }
  | .sturh => { store := some (storeBase .sturh (accessAddress s w),
      storeWord mem (accessAddress s w) (s.reg (rd w)) .sturh) }
  | .ldurh => { lost := some (regNo (rd w), (loadHalfword mem (accessAddress s w)).setWidth 64) }
  | .b => branchEffect s (signedOffset19 (w &&& mask26) (w &&& mask26))
  | .bcond => if branchTaken (w &&& mask5bits) s.flagN s.flagZ then
      branchEffect s (signedOffset19 ((w >>> 5) &&& mask19bits) ((w >>> 5) &&& mask19bits)) else {}
  | .br => alignedBranchEffect (s.reg (rn w))
  | .cbz => if s.reg (rd w) = 0 then alignedBranchEffect (s.pc +
      (signedOffset19 ((w >>> 5) &&& mask19bits) ((w >>> 5) &&& mask19bits) <<< 2))
    else { pc := some (s.pc + 4) }
  | .cbnz => { pc := some (s.pc + 4) }
  | .subImmediate | .andImmediate => {}
  | n => writeback n w ((result s mem w n).getD 0)

/-- A word at which nothing is left open has the same writes whatever C leaves open. -/
theorem DecodesTo.effect_settled {w : BitVec 32} {n : Name} (h : DecodesTo w n)
    (u : Indeterminate) (s : CpuState) (mem : Memory) (g : Instruction)
    (hin : topBits 11 w ≠ 0b10001011001) (hcbnz : n = .cbnz → s.reg (rd w) = 0) :
    effect u s mem (decodeInstruction g w) n = .ok (settledEffect s mem w n) := by
  cases n with
  | addsImmediate | subsImmediate | addImmediate | addsExtendedRegister | subsExtendedRegister
  | andsShiftedRegister | eorShifterRegister | mul | orrShiftedRegister | addExtendedRegister
  | lslImmediate | lsrImmediate | movz | ldur | ldurb =>
    exact h.effect_eq u s mem (fun _ => hin) rfl g
  | stur | sturb | sturh => exact h.effect_store u s mem rfl g
  | ldurh =>
    have hk : regIndex (decodeInstruction g w).rd = .ok (regNo (rd w)) := by
      rw [h.rd_eq (by decide) g]
      exact regIndex_eq (field_rd w)
    exact bind_ok_iff.mpr ⟨_, h.address_eq u s rfl g, bind_ok_iff.mpr ⟨_, hk, rfl⟩⟩
  | cbz => exact h.effect_cbz u s mem g
  | cbnz =>
    rw [h.effect_cbnz u s mem g, if_pos (hcbnz rfl)]
    rfl
  | br =>
    have hv : readReg u s (decodeInstruction g w).rn = .ok (s.reg (rn w)) := by
      rw [h.record_eq g]
      exact readReg_regAt u s 5 w
    exact map_ok_iff.mpr ⟨_, hv, rfl⟩
  | b | bcond =>
    rw [h.record_eq g]
    rfl
  | hlt | subImmediate | andImmediate => rfl

section Cycle
variable {m : Machine}

theorem instructionEffect_of_other {u : Indeterminate}
    (h : (decodeInstruction u.instrDef (fetch m)).name = .other) :
    instructionEffect u m = .ok {} := by
  unfold instructionEffect
  dsimp only
  rw [h]

theorem instructionEffect_of_null {u : Indeterminate}
    (h : (decodeInstruction u.instrDef (fetch m)).name = .null) :
    instructionEffect u m = .error .name := by
  unfold instructionEffect
  dsimp only
  rw [h]

/-- A word that is not in the table is what the record was left as. -/
theorem not_fixed_of_missed (h : selectedRow (fetch m) = none) : ¬ Fixed cycle m := by
  intro hfix
  have hname (g : Instruction) : (decodeInstruction g (fetch m)).name = g.name := by
    rw [decodeInstruction_name, decodeInstructionOpcode_eq, h]
    rfl
  let other : Indeterminate := .strict { emptySlot with name := .other }
  have hother : cycle other m = .ok (finish {} m) :=
    cycle_ok_iff.mpr ⟨{}, instructionEffect_of_other (hname _), rfl⟩
  obtain ⟨e, he, -⟩ := cycle_ok_iff.mp ((hfix (.strict emptySlot) other).trans hother)
  rw [instructionEffect_of_null (hname _)] at he
  exact absurd he (by simp)

theorem not_fixed_of_outside (h : topBits 11 (fetch m) = 0b10001011001) : ¬ Fixed cycle m := by
  intro hfix
  have hw : DecodesTo 0x8B200000 .addExtendedRegister := by decide +kernel
  have hd : DecodesTo (fetch m) .addExtendedRegister := (decodesTo_congr (by rw [h]; rfl)).mp hw
  have hdefined (u : Indeterminate) (hu : ∃ v, u.register ((fetch m >>> 16) &&& mask26) = some v) :
      ∃ m', cycle u m = .ok m' := by
    obtain ⟨e, he⟩ := (hd.effect_ok_iff u m.currentState m.memory u.instrDef).mpr fun _ => hu
    exact ⟨_, hd.cycle_ok_iff.mpr ⟨e, he, rfl⟩⟩
  obtain ⟨m', hc⟩ := hdefined .zeroed ⟨0, rfl⟩
  obtain ⟨e, he, -⟩ := hd.cycle_ok_iff.mp ((hfix (.strict emptySlot) .zeroed).trans hc)
  obtain ⟨v, hv⟩ := (hd.effect_ok_iff _ _ _ emptySlot).mp ⟨e, he⟩ h
  exact absurd hv (by simp [Indeterminate.strict])

theorem not_fixed_of_taken (hm : WellFormed m) (hd : DecodesTo (fetch m) .cbnz)
    (hreg : m.currentState.reg (rd (fetch m)) ≠ 0) : ¬ Fixed cycle m := by
  intro hfix
  have hcycle (br : BitVec 32) : cycle (.strict { emptySlot with brAddress := br }) m = .ok (finish
      { pc := some (m.currentState.pc +
        (signedOffset19 br ((fetch m >>> 5) &&& mask19bits) <<< 2)) } m) := by
    refine hd.cycle_eq ?_
    rw [hd.effect_cbnz, if_neg hreg, alignedBranchEffect_of_aligned hm.pc]
    rfl
  have heq := Except.ok.inj ((hcycle 0).symm.trans ((hfix _ _).trans (hcycle (1#32 <<< 18))))
  have hpc := congrArg (fun x : Machine => x.nextState.pc) heq
  simp only [finish_pc, Option.getD_some] at hpc
  exact absurd ((signedOffset19_target_iff _ _ _ _).mp hpc) (by decide)

theorem Settled.fixed (h : Settled m) : Fixed cycle m := by
  intro u u'
  obtain ⟨row, hrow⟩ := Option.ne_none_iff_exists'.mp h.found
  have hname (g : Instruction) : (decodeInstruction g (fetch m)).name = row.name := by
    rw [decodeInstruction_name, decodeInstructionOpcode_eq, hrow]
    rfl
  rcases name_of_emptySlot (fetch m) with hnull | ⟨n, hd⟩
  · -- a slot without a name, which cannot be read
    rw [← decodeInstruction_name, hname] at hnull
    have heffect (u : Indeterminate) : instructionEffect u m = .error .name :=
      instructionEffect_of_null ((hname _).trans hnull)
    unfold cycle
    rw [processInstruction_eq, processInstruction_eq, heffect, heffect]
  · have hd : DecodesTo (fetch m) n := hd
    have heffect (u : Indeterminate) := hd.effect_settled u m.currentState m.memory u.instrDef
      h.inside fun hcbnz => h.untaken (hcbnz ▸ hd)
    rw [hd.cycle_eq (heffect u), hd.cycle_eq (heffect u')]

/-- The step lemma: a cycle is defined by C exactly at the settled words. -/
theorem fixed_cycle_iff (hm : WellFormed m) : Fixed cycle m ↔ Settled m :=
  ⟨fun hfix => ⟨fun h => not_fixed_of_missed h hfix, fun h => not_fixed_of_outside h hfix,
    fun hd => by_contra fun hreg => not_fixed_of_taken hm hd hreg hfix⟩, Settled.fixed⟩

end Cycle

/-- The cycles among the next `n` of a run are settled. -/
def SettledRun (n : ℕ) (m : Machine) : Prop := Along cycle halted Settled n m

section Run
variable {n : ℕ} {m : Machine} {u u' : Machine → Indeterminate}

theorem settledRun_iff_fixed (hm : WellFormed m) :
    SettledRun n m ↔ Along cycle halted (Fixed cycle) n m :=
  Along.congr (fun _ _ _ hs ht => hs.cycle ht) (fun _ hs => (fixed_cycle_iff hs).symm) hm

theorem run_eq_of_settled (hm : WellFormed m) {K : BitVec 32} (h : SettledRun K.toInt.toNat m) :
    run u K m = run u' K m := by
  rw [run_eq_counted, run_eq_counted]
  exact counted_eq_of_fixed u u' ((settledRun_iff_fixed hm).mp h)

theorem go_eq_of_settled (hm : WellFormed m) (h : ∀ n, SettledRun n m) (fuel : ℕ) :
    go u fuel m = go u' fuel m := by
  rw [go_eq_unbounded, go_eq_unbounded]
  exact unbounded_eq_of_fixed u u' ((settledRun_iff_fixed hm).mp (h fuel))

/-- A `run`, and every shorter one, does the same whatever C leaves open if and only if all its
cycles are settled. -/
theorem run_defined_iff {slack : Memory} {programs : List (List (BitVec 32))}
    (hs : Session (initializeMachine slack programs) m) (K : BitVec 32) :
    SettledRun K.toInt.toNat m ↔ ∀ (u u' : Machine → Indeterminate) (J : BitVec 32),
      J.toInt ≤ K.toInt → run u J m = run u' J m := by
  have hm := Session.wellFormed (.initial slack programs) hs
  rw [settledRun_iff_fixed hm, along_fixed_iff]
  constructor
  · intro h u u' J hJ
    rw [run_eq_counted, run_eq_counted]
    exact h u u' _ (Int.toNat_le_toNat hJ)
  · intro h u u' j hj
    have hK := BitVec.toInt_lt (x := K)
    have hJ : (BitVec.ofNat 32 j).toInt = j := by
      rw [BitVec.toInt_eq_toNat_cond, BitVec.toNat_ofNat, Nat.mod_eq_of_lt (by omega),
        if_pos (by omega)]
    by_cases hneg : K.toInt < 0
    · obtain rfl : j = 0 := by omega
      rfl
    · have heq := h u u' (BitVec.ofNat 32 j) (by omega)
      rwa [run_eq_counted, run_eq_counted, hJ, Int.toNat_natCast] at heq

end Run

/-- MOVZ X0, #1. -/
theorem run_defined_iff_movz : SettledRun (1 : BitVec 32).toInt.toNat (oneWord 0xD2800020) ∧
    ∀ (u u' : Machine → Indeterminate) (J : BitVec 32), J.toInt ≤ (1 : BitVec 32).toInt →
      run u J (oneWord 0xD2800020) = run u' J (oneWord 0xD2800020) := by
  have hset : Settled (oneWord 0xD2800020) := by
    constructor
    · rw [fetch_oneWord]
      decide +kernel
    · rw [fetch_oneWord]
      decide
    · rw [fetch_oneWord]
      exact (absurd · (by decide +kernel))
  have h : SettledRun (1 : BitVec 32).toInt.toNat (oneWord 0xD2800020) :=
    fun _ => ⟨hset, fun _ _ _ => trivial⟩
  exact ⟨h, (run_defined_iff .start 1).mp h⟩

/-- The cycles that a command may perform are settled. -/
def SettledCommand (m : Machine) : Command → Prop
  | .go => ∀ n, SettledRun n m
  | .run cycles => SettledRun cycles.toInt.toNat m
  | .mdump _ _ | .rdump | .help | .input _ _ | .invalid => True

/-- The cycles of all the commands are settled. -/
def SettledSession (u : Machine → Indeterminate) (m : Machine) : List Command → Prop
  | [] => True
  | c :: cs => SettledCommand m c ∧ ∀ m₁, c.Completes u m m₁ → SettledSession u m₁ cs

section Session
variable {u : Machine → Indeterminate} {c : Command} {cs : List Command} {m m' : Machine}

theorem completes_of_settled (u' : Machine → Indeterminate) (hm : WellFormed m)
    (h : SettledCommand m c) (hc : c.Completes u m m') : c.Completes u' m m' := by
  cases c with
  | go =>
    obtain ⟨fuel, hgo⟩ := hc
    exact ⟨fuel, (go_eq_of_settled hm h fuel).symm.trans hgo⟩
  | run cycles => exact (run_eq_of_settled hm h).symm.trans hc
  | mdump | rdump | help | input | invalid => exact hc

theorem SettledSession.transfer (u' : Machine → Indeterminate) (hm : WellFormed m)
    (h : SettledSession u m cs) : SettledSession u' m cs := by
  induction cs generalizing m with
  | nil => trivial
  | cons c cs ih =>
    obtain ⟨hc, hcs⟩ := h
    exact ⟨hc, fun m₁ hm₁ => ih (hm.command hm₁) (hcs m₁ (completes_of_settled u hm hc hm₁))⟩

theorem Transcript.transfer (u' : Machine → Indeterminate) {ds : List Dump} (hm : WellFormed m)
    (hset : SettledSession u m cs) (h : Transcript u m cs ds m') : Transcript u' m cs ds m' := by
  induction cs generalizing m ds with
  | nil => exact h
  | cons c cs ih =>
    obtain ⟨m₁, ds₁, hc, hcs, hds⟩ := h
    exact ⟨m₁, ds₁, completes_of_settled u' hm hset.1 hc,
      ih (hm.command hc) (hset.2 m₁ hc) hcs, hds⟩

end Session

/-- The file can be opened, and holds numbers that fit their type. -/
def ReadsInRange (file : Option (List Char)) (words : List (BitVec 32)) : Prop :=
  ∃ text vs, file = some text ∧ ProgramText text vs ∧ (∀ v ∈ vs, FitsUnsigned 32 v) ∧
    words = vs.map (BitVec.ofInt 32)

theorem ReadsInRange.reads {file : Option (List Char)} {words : List (BitVec 32)}
    (h : ReadsInRange file words) (e : Environment) : Reads e file words := by
  obtain ⟨text, vs, hfile, htext, hfits, hwords⟩ := h
  refine ⟨text, vs, hfile, htext, hwords.trans (List.map_congr_left fun v hv => ?_)⟩
  unfold Environment.storeUnsigned
  rw [if_pos (hfits v hv)]

section Main
variable {e e' : Environment} {slack : Memory} {files : List (Option (List Char))}
  {programs : List (List (BitVec 32))} {cs : List Command} {stdin tail : List Char}

/-- If the numbers in the program files and at the prompt fit their types and all cycles are
settled, then what the process does at the prompt and writes to the dumpsim file depends on nothing
that C leaves open. -/
theorem main_defined (hfiles : List.Forall₂ ReadsInRange files programs) (hne : files ≠ [])
    (htyped : Typed cs stdin tail)
    (hset : SettledSession e.cycle (initializeMachine slack programs) cs)
    (hopen : e.dumpsimOpens = true) (hopen' : e'.dumpsimOpens = true) (m : Machine)
    (ds : List Dump) :
    (∃ enough, ∀ fuel ≥ enough, main e slack files stdin fuel cs.length =
      .ok { machine := m, stdin := tail, dumpsim := dumpText ds }) ↔
    ∃ enough, ∀ fuel ≥ enough, main e' slack files stdin fuel cs.length =
      .ok { machine := m, stdin := tail, dumpsim := dumpText ds } := by
  have hmain (e : Environment) (hopen : e.dumpsimOpens = true) :
      (∃ enough, ∀ fuel ≥ enough, main e slack files stdin fuel cs.length =
        .ok { machine := m, stdin := tail, dumpsim := dumpText ds }) ↔
      Transcript e.cycle (initializeMachine slack programs) cs ds m := by
    have hreads := hfiles.imp fun _ _ h => h.reads e
    rw [htyped.prompts_iff _ _ [] _]
    refine exists_congr fun enough => forall₂_congr fun fuel _ => ?_
    rw [main_of_reads slack stdin fuel cs.length hreads hne hopen]
    rfl
  have hm := WellFormed.initial slack programs
  rw [hmain e hopen, hmain e' hopen']
  exact ⟨fun h => h.transfer e'.cycle hm hset,
    fun h => h.transfer e.cycle hm (hset.transfer e'.cycle hm)⟩

end Main

/-- HLT. -/
theorem settledRun_hlt (n : ℕ) : SettledRun n (oneWord 0xD4400000) := by
  cases n with
  | zero => trivial
  | succ n =>
    intro _
    have hd : DecodesTo (fetch (oneWord 0xD4400000)) .hlt :=
      DecodesTo.oneWord (by decide +kernel)
    refine ⟨⟨?_, ?_, ?_⟩, fun u m hc => ?_⟩
    · rw [fetch_oneWord]
      decide +kernel
    · rw [fetch_oneWord]
      decide
    · rw [fetch_oneWord]
      exact (absurd · (by decide +kernel))
    · -- the machine is halted
      obtain ⟨e, he, rfl⟩ := hd.cycle_ok_iff.mp hc
      obtain rfl := Except.ok.inj he
      cases n with
      | zero => trivial
      | succ n => exact fun hrun => absurd hrun (by simp [halted])

theorem readsInRange_hlt : List.Forall₂ ReadsInRange
    [some (paddedHexText 8 (0xD4400000 : BitVec 32).toNat ++ ([] ++ []))] [[0xD4400000]] := by
  have htext := programText_cons (numeral_paddedHexText 8 (0xD4400000 : BitVec 32).toNat)
    blank_nil (.inl rfl) (.done rfl)
  exact .cons ⟨_, _, rfl, htext, List.forall_mem_singleton.mpr (by decide), rfl⟩ .nil

/-- `go` on a program of one HLT, whether or not an access past the register file faults. -/
theorem main_defined_hlt :
    (∃ enough, ∀ fuel ≥ enough, main wrapping (fun _ _ => 0)
      [some (paddedHexText 8 (0xD4400000 : BitVec 32).toNat ++ ([] ++ []))] ("go".toList ++ []) fuel
        [Command.go].length = .ok
          { machine := finish { halt := true } (oneWord 0xD4400000), stdin := [],
            dumpsim := dumpText [] }) ↔
    ∃ enough, ∀ fuel ≥ enough, main { wrapping with cycle := fun _ => .strict emptySlot }
      (fun _ _ => 0) [some (paddedHexText 8 (0xD4400000 : BitVec 32).toNat ++ ([] ++ []))]
        ("go".toList ++ []) fuel [Command.go].length =
          .ok { machine := finish { halt := true } (oneWord 0xD4400000), stdin := [],
                dumpsim := dumpText [] } :=
  main_defined readsInRange_hlt (List.cons_ne_nil _ _)
    (.command blank_nil (spells_spelling .go) delimited_nil (.done []))
    ⟨settledRun_hlt, fun _ _ => trivial⟩ rfl rfl _ []

end ArmSim.Verify
