import ArmSim.Arch.Session
import ArmSim.Verify.Listing

/-! From the listing of a program to the dumpsim file: the whole way of a program through the
scripts, the loader, the prompt, the simulator and the dump commands, against the architecture. -/
namespace ArmSim.Arch
open Shell Sim Spec Verify Loop Simulation Text Inputs

section Session
variable {e : Environment} {stale : Option Bool} {slack : Memory}
  {programs : List (List (BitVec 32))} {listings : List (List (List Char))}
  {stdin tail : List Char} {cs : List Command} {vs : List View}

theorem main_of_transcript {files : List (Option (List Char))} {ds : List Dump} {m : Machine}
    (hreads : List.Forall₂ (Reads e) files programs) (hne : programs ≠ [])
    (hopen : e.dumpsimOpens = true) (htyped : Typed cs stdin tail)
    (ht : Transcript e.cycle (initializeMachine slack programs) cs ds m) :
    ∃ enough, ∀ fuel ≥ enough, (main e slack files stdin fuel cs.length).map (·.dumpsim) =
      .ok (dumpText ds) := by
  have hfiles : files ≠ [] := fun hnil => hne (List.forall₂_nil_left_iff.mp (hnil ▸ hreads))
  obtain ⟨enough, hrun⟩ := (htyped.prompts_iff _ _ [] _).mp ht
  refine ⟨enough, fun fuel hfuel => ?_⟩
  rw [(main_of_reads slack stdin fuel cs.length hreads hfiles hopen).trans (hrun fuel hfuel)]
  rfl

/-- A program is disassembled, made a program file by either script, loaded, and a session with it
is typed at the prompt. If the session is one that the architecture supports, the dumpsim file shows
what the architecture shows: the registers, the flags, the counts and the words of memory at each of
the dump commands. -/
theorem assembled_session (he : ∀ m, Leftover (e.cycle m) stale)
    (hopen : e.dumpsimOpens = true) (hl : List.Forall₂ Listing programs listings)
    (hne : programs ≠ []) (hlen : ∀ words ∈ programs, words.length ≤ 0x40000)
    (htyped : Typed cs stdin tail) (hstory : Story stale (boot programs) 0 cs vs) :
    ∃ ds, List.Forall₂ Truthful vs ds ∧ ∀ script ∈ [asm2hex, asm2hex3], ∃ enough,
      ∀ fuel ≥ enough, (main e slack (listings.map fun lines => some (script lines)) stdin fuel
        cs.length).map (·.dumpsim) = .ok (dumpText ds) := by
  have hboot := represents_boot slack hne hlen
  obtain ⟨ds, m, ht, hds⟩ := hstory.transcript he hboot (initializeMachine_instructionCount _ _)
  refine ⟨ds, hds, fun script hscript => ?_⟩
  exact main_of_transcript (reads_scripts e hscript hl) hne hopen htyped ht

end Session

/-- The disassembly of the program `addHlt`. -/
def addHltLines : List (List Char) := ["0000000000400000 <main>:
".toList,
  "  400000:".toList ++ '\t' :: (paddedHexText 8 (Instr.immediate .add false 7 1 0).word.toNat ++
    [' '] ++ '\t' :: "add\tx0, x1, #0x7\n".toList),
  "  400004:".toList ++ '\t' :: (paddedHexText 8 (Instr.hlt 0).word.toNat ++ [' '] ++
    '\t' :: "hlt\t#0x0\n".toList)]

theorem listing_addHltLines : List.Forall₂ Listing addHlt [addHltLines] := by
  have hspace : ∀ c ∈ [' '], c = ' ' := List.forall_mem_singleton.mpr rfl
  exact .cons (.other (.other (by decide)) (.word (.word _ (by decide) rfl hspace)
    (.word (.word _ (by decide) rfl hspace) .nil))) .nil

/-- `go`, `rdump` and `mdump` of the first word. -/
def goDump : List Char :=
  "go".toList ++ (" ".toList ++ ("rdump".toList ++ (" ".toList ++
    spelling (.mdump 0x400000 0x400000))))

theorem typed_goDump : Typed [.go, .rdump, .mdump 0x400000 0x400000] goDump [] := by
  have hgap : Gap " ".toList := gap_singleton rfl
  have h := Typed.command blank_nil (spells_spelling .go) (hgap.delimited _)
    (.command hgap.blank (spells_spelling .rdump) (hgap.delimited _)
      (.command hgap.blank (spells_spelling (.mdump 0x400000 0x400000)) delimited_nil
        (.done [])))
  rwa [List.append_nil] at h

theorem story_goDump : Story none (boot addHlt) 0 [.go, .rdump, .mdump 0x400000 0x400000]
    [.registers 2 addHltEnd, .memory 0x400000 0x400000 addHltEnd] :=
  .command (.go run_addHlt rfl) (.command .rdump (.command (.mdump (by decide)) .done))

theorem assembled_session_addHlt : ∃ ds,
    List.Forall₂ Truthful [.registers 2 addHltEnd, .memory 0x400000 0x400000 addHltEnd] ds ∧
    ∀ script ∈ [asm2hex, asm2hex3], ∃ enough, ∀ fuel ≥ enough,
      (main wrapping (fun _ _ => 0) ([addHltLines].map fun lines => some (script lines)) goDump fuel
        [Command.go, .rdump, .mdump 0x400000 0x400000].length).map (·.dumpsim) =
          .ok (dumpText ds) :=
  assembled_session (fun _ => leftover_none) rfl listing_addHltLines (List.cons_ne_nil _ _)
    (by simp [addHlt]) typed_goDump story_goDump

end ArmSim.Arch
