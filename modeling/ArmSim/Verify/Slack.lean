import ArmSim.Verify.Dump
import ArmSim.Verify.Frame
import ArmSim.Verify.Lanes
import ArmSim.Verify.Lockstep
import ArmSim.Verify.Prompt

/-! The bytes that `malloc` leaves behind each region. They are written by an unaligned STUR. LDUR
reads them in its first, unaligned read, whose word it drops, so that no value which an instruction
delivers depends on them. -/
namespace ArmSim.Verify
open Shell Sim Spec Loop Bytes SignedLoop

section Memory
variable {mem mem' : Memory} {a : BitVec 64}

/-- The memories agree on the bytes that `memset` sets. -/
def SameInside (mem mem' : Memory) : Prop := ∀ r o, o.toNat < r.size.toNat → mem r o = mem' r o

/-- A word at this address ends inside of its region. -/
def Whole (a : BitVec 64) : Prop :=
  ∀ r : Region, r.contains a = true → (r.offset a).toNat + 4 ≤ r.size.toNat

instance (a : BitVec 64) : Decidable (Whole a) :=
  decidable_of_iff (∀ r ∈ memRegions, r.contains a = true → (r.offset a).toNat + 4 ≤ r.size.toNat)
    ⟨fun h r => h r (by cases r <;> decide), fun h r _ => h r⟩

theorem whole_of_aligned (ha : a.toNat % 4 = 0) : Whole a := by
  intro r hr
  have hb := r.bounds
  obtain ⟨haddr, hlt⟩ := Region.offset_of_contains hr
  omega

theorem SameInside.read (h : SameInside mem mem') (ha : Whole a) :
    memRead32 mem a = memRead32 mem' a := by
  cases hf : findRegion a with
  | none => rw [memRead32_of_unmapped hf, memRead32_of_unmapped hf]
  | some r =>
    have hr := findRegion_eq_some.mp hf
    have hwhole := ha r hr
    have hsize := r.size_le
    refine eq_of_bytes (n := 4) rfl fun i hi => ?_
    have hcell : (r.offset a + BitVec.ofNat 32 i).toNat < r.size.toNat := by
      rw [BitVec.toNat_add, BitVec.toNat_ofNat]
      omega
    exact (byte_memRead32 hr mem hi).trans ((h r _ hcell).trans (byte_memRead32 hr mem' hi).symm)

theorem SameInside.write (h : SameInside mem mem') (a : BitVec 64) (v : BitVec 32) :
    SameInside (memWrite32 mem a v) (memWrite32 mem' a v) := by
  intro r o ho
  rw [memWrite32_apply, memWrite32_apply, h r o ho]

theorem SameInside.setMemory (h : SameInside mem mem') (store : Option (BitVec 64 × BitVec 32)) :
    SameInside (Effect.setMemory mem store) (Effect.setMemory mem' store) := by
  cases store with
  | none => exact h
  | some w => exact h.write w.1 w.2

theorem SameInside.narrowed (h : SameInside mem mem') (a : BitVec 64) :
    memRead32 mem (narrowed a) = memRead32 mem' (narrowed a) := by
  apply h.read
  apply whole_of_aligned
  rw [toNat_narrowed]
  omega

theorem SameInside.loadDoubleword (h : SameInside mem mem') (a : BitVec 64) :
    loadDoubleword mem a = loadDoubleword mem' a := by
  have hhigh : Whole ((alignedAddress a + 4).setWidth 64) := by
    have h4 : (4 : BitVec 32).toNat = 4 := rfl
    apply whole_of_aligned
    rw [BitVec.toNat_setWidth, BitVec.toNat_add, toNat_alignedAddress, h4]
    omega
  unfold Spec.loadDoubleword
  rw [h.read hhigh, h.narrowed]

theorem SameInside.effect (h : SameInside mem mem') (u : Indeterminate) (s : CpuState)
    (i : Instruction) (n : Name) : effect u s mem i n = effect u s mem' i n := by
  cases n with
  | sturb | sturh => simp only [Spec.effect, h.narrowed]
  | ldur => simp only [Spec.effect, h.loadDoubleword]
  | ldurb => simp only [Spec.effect, loadByte_eq, h.narrowed]
  | ldurh => simp only [Spec.effect, loadHalfword, h.narrowed]
  | _ => rfl

end Memory

/-- Two machines that differ in the bytes behind the regions at most. -/
structure Alike (m m' : Machine) : Prop where
  current : m.currentState = m'.currentState
  next : m.nextState = m'.nextState
  memory : SameInside m.memory m'.memory
  runBit : m.runBit = m'.runBit
  instructionCount : m.instructionCount = m'.instructionCount

section Cycle
variable {a b : Machine}

theorem Alike.fetch_eq (ha : WellFormed a) (h : Alike a b) : fetch a = fetch b := by
  unfold fetch
  rw [← h.current]
  apply h.memory.read
  apply whole_of_aligned
  have hpc := congrArg BitVec.toNat ha.pc
  rwa [BitVec.toNat_umod] at hpc

/-- The step lemma. The instruction is the same and does the same. -/
theorem Alike.cycle {u : Indeterminate} {a' : Machine} (ha : WellFormed a) (h : Alike a b)
    (hc : Shell.cycle u a = .ok a') : ∃ b', Shell.cycle u b = .ok b' ∧ Alike a' b' := by
  have heffect : instructionEffect u a = instructionEffect u b := by
    unfold instructionEffect
    simp only [h.fetch_eq ha, h.current, h.memory.effect]
  obtain ⟨e, he, rfl⟩ := cycle_ok_iff.mp hc
  refine ⟨_, cycle_ok_iff.mpr ⟨e, heffect.symm.trans he, rfl⟩, ?_⟩
  have hlatch : (finish e a).nextState = (finish e b).nextState := by
    unfold finish
    rw [h.current, h.next]
  refine ⟨hlatch, hlatch, h.memory.setMemory e.store, ?_, ?_⟩
  · rw [finish_runBit, finish_runBit, h.runBit]
  · rw [finish_instructionCount, finish_instructionCount, h.instructionCount]

end Cycle

section Session
variable {u : Machine → Indeterminate} (hu : ∀ a b, Alike a b → u a = u b)

/-- Every word that `mdump` shows ends inside of its region. -/
def WholeDumps (cs : List Command) : Prop :=
  ∀ start stop, .mdump start stop ∈ cs → ∀ a ∈ values 4 start stop, Whole (a.signExtend 64)

theorem signExtend_mod_four (a : BitVec 32) : (a.signExtend 64).toNat % 4 = a.toNat % 4 := by
  rw [BitVec.toNat_signExtend, BitVec.toNat_setWidth]
  split <;> omega

theorem wholeDumps_of_aligned {cs : List Command}
    (h : ∀ start stop, .mdump start stop ∈ cs → start.toNat % 4 = 0) : WholeDumps cs := by
  intro start stop hmem a ha
  have hmod := ((mem_values_iff (by omega) (by omega)).mp ha).2.2
  have hstart := h start stop hmem
  apply whole_of_aligned
  rw [signExtend_mod_four]
  rw [Nat.cast_ofNat, toInt_emod_four, toInt_emod_four] at hmod
  omega

theorem Alike.dumps {c : Command} {a b : Machine} (h : Alike a b) (hc : WholeDumps [c]) :
    dumps a c = dumps b c := by
  cases c with
  | rdump => simp only [Verify.dumps, h.current, h.instructionCount]
  | mdump start stop =>
    have hlines : ((values 4 start stop).map fun x => (x, memRead32 a.memory (x.signExtend 64))) =
        (values 4 start stop).map fun x => (x, memRead32 b.memory (x.signExtend 64)) := by
      refine List.map_congr_left fun x hx => ?_
      rw [h.memory.read (hc start stop (List.mem_singleton.mpr rfl) x hx)]
    exact congrArg (fun l => [Dump.memory start stop l]) hlines
  | go | run | help | input | invalid => rfl

include hu

theorem Alike.command {c : Command} {a b a' : Machine} (ha : WellFormed a) (h : Alike a b)
    (hc : c.Completes u a a') : ∃ b', c.Completes u b b' ∧ Alike a' b' := by
  have hstep (a a' b : Machine) (hab : WellFormed a ∧ Alike a b) (hc : step u a = .ok a') :
      ∃ b', step u b = .ok b' ∧ WellFormed a' ∧ Alike a' b' := by
    obtain ⟨b', hb, hab'⟩ := hab.2.cycle hab.1 hc
    rw [hu a b hab.2] at hb
    exact ⟨b', hb, hab.1.cycle hc, hab'⟩
  have hinput (r : BitVec 32) (v : BitVec 64) (a a' b : Machine) (hab : WellFormed a ∧ Alike a b)
      (hc : input r v a = .ok a') : ∃ b', input r v b = .ok b' ∧ WellFormed a' ∧ Alike a' b' := by
    have ha' : WellFormed a' := hab.1.command (c := .input r v) (u := u) hc
    obtain ⟨k, hk, rfl⟩ := input_ok hc
    exact ⟨_, input_eq hk v b, ha', by rw [hab.2.current], by rw [hab.2.next], hab.2.memory,
      hab.2.runBit, hab.2.instructionCount⟩
  obtain ⟨b', hb, -, hab⟩ :=
    completes_lockstep hstep (fun _ _ hab => hab.2.runBit) hinput ⟨ha, h⟩ hc
  exact ⟨b', hb, hab⟩

theorem Alike.transcript {cs : List Command} (hcs : WholeDumps cs) {a b m : Machine}
    {ds : List Dump} (ha : WellFormed a) (hab : Alike a b) (h : Transcript u a cs ds m) :
    ∃ m', Transcript u b cs ds m' ∧ Alike m m' := by
  induction cs generalizing a b ds with
  | nil =>
    obtain ⟨rfl, rfl⟩ := h
    exact ⟨b, ⟨rfl, rfl⟩, hab⟩
  | cons c cs ih =>
    obtain ⟨a₁, ds₁, hc, h, rfl⟩ := h
    obtain ⟨b₁, hcb, hab₁⟩ := hab.command hu ha hc
    have hcs' : WholeDumps cs := fun start stop hmem => hcs start stop (List.mem_cons_of_mem c hmem)
    obtain ⟨m', hb, hm⟩ := ih hcs' (ha.command hc) hab₁ h
    have hone : WholeDumps [c] := fun start stop hmem =>
      hcs start stop (List.mem_singleton.mp hmem ▸ List.mem_cons_self)
    exact ⟨m', ⟨b₁, ds₁, hcb, hb, by rw [hab.dumps hone]⟩, hm⟩

omit hu in
theorem SameInside.loadWords {mem mem' : Memory} (h : SameInside mem mem')
    (words : List (BitVec 32)) (ii : BitVec 32) :
    SameInside (loadWords ii words mem) (loadWords ii words mem') := by
  induction words generalizing ii mem mem' with
  | nil => exact h
  | cons w words ih => exact ih (h.write _ w) _

omit hu in
theorem alike_initializeMachine (slack slack' : Memory) (programs : List (List (BitVec 32))) :
    Alike (initializeMachine slack programs) (initializeMachine slack' programs) := by
  have hfold (m m' : Machine) (h : Alike m m') :
      Alike (programs.foldl (fun m words => loadProgram words m) m)
        (programs.foldl (fun m words => loadProgram words m) m') := by
    induction programs generalizing m m' with
    | nil => exact h
    | cons words programs ih =>
      apply ih
      refine ⟨?_, h.next, h.memory.loadWords words 0, h.runBit, h.instructionCount⟩
      exact congrArg (fun s : CpuState => { s with pc := memTextStart }) h.current
  have hinit : SameInside (initMemory slack) (initMemory slack') := by
    intro r o ho
    rw [initMemory, initMemory, if_pos ho, if_pos ho]
  have hboot := hfold
    { currentState := bootState, nextState := bootState, memory := initMemory slack,
      runBit := 0, instructionCount := 0 }
    { currentState := bootState, nextState := bootState, memory := initMemory slack',
      runBit := 0, instructionCount := 0 } ⟨rfl, rfl, hinit, rfl, rfl⟩
  exact ⟨hboot.current, hboot.current, hboot.memory, rfl, hboot.instructionCount⟩

/-- Whatever `malloc` leaves behind the regions, a session in which no word of a `mdump` crosses the
end of a region completes and dumps in the same way. -/
theorem slack_session {slack : Memory} (slack' : Memory) {programs : List (List (BitVec 32))}
    {cs : List Command} (hcs : WholeDumps cs) {ds : List Dump} {m : Machine}
    (h : Transcript u (initializeMachine slack programs) cs ds m) :
    ∃ m', Transcript u (initializeMachine slack' programs) cs ds m' ∧ Alike m m' :=
  Alike.transcript hu hcs (.initial slack programs)
    (alike_initializeMachine slack slack' programs) h

end Session

/-- HLT, and a dump of the program. -/
theorem slack_session_hlt : ∃ ds m m', Transcript (fun _ => .zeroed)
      (initializeMachine (fun _ _ => 0) [[0xD4400000]]) [.run 1, .mdump 0x400000 0x400000] ds m ∧
    Transcript (fun _ => .zeroed) (initializeMachine (fun _ _ => 0xFF) [[0xD4400000]])
      [.run 1, .mdump 0x400000 0x400000] ds m' := by
  have hd : DecodesTo 0xD4400000 .hlt := by decide +kernel
  obtain ⟨m, hc⟩ := hd.cycle_oneWord .zeroed (by decide)
  have hrun : run (fun _ => .zeroed) 1 (oneWord 0xD4400000) = .ok m := run_one rfl hc
  have h : Transcript (fun _ => .zeroed) (initializeMachine (fun _ _ => 0) [[0xD4400000]])
      [.run 1, .mdump 0x400000 0x400000] _ m :=
    ⟨m, _, hrun, ⟨m, _, ⟨⟨2, rfl⟩, rfl⟩, ⟨rfl, rfl⟩, rfl⟩, rfl⟩
  have hcs : WholeDumps [.run 1, .mdump 0x400000 0x400000] := by
    apply wholeDumps_of_aligned
    simp
  obtain ⟨m', h', -⟩ := slack_session (fun _ _ _ => rfl) (fun _ _ => 0xFF) hcs h
  exact ⟨_, m, m', h, h'⟩

end ArmSim.Verify
