import ArmSim.Verify.Definedness
import ArmSim.Verify.Lockstep
import ArmSim.Verify.Prompt
import ArmSim.Verify.Static

/-! Information flow between registers. A set of registers is hidden where every instruction that
reads one of them writes to the set only; then nothing outside of it depends on what it holds. -/
namespace ArmSim.Verify
open Shell Sim Spec Loop

section Reads

/-- The registers that an instruction reads. ORR takes its second operand from X0. -/
def reads (w : BitVec 32) : Name → List (BitVec 5)
  | .addsImmediate | .subsImmediate | .addImmediate | .lslImmediate | .lsrImmediate => [rn w]
  | .addsExtendedRegister | .subsExtendedRegister | .addExtendedRegister => [rn w, rm w]
  | .andsShiftedRegister | .eorShifterRegister | .mul => [rn w, rm w]
  | .orrShiftedRegister => [rn w, 0]
  | .stur | .sturb | .sturh => [rn w, rd w]
  | .ldur | .ldurb | .ldurh | .br => [rn w]
  | .cbz | .cbnz => [rd w]
  | .movz | .hlt | .b | .bcond | .subImmediate | .andImmediate => []

variable {u : Indeterminate} {s s' : CpuState} {mem : Memory} {w : BitVec 32} {n : Name}

theorem readReg_congr {i : BitVec 32} (h : ∀ k : BitVec 5, i.toNat = k.toNat → s.reg k = s'.reg k) :
    readReg u s i = readReg u s' i := by
  by_cases hi : i.toNat < armRegs
  · have hk : i.toNat = (BitVec.ofNat 5 i.toNat).toNat := (Nat.mod_eq_of_lt hi).symm
    rw [readReg_eq u s hk, readReg_eq u s' hk, h _ hk]
  · unfold readReg
    rw [dif_neg hi, dif_neg hi]

theorem binaryEffect_congr {i : Instruction} {op2 op2' : Except Fault (BitVec 64)}
    {f : BitVec 64 → BitVec 64 → Except Fault (BitVec 64)} {flags guarded : Bool}
    (hrn : readReg u s i.rn = readReg u s' i.rn) (hop : op2 = op2') :
    binaryEffect u s i op2 f flags guarded = binaryEffect u s' i op2' f flags guarded := by
  unfold binaryEffect
  rw [hrn, hop]

theorem address_congr {i : Instruction} (hrn : readReg u s i.rn = readReg u s' i.rn) :
    address u s i = address u s' i := congrArg (Except.map _) hrn

/-- An instruction does the same in two states that agree on what it reads. -/
theorem DecodesTo.effect_congr (h : DecodesTo w n) (hpc : s.pc = s'.pc) (hN : s.flagN = s'.flagN)
    (hZ : s.flagZ = s'.flagZ) (hreads : ∀ k ∈ reads w n, s.reg k = s'.reg k) (g : Instruction) :
    effect u s mem (decodeInstruction g w) n = effect u s' mem (decodeInstruction g w) n := by
  have hreg {i : BitVec 32} {k : BitVec 5} (hi : i.toNat = k.toNat) (hk : k ∈ reads w n) :
      readReg u s i = readReg u s' i := by
    rw [readReg_eq u s hi, readReg_eq u s' hi, hreads k hk]
  have hn (hk : rn w ∈ reads w n) := hreg (field_regAt 5 w) hk
  have hm (hk : rm w ∈ reads w n) := hreg (field_regAt 16 w) hk
  have hd (hk : rd w ∈ reads w n) := hreg (field_rd w) hk
  have heq := h.record_eq g
  generalize decodeInstruction g w = i at heq
  cases n with
  | addsImmediate | subsImmediate | addImmediate | lslImmediate | lsrImmediate =>
    subst heq
    exact binaryEffect_congr (hn (by simp [reads])) rfl
  | addsExtendedRegister | subsExtendedRegister | andsShiftedRegister | eorShifterRegister
  | mul =>
    subst heq
    exact binaryEffect_congr (hn (by simp [reads])) (hm (by simp [reads]))
  | addExtendedRegister =>
    subst heq
    refine binaryEffect_congr (hn (by simp [reads])) (readReg_congr fun k hk => ?_)
    -- a second operand past the register file is the same in both states
    have hrm : bits 16 6 w = k.toNat := (toNat_field w mask26 16 6 rfl).symm.trans hk
    have hlt := k.isLt
    rw [h.add_rm] at hrm
    obtain rfl : k = rm w := by
      apply BitVec.eq_of_toNat_eq
      split at hrm <;> omega
    exact hreads _ (by simp [reads])
  | orrShiftedRegister =>
    subst heq
    have h0 : ((w >>> 22) &&& mask2bits).toNat = (0 : BitVec 5).toNat :=
      (toNat_field w mask2bits 22 2 rfl).trans h.orr_shamt
    exact binaryEffect_congr (hn (by simp [reads])) (hreg h0 (by simp [reads]))
  | stur | sturb | sturh =>
    have hrn : readReg u s i.rn = readReg u s' i.rn := heq ▸ hn (by simp [reads])
    have hrd : readReg u s i.rd = readReg u s' i.rd := heq ▸ hd (by simp [reads])
    simp only [effect, address_congr hrn, hrd]
  | ldur | ldurb | ldurh =>
    have hrn : readReg u s i.rn = readReg u s' i.rn := heq ▸ hn (by simp [reads])
    simp only [effect, address_congr hrn]
  | br =>
    subst heq
    exact congrArg (Except.map alignedBranchEffect) (hn (by simp [reads]))
  | cbz | cbnz =>
    have hrt : readReg u s i.rt = readReg u s' i.rt := heq ▸ hd (by simp [reads])
    simp only [effect, hrt, hpc]
  | b | bcond => simp only [effect, branchEffect, hpc, hN, hZ]
  | movz | hlt | subImmediate | andImmediate => rfl

end Reads

section Hidden
variable (H : Set (BitVec 5))

/-- Two states that differ in the hidden registers at most. -/
structure AgreeOff (s s' : CpuState) : Prop where
  pc : s.pc = s'.pc
  flagN : s.flagN = s'.flagN
  flagZ : s.flagZ = s'.flagZ
  reg : ∀ k ∉ H, s.reg k = s'.reg k

/-- Two machines between cycles that differ in the hidden registers at most. -/
structure Indistinct (m m' : Machine) : Prop where
  state : AgreeOff H m.currentState m'.currentState
  memory : m.memory = m'.memory
  runBit : m.runBit = m'.runBit
  instructionCount : m.instructionCount = m'.instructionCount

/-- An instruction that reads no hidden register, or does nothing but write to one. -/
def Flows (w : BitVec 32) (n : Name) : Prop :=
  (∀ k ∈ reads w n, k ∉ H) ∨ n.isStore = false ∧ n.isBranch = false ∧ n.setsFlags = false ∧
    (n.writesReg = true → rd w ∈ H)

/-- The writes of one cycle that no one sees. -/
structure Hides (e : Effect) : Prop where
  reg : ∀ k v, e.reg = some (k, v) → ∃ j ∈ H, k.val = j.toNat
  flags : e.flags = none
  store : e.store = none
  pc : e.pc = none

variable {H} {a b : Machine}

theorem Indistinct.fetch_eq (h : Indistinct H a b) : fetch a = fetch b := by
  unfold fetch
  rw [h.memory, h.state.pc]

/-- The same writes on both sides. -/
theorem Indistinct.finish (ha : WellFormed a) (hb : WellFormed b) (h : Indistinct H a b)
    (e : Effect) : Indistinct H (finish e a) (finish e b) := by
  have hnext : AgreeOff H a.nextState b.nextState := ha.latched ▸ hb.latched ▸ h.state
  refine ⟨⟨?_, ?_, ?_, fun k hk => ?_⟩, ?_, ?_, ?_⟩
  · simp only [finish_currentState, finish_pc, h.state.pc]
  · rw [finish_currentState, finish_currentState, (finish_flags e a).1, (finish_flags e b).1,
      hnext.flagN]
  · rw [finish_currentState, finish_currentState, (finish_flags e a).2, (finish_flags e b).2,
      hnext.flagZ]
  · rw [finish_currentState, finish_currentState, reg_finish, reg_finish, hnext.reg k hk]
  · rw [finish_memory, finish_memory, h.memory]
  · rw [finish_runBit, finish_runBit, h.runBit]
  · rw [finish_instructionCount, finish_instructionCount, h.instructionCount]

theorem Hides.reg_finish {e : Effect} (he : Hides H e) {k : BitVec 5} (hk : k ∉ H) (m : Machine) :
    (Verify.finish e m).nextState.reg k = m.nextState.reg k := by
  rw [Verify.reg_finish]
  cases hreg : e.reg with
  | none => rfl
  | some p =>
    obtain ⟨j, hj, hval⟩ := he.reg p.1 p.2 hreg
    refine if_neg fun h => hk ?_
    rwa [BitVec.eq_of_toNat_eq (h.symm.trans hval)]

/-- Writes to hidden registers, whatever the values. -/
theorem Indistinct.finish_hidden (ha : WellFormed a) (hb : WellFormed b) (h : Indistinct H a b)
    {e e' : Effect} (he : Hides H e) (he' : Hides H e') (hhalt : e.halt = e'.halt) :
    Indistinct H (Verify.finish e a) (Verify.finish e' b) := by
  have hnext : AgreeOff H a.nextState b.nextState := ha.latched ▸ hb.latched ▸ h.state
  refine ⟨⟨?_, ?_, ?_, fun k hk => ?_⟩, ?_, ?_, ?_⟩
  · simp only [finish_currentState, finish_pc, he.pc, he'.pc, h.state.pc]
  · rw [finish_currentState, finish_currentState, (finish_flags e a).1, (finish_flags e' b).1,
      he.flags, he'.flags]
    exact hnext.flagN
  · rw [finish_currentState, finish_currentState, (finish_flags e a).2, (finish_flags e' b).2,
      he.flags, he'.flags]
    exact hnext.flagZ
  · rw [finish_currentState, finish_currentState, he.reg_finish hk, he'.reg_finish hk,
      hnext.reg k hk]
  · rw [finish_memory, finish_memory, he.store, he'.store, h.memory]
  · rw [finish_runBit, finish_runBit, hhalt, h.runBit]
  · rw [finish_instructionCount, finish_instructionCount, h.instructionCount]

theorem DecodesTo.hides {u : Indeterminate} {s : CpuState} {mem : Memory} {w : BitVec 32}
    {n : Name} {g : Instruction} {e : Effect} (hd : DecodesTo w n)
    (he : effect u s mem (decodeInstruction g w) n = .ok e) (hstore : n.isStore = false)
    (hbranch : n.isBranch = false) (hflags : n.setsFlags = false)
    (hreg : n.writesReg = true → rd w ∈ H) : Hides H e := by
  have hconf := effect_confined he
  refine ⟨fun k v hk => ?_, ?_, ?_, ?_⟩
  · obtain ⟨hval, hw⟩ := hconf.reg k v hk
    have htype : rowType n ∈ [.I, .X, .IW, .R, .D] := by
      cases n <;> first | (exact absurd hw (by decide)) | decide
    rw [hd.rd_eq htype, field_rd] at hval
    exact ⟨rd w, hreg hw, hval⟩
  · exact Option.eq_none_iff_forall_ne_some.mpr fun r hr => by simp [hconf.flags r hr] at hflags
  · exact Option.eq_none_iff_forall_ne_some.mpr fun r hr => by simp [hconf.store r hr] at hstore
  · exact Option.eq_none_iff_forall_ne_some.mpr fun t ht => by simp [(hconf.pc t ht).1] at hbranch

/-- The step lemma: the machines stay apart in the hidden registers only. -/
theorem Indistinct.cycle {u : Indeterminate} {n : Name} {a' : Machine} (ha : WellFormed a)
    (hb : WellFormed b) (h : Indistinct H a b) (hd : DecodesTo (fetch a) n)
    (hf : Flows H (fetch a) n) (hc : Shell.cycle u a = .ok a') :
    ∃ b', Shell.cycle u b = .ok b' ∧ Indistinct H a' b' := by
  have hdb : DecodesTo (fetch b) n := h.fetch_eq ▸ hd
  obtain ⟨e, he, rfl⟩ := hd.cycle_ok_iff.mp hc
  rcases hf with hseen | ⟨hstore, hbranch, hflags, hreg⟩
  · -- what the instruction reads is the same
    rw [hd.effect_congr h.state.pc h.state.flagN h.state.flagZ
      (fun k hk => h.state.reg k (hseen k hk)), h.fetch_eq, h.memory] at he
    exact ⟨_, hdb.cycle_eq he, h.finish ha hb e⟩
  · have hok := (hd.effect_ok_iff u a.currentState a.memory u.instrDef).mp ⟨e, he⟩
    rw [h.fetch_eq] at hok
    obtain ⟨e', he'⟩ := (hdb.effect_ok_iff u b.currentState b.memory u.instrDef).mpr hok
    have hhalt : e.halt = e'.halt := (effect_confined he).halt.trans (effect_confined he').halt.symm
    refine ⟨_, hdb.cycle_eq he', h.finish_hidden ha hb ?_ ?_ hhalt⟩
    · exact hd.hides he hstore hbranch hflags hreg
    · exact hdb.hides he' hstore hbranch hflags (h.fetch_eq ▸ hreg)

end Hidden

section Session
variable (H : Set (BitVec 5))

/-- Two commands that give different values to a hidden register at most. -/
inductive CommandsAgree : Command → Command → Prop
  | same (c : Command) : CommandsAgree c c
  | input {r : BitVec 32} {k : BitVec 5} (v v' : BitVec 64) : k ∈ H → r.toNat = k.toNat →
      CommandsAgree (.input r v) (.input r v')

/-- Two dumps that show different values of the hidden registers at most. -/
inductive DumpsAgree : Dump → Dump → Prop
  | registers (count : BitVec 32) {s s' : CpuState} : AgreeOff H s s' →
      DumpsAgree (.registers count s) (.registers count s')
  | memory (start stop : BitVec 32) (lines : List (BitVec 32 × BitVec 32)) :
      DumpsAgree (.memory start stop lines) (.memory start stop lines)

variable {H}

theorem AgreeOff.setReg {s s' : CpuState} (h : AgreeOff H s s') {i : Fin armRegs} {v v' : BitVec 64}
    (hv : v = v' ∨ ∃ k ∈ H, i.val = k.toNat) :
    AgreeOff H (Effect.setReg s (some (i, v))) (Effect.setReg s' (some (i, v'))) := by
  refine ⟨h.pc, h.flagN, h.flagZ, fun k hk => ?_⟩
  have hset (s : CpuState) (v : BitVec 64) : (Effect.setReg s (some (i, v))).reg k =
      if i.val = k.toNat then v else s.reg k := Vector.getElem_set i.isLt k.isLt
  rw [hset, hset, h.reg k hk]
  refine if_ctx_congr Iff.rfl (fun hik => ?_) fun _ => rfl
  apply hv.resolve_right
  rintro ⟨j, hj, hij⟩
  exact hk (BitVec.eq_of_toNat_eq (hij.symm.trans hik) ▸ hj)

theorem Indistinct.dumps {m m' : Machine} (h : Indistinct H m m') {c c' : Command}
    (hc : CommandsAgree H c c') : List.Forall₂ (DumpsAgree H) (dumps m c) (dumps m' c') := by
  cases hc with
  | input => exact .nil
  | same c =>
    cases c with
    | rdump =>
      have hcount := h.instructionCount
      simp only [Verify.dumps, hcount]
      exact .cons (.registers _ h.state) .nil
    | mdump start stop =>
      simp only [Verify.dumps, h.memory]
      exact .cons (.memory _ _ _) .nil
    | go | run | help | input | invalid => exact .nil

/-- Machines of two sessions on the same unchanged program. -/
structure Paired (H : Set (BitVec 5)) (mem : Memory) (a b : Machine) : Prop where
  left : WellFormed a
  right : WellFormed b
  loaded : a.memory = mem
  indistinct : Indistinct H a b

theorem Paired.input {mem : Memory} {a b a' : Machine} {r : BitVec 32} {v v' : BitVec 64}
    (h : Paired H mem a b) (hv : v = v' ∨ ∃ k ∈ H, r.toNat = k.toNat)
    (hc : Shell.input r v a = .ok a') : ∃ b', Shell.input r v' b = .ok b' ∧ Paired H mem a' b' := by
  obtain ⟨i, hi, rfl⟩ := input_ok hc
  have hb := input_eq hi v' b
  have hstate : AgreeOff H (Effect.setReg a.currentState (some (i, v)))
      (Effect.setReg b.currentState (some (i, v'))) := h.indistinct.state.setReg (hi ▸ hv)
  exact ⟨_, hb, h.left.command (c := .input r v) (u := fun _ => .zeroed) hc,
    h.right.command (c := .input r v') (u := fun _ => .zeroed) hb, h.loaded,
    hstate, h.indistinct.memory, h.indistinct.runBit, h.indistinct.instructionCount⟩

variable {slack : Memory} {programs : List (List (BitVec 32))}
  (hlen : ∀ words ∈ programs, words.length ≤ 0x40000) {P : BitVec 32 → Name → Prop}
  (huses : Uses programs P)
include hlen huses

section Pairs
variable (hP : ∀ w n, P w n → n.isStore = false ∧ Flows H w n)
  {u : Machine → Indeterminate} (hu : ∀ a b, Indistinct H a b → u a = u b)
include hP hu

theorem Paired.step {a b a' : Machine}
    (h : Paired H (initializeMachine slack programs).memory a b) (hc : Shell.step u a = .ok a') :
    ∃ b', Shell.step u b = .ok b' ∧ Paired H (initializeMachine slack programs).memory a' b' := by
  obtain ⟨-, n, -, -, hn, hPn⟩ := executes_loaded hlen huses h.left h.loaded hc
  obtain ⟨b', hb, hind⟩ := h.indistinct.cycle h.left h.right hn (hP _ _ hPn).2 hc
  rw [hu a b h.indistinct] at hb
  exact ⟨b', hb, h.left.cycle hc, h.right.cycle hb,
    (hn.memory_eq (hP _ _ hPn).1 hc).trans h.loaded, hind⟩

theorem Paired.command {c c' : Command} (hcc : CommandsAgree H c c') {a b a' : Machine}
    (h : Paired H (initializeMachine slack programs).memory a b) (hc : c.Completes u a a') :
    ∃ b', c'.Completes u b b' ∧ Paired H (initializeMachine slack programs).memory a' b' := by
  cases hcc with
  | input v v' hk hr => exact h.input (.inr ⟨_, hk, hr⟩) hc
  | same c =>
    apply completes_lockstep ?_ (fun _ _ hab => hab.indistinct.runBit) ?_ h hc
    · exact fun _ _ _ hab hc => hab.step hlen huses hP hu hc
    · exact fun _ _ _ _ _ hab hc => hab.input (.inl rfl) hc

theorem Paired.transcript {cs cs' : List Command} (hcs : List.Forall₂ (CommandsAgree H) cs cs')
    {a b m : Machine} {ds : List Dump}
    (hab : Paired H (initializeMachine slack programs).memory a b) (h : Transcript u a cs ds m) :
    ∃ ds' m', Transcript u b cs' ds' m' ∧
      Indistinct H m m' ∧ List.Forall₂ (DumpsAgree H) ds ds' := by
  induction hcs generalizing a b ds with
  | nil =>
    obtain ⟨rfl, rfl⟩ := h
    exact ⟨[], b, ⟨rfl, rfl⟩, hab.indistinct, .nil⟩
  | cons hc hcs ih =>
    obtain ⟨a₁, ds₁, hca, hcsa, rfl⟩ := h
    obtain ⟨b₁, hcb, hab₁⟩ := hab.command hlen huses hP hu hc hca
    obtain ⟨ds', m', hcsb, hind, hds⟩ := ih hab₁ hcsa
    exact ⟨_, m', ⟨b₁, ds', hcb, hcsb, rfl⟩, hind, List.rel_append (hab.indistinct.dumps hc) hds⟩

end Pairs

/-- If every instruction of a program without stores that reads a hidden register writes to hidden
registers only, and none is a CBNZ or the ADD that numbers its operand past the register file, then
what the user gives to the hidden registers shows in nothing else: with other values, and whatever C
leaves open, the same session completes as well, and its dumps and its last machine differ in the
hidden registers at most. -/
theorem hidden_session (hflows : ∀ w n, P w n → n.isStore = false ∧ Flows H w n ∧ n ≠ .cbnz ∧
      topBits 11 w ≠ 0b10001011001) (u u' : Machine → Indeterminate) {cs cs' : List Command}
    (hcs : List.Forall₂ (CommandsAgree H) cs cs') {ds : List Dump} {m : Machine}
    (h : Transcript u (initializeMachine slack programs) cs ds m) :
    ∃ ds' m', Transcript u' (initializeMachine slack programs) cs' ds' m' ∧
      Indistinct H m m' ∧ List.Forall₂ (DumpsAgree H) ds ds' := by
  have hP (w : BitVec 32) (n : Name) (h : P w n) : n.isStore = false ∧ Flows H w n :=
    ⟨(hflows w n h).1, (hflows w n h).2.1⟩
  have hclean (w : BitVec 32) (n : Name) (h : P w n) :
      n.isStore = false ∧ n ≠ .cbnz ∧ topBits 11 w ≠ 0b10001011001 :=
    ⟨(hflows w n h).1, (hflows w n h).2.2⟩
  have hm := WellFormed.initial slack programs
  have hsame : Indistinct H (initializeMachine slack programs) (initializeMachine slack programs) :=
    ⟨⟨rfl, rfl, rfl, fun _ _ => rfl⟩, rfl, rfl, rfl⟩
  obtain ⟨ds', m', h', hind, hds⟩ := Paired.transcript hlen huses hP (fun _ _ _ => rfl) hcs
    ⟨hm, hm, rfl, hsame⟩ (transcript_static hlen huses hclean (fun _ => .zeroed) h)
  exact ⟨ds', m', transcript_static hlen huses hclean u' h', hind, hds⟩

end Session

/-- MUL X2, X1, X1, with two values for X1 and two records left over. -/
theorem hidden_session_mul : ∃ ds ds' m m',
    Transcript (fun _ => .zeroed) (oneWord 0x9B017C22) [.input 1 5, .run 1, .rdump] ds m ∧
    Transcript (fun _ => .strict emptySlot) (oneWord 0x9B017C22) [.input 1 7, .run 1, .rdump]
      ds' m' ∧
    List.Forall₂ (DumpsAgree {k | k = 1 ∨ k = 2}) ds ds' := by
  have hd : DecodesTo 0x9B017C22 .mul := by decide +kernel
  let s : CpuState := Effect.setReg (oneWord 0x9B017C22).currentState (some (regNo 1, 5))
  let m₁ : Machine := { oneWord 0x9B017C22 with currentState := s, nextState := s }
  have hd₁ : DecodesTo (fetch m₁) .mul := hd.oneWord
  obtain ⟨m, hc⟩ := hd₁.cycle_defined (u := .zeroed) (fun h => absurd h (by decide))
  have hrun : run (fun _ => .zeroed) 1 m₁ = .ok m := run_one rfl hc
  have h : Transcript (fun _ => .zeroed) (initializeMachine (fun _ _ => 0) [[0x9B017C22]])
      [.input 1 5, .run 1, .rdump] _ m :=
    ⟨m₁, _, rfl, ⟨m, _, hrun, ⟨m, _, rfl, ⟨rfl, rfl⟩, rfl⟩, rfl⟩, rfl⟩
  have huses : Uses [[0x9B017C22]] fun w n => w = 0x9B017C22 ∧ n = .mul := by
    apply uses_of_decodes
    simpa using hd
  have hflows (w : BitVec 32) (n : Name) (h : w = 0x9B017C22 ∧ n = .mul) :
      n.isStore = false ∧ Flows {k | k = 1 ∨ k = 2} w n ∧ n ≠ .cbnz ∧
        topBits 11 w ≠ 0b10001011001 := by
    obtain ⟨rfl, rfl⟩ := h
    exact ⟨rfl, .inr ⟨rfl, rfl, rfl, fun _ => .inr (by decide)⟩, by decide, by decide⟩
  have hcs : List.Forall₂ (CommandsAgree {k | k = 1 ∨ k = 2}) [.input 1 5, .run 1, .rdump]
      [.input 1 7, .run 1, .rdump] :=
    .cons (.input 5 7 (.inl rfl) rfl) (.cons (.same _) (.cons (.same _) .nil))
  obtain ⟨ds', m', h', -, hds⟩ :=
    hidden_session (by decide) huses hflows _ (fun _ => .strict emptySlot) hcs h
  exact ⟨_, ds', m, m', h, h', hds⟩

end ArmSim.Verify
