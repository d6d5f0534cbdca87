import ArmSim.Verify.Cycle
import ArmSim.Verify.Decoder

/-! Invariants of whole sessions. One cycle preserves the invariant because every effect is
confined; the loops and the other commands follow from that. -/
namespace ArmSim.Verify
open Shell Sim Spec Relation Bytes

/-- What holds of every machine between two cycles. -/
structure WellFormed (m : Machine) : Prop where
  latched : m.currentState = m.nextState
  pc : m.currentState.pc % 4 = 0
  flagN : m.currentState.flagN = 0 ∨ m.currentState.flagN = 1
  flagZ : m.currentState.flagZ = 0 ∨ m.currentState.flagZ = 1
  exclusive : ¬ (m.currentState.flagN = 1 ∧ m.currentState.flagZ = 1)

theorem flagNOf_eq (r : BitVec 64) : flagNOf r = if r.msb then 1 else 0 := by
  have hlt := r.isLt
  have hbit : (r >>> 63).toNat = r.toNat / 2 ^ 63 := by
    rw [BitVec.toNat_ushiftRight, Nat.shiftRight_eq_div_pow]
  have hone : (1 : BitVec 64).toNat = 2 ^ 1 - 1 := rfl
  apply BitVec.eq_of_toNat_eq
  rw [flagNOf, BitVec.toNat_setWidth, BitVec.toNat_and, hone, Nat.and_two_pow_sub_one_eq_mod,
    hbit, BitVec.msb_eq_decide]
  by_cases hs : 2 ^ (64 - 1) ≤ r.toNat
  · rw [decide_eq_true hs, if_pos rfl]
    change r.toNat / 2 ^ 63 % 2 ^ 1 % 2 ^ 32 = 1
    omega
  · rw [decide_eq_false hs, if_neg (by decide)]
    change r.toNat / 2 ^ 63 % 2 ^ 1 % 2 ^ 32 = 0
    omega

/-- The two flags that one result sets are bits, and a zero result is not negative. -/
theorem flags_of_result (r : BitVec 64) : (flagNOf r = 0 ∨ flagNOf r = 1) ∧
    (flagZOf r = 0 ∨ flagZOf r = 1) ∧ ¬ (flagNOf r = 1 ∧ flagZOf r = 1) := by
  refine ⟨?_, ?_, ?_⟩
  · rw [flagNOf_eq]
    split <;> simp
  · unfold flagZOf
    split <;> simp
  · rintro ⟨hn, hz⟩
    have hr : r = 0 := by
      by_contra hne
      rw [flagZOf, if_neg hne] at hz
      exact absurd hz (by decide)
    rw [hr] at hn
    exact absurd hn (by decide)

/-- The effect of a completed cycle, or nothing when the name is no mnemonic. -/
theorem instructionEffect_cases {u : Indeterminate} {m : Machine} {e : Effect}
    (h : instructionEffect u m = .ok e) :
    e = {} ∨ ∃ n, (decodeInstruction u.instrDef (fetch m)).name = .name n ∧
      effect u m.currentState m.memory (decodeInstruction u.instrDef (fetch m)) n = .ok e := by
  unfold instructionEffect at h
  dsimp only at h
  split at h
  · simp at h
  · simp at h
  · exact .inl (Except.ok.inj h).symm
  · rename_i n hn
    exact .inr ⟨n, hn, h⟩

/-- The step lemma: no instruction, whatever the record held and whatever an access past an
array gives, breaks the invariant. -/
theorem WellFormed.cycle {u : Indeterminate} {m m' : Machine} (hm : WellFormed m)
    (h : cycle u m = .ok m') : WellFormed m' := by
  obtain ⟨e, he, rfl⟩ := cycle_ok_iff.mp h
  have hpc : ∀ t, e.pc = some t → t % 4 = 0 := by
    rcases instructionEffect_cases he with rfl | ⟨n, -, he⟩
    · simp
    · exact fun t ht => ((effect_confined he).pc t ht).2 hm.pc
  obtain ⟨hN, hZ⟩ := finish_flags e m
  have hflags : ((finish e m).nextState.flagN = 0 ∨ (finish e m).nextState.flagN = 1) ∧
      ((finish e m).nextState.flagZ = 0 ∨ (finish e m).nextState.flagZ = 1) ∧
      ¬ ((finish e m).nextState.flagN = 1 ∧ (finish e m).nextState.flagZ = 1) := by
    rw [hN, hZ]
    cases e.flags with
    | none => exact hm.latched ▸ ⟨hm.flagN, hm.flagZ, hm.exclusive⟩
    | some r => exact flags_of_result r
  refine ⟨rfl, ?_, hflags.1, hflags.2.1, hflags.2.2⟩
  rw [finish_currentState, finish_pc]
  cases ht : e.pc with
  | none => exact (add_shift_two_mod m.currentState.pc 1).trans hm.pc
  | some t => exact hpc t ht

theorem WellFormed.cycles {m m' : Machine} (hm : WellFormed m)
    (h : ReflTransGen (fun a b => ∃ u, Shell.cycle u a = .ok b) m m') : WellFormed m' := by
  induction h with
  | refl => exact hm
  | tail _ hstep ih => exact hstep.elim fun _ hu => ih.cycle hu

theorem run_cycles {u : Machine → Indeterminate} {n : BitVec 32} {m m' : Machine}
    (h : run u n m = .ok m') : ReflTransGen (fun a b => ∃ u, Shell.cycle u a = .ok b) m m' := by
  unfold run at h
  split_ifs at h with hs
  · exact Except.ok.inj h ▸ .refl
  · exact Loop.counted_reaches (fun a b hab => ⟨u a, hab⟩) h

theorem go_cycles {u : Machine → Indeterminate} {fuel : ℕ} {m m' : Machine}
    (h : go u fuel m = .ok (some m')) :
    ReflTransGen (fun a b => ∃ u, Shell.cycle u a = .ok b) m m' := by
  unfold go at h
  split_ifs at h with hs
  · exact Option.some.inj (Except.ok.inj h) ▸ .refl
  · exact Loop.unbounded_reaches (fun a b hab => ⟨u a, hab⟩) h

theorem input_ok {r : BitVec 32} {v : BitVec 64} {m m' : Machine} (h : input r v m = .ok m') :
    ∃ k : Fin armRegs, k.val = r.toNat ∧ m' = { m with
      currentState := Effect.setReg m.currentState (some (k, v))
      nextState := Effect.setReg m.nextState (some (k, v)) } := by
  simp only [input, writeReg_eq, Loop.bind_ok_iff, Loop.map_ok_iff] at h
  obtain ⟨-, ⟨k, hk, rfl⟩, -, ⟨k', hk', rfl⟩, h⟩ := h
  obtain rfl : k = k' := Except.ok.inj (hk.symm.trans hk')
  exact ⟨k, regIndex_ok_iff.mp hk, (Except.ok.inj h).symm⟩

theorem input_eq {r : BitVec 32} {k : Fin armRegs} (hk : k.val = r.toNat) (v : BitVec 64)
    (m : Machine) : input r v m = .ok { m with
      currentState := Effect.setReg m.currentState (some (k, v))
      nextState := Effect.setReg m.nextState (some (k, v)) } := by
  simp only [input, writeReg_eq, regIndex_ok_iff.mpr hk]
  rfl

theorem WellFormed.command {u : Machine → Indeterminate} {c : Command} {m m' : Machine}
    (hm : WellFormed m) (h : c.Completes u m m') : WellFormed m' := by
  cases c with
  | go => exact h.elim fun _ hgo => hm.cycles (go_cycles hgo)
  | run n => exact hm.cycles (run_cycles h)
  | mdump start stop => exact h.2 ▸ hm
  | rdump | help | invalid => exact (show m' = m from h) ▸ hm
  | input r v =>
    obtain ⟨k, -, rfl⟩ := input_ok h
    refine ⟨?_, hm.pc, hm.flagN, hm.flagZ, hm.exclusive⟩
    simp only [hm.latched]

/-- Loading touches the program counter and the memory only. -/
theorem initializeMachine_currentState (slack : Memory) (programs : List (List (BitVec 32))) :
    (initializeMachine slack programs).currentState =
      { bootState with pc := if programs = [] then 0 else memTextStart } := by
  have hfold : ∀ (ps : List (List (BitVec 32))) (m : Machine),
      (ps.foldl (fun m words => loadProgram words m) m).currentState =
        { m.currentState with pc := if ps = [] then m.currentState.pc else memTextStart } := by
    intro ps
    induction ps with
    | nil => intro m; rfl
    | cons p ps ih =>
      intro m
      rw [List.foldl_cons, ih]
      cases ps <;> rfl
  exact hfold programs _

theorem WellFormed.initial (slack : Memory) (programs : List (List (BitVec 32))) :
    WellFormed (initializeMachine slack programs) := by
  have hs := initializeMachine_currentState slack programs
  refine ⟨rfl, ?_, .inl (by rw [hs]; rfl), .inl (by rw [hs]; rfl), ?_⟩
  · rw [hs]
    dsimp only
    split <;> decide
  · rw [hs]
    rintro ⟨hn, -⟩
    exact absurd (show (0 : BitVec 32) = 1 from hn) (by decide)

/-- The run lemma. -/
theorem Session.wellFormed {m₀ m : Machine} (h₀ : WellFormed m₀) (h : Session m₀ m) :
    WellFormed m := by
  induction h with
  | start => exact h₀
  | command u c _ hc ih => exact ih.command hc
  | cycle u _ hc ih => exact ih.cycle hc

/-- A program of one word, freshly loaded. -/
def oneWord (w : BitVec 32) : Machine := initializeMachine (fun _ _ => 0) [[w]]

theorem fetch_oneWord (w : BitVec 32) : fetch (oneWord w) = w := by
  have hpc : Region.text.contains memTextStart = true := by decide
  rw [fetch, oneWord, initializeMachine_currentState]
  exact memRead32_memWrite32_self hpc (initMemory fun _ _ => 0) w

theorem DecodesTo.oneWord {w : BitVec 32} {n : Name} (h : DecodesTo w n) :
    DecodesTo (fetch (oneWord w)) n := (fetch_oneWord w).symm ▸ h

theorem WellFormed.compareBranch_eq {m : Machine} (hm : WellFormed m) (o : BitVec 64) :
    compareBranch (setNextPc m (m.currentState.pc + 4)) o =
      setNextPc m (m.currentState.pc + (o <<< 2)) := by
  have htarget : (m.currentState.pc + (o <<< 2)) % 4 = 0 :=
    (add_shift_two_mod m.currentState.pc o).trans hm.pc
  exact if_neg (not_not.mpr htarget)

/-- In every session the program counter is aligned and the flags are bits that are not both
set. So a compare-and-branch never refuses its target, and the four bytes of a fetch are all
in the region of the first one, or in none. -/
theorem session_invariant {slack : Memory} {programs : List (List (BitVec 32))} {m : Machine}
    (hs : Session (initializeMachine slack programs) m) :
    m.currentState.pc % 4 = 0 ∧
      (m.currentState.flagN = 0 ∨ m.currentState.flagN = 1) ∧
      (m.currentState.flagZ = 0 ∨ m.currentState.flagZ = 1) ∧
      ¬ (m.currentState.flagN = 1 ∧ m.currentState.flagZ = 1) ∧
      (∀ o, compareBranch (setNextPc m (m.currentState.pc + 4)) o =
        setNextPc m (m.currentState.pc + (o <<< 2))) ∧
      ∀ (r : Region) (j : ℕ), j < 4 →
        r.contains (m.currentState.pc + BitVec.ofNat 64 j) = r.contains m.currentState.pc ∧
        (r.contains m.currentState.pc = true → byte (fetch m) j =
          m.memory r (r.offset (m.currentState.pc + BitVec.ofNat 64 j))) := by
  have hm := Session.wellFormed (.initial slack programs) hs
  refine ⟨hm.pc, hm.flagN, hm.flagZ, hm.exclusive, hm.compareBranch_eq, fun r j hj => ?_⟩
  refine ⟨r.contains_add_of_aligned hm.pc hj, fun hr => ?_⟩
  rw [Region.offset_add]
  exact byte_memRead32 hr m.memory hj

/-- After one cycle of a B to itself. -/
theorem session_invariant_loop : ∃ m, Session (initializeMachine (fun _ _ => 0) [[0x14000000]]) m ∧
    m.instructionCount = 1 ∧ m.currentState.pc % 4 = 0 := by
  have hc : ∃ m, cycle .zeroed (oneWord 0x14000000) = .ok m ∧ m.instructionCount = 1 := by
    have hcount : (cycle .zeroed (oneWord 0x14000000)).map (·.instructionCount) = .ok 1 := by
      decide +kernel
    exact Loop.map_ok_iff.mp hcount
  obtain ⟨m, hc, hcount⟩ := hc
  have hs : Session (initializeMachine (fun _ _ => 0) [[0x14000000]]) m := .cycle _ .start hc
  exact ⟨m, hs, hcount, (session_invariant hs).1⟩

end ArmSim.Verify
