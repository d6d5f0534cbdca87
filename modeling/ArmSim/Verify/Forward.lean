import ArmSim.Verify.Control

/-! Programs that store nothing and branch forward only. The position of the program counter in
the text rises with every cycle, so that every `go` ends. -/
namespace ArmSim.Verify
open Shell Sim Spec Loop

/-- An instruction that goes on ahead only in the simulator, at a target that is fixed. -/
def Forward (w : BitVec 32) (n : Name) : Prop :=
  n ≠ .br ∧ n ≠ .cbnz ∧ ∀ o ∈ successors w n, 0 < o.toInt

/-- The step lemma: the program counter moves ahead, by a short way. -/
theorem DecodesTo.pc_forward {u : Indeterminate} {m m' : Machine} {n : Name} (hm : WellFormed m)
    (hd : DecodesTo (fetch m) n) (hf : Forward (fetch m) n) (hc : cycle u m = .ok m') :
    ∃ d, 0 < d ∧ d < 2 ^ 18 ∧
      m'.currentState.pc = m.currentState.pc + BitVec.ofNat 64 (4 * d) := by
  obtain ⟨hbr, hcbnz, hpositive⟩ := hf
  obtain ⟨o, ho, hpc⟩ := hd.pc_successor hm hbr hcbnz hc
  have hpos := hpositive o ho
  have hnear := successors_near ho
  have ho' : 0 < o.toNat ∧ o.toNat < 2 ^ 18 := by
    rw [BitVec.toInt_eq_toNat_cond] at hpos
    split at hpos <;> omega
  refine ⟨o.toNat, ho'.1, ho'.2, hpc.trans (congrArg _ ?_)⟩
  apply BitVec.eq_of_toNat_eq
  rw [BitVec.toNat_shiftLeft, BitVec.toNat_ofNat, Nat.shiftLeft_eq, Nat.mul_comm]

/-- How many of the first `N` words of the text are still ahead. -/
def ahead (N : ℕ) (m : Machine) : ℕ := N - (m.currentState.pc - memTextStart).toNat / 4

theorem DecodesTo.ahead_lt {u : Indeterminate} {m m' : Machine} {n : Name} (hm : WellFormed m)
    (hd : DecodesTo (fetch m) n) (hf : Forward (fetch m) n) (hc : cycle u m = .ok m') {N k : ℕ}
    (hN : N ≤ 0x40000) (hk : k < N) (hpc : m.currentState.pc = textWord k) :
    ahead N m' < ahead N m := by
  obtain ⟨d, hpos, hlt, hd⟩ := hd.pc_forward hm hf hc
  have hat (j : ℕ) (hj : j < 2 ^ 20) : (textWord j - memTextStart).toNat / 4 = j := by
    rw [textWord, add_sub_cancel_left, BitVec.toNat_ofNat]
    omega
  have hnext : m'.currentState.pc = textWord (k + d) := by
    rw [hd, hpc, textWord, textWord, BitVec.add_assoc, ← BitVec.ofNat_add, Nat.mul_add]
  unfold ahead
  rw [hnext, hpc, hat k (by omega), hat (k + d) (by omega)]
  omega

theorem lastWord_lt {programs : List (List (BitVec 32))} {N k : ℕ} {w : BitVec 32}
    (hlen : ∀ words ∈ programs, words.length ≤ N) (hk : lastWord programs k = some w) : k < N := by
  obtain ⟨words, hwords, hat⟩ := List.exists_of_findSome?_eq_some hk
  exact lt_of_lt_of_le (List.getElem?_eq_some_iff.mp hat).1
    (hlen words (List.mem_reverse.mp hwords))

section Program
variable {slack : Memory} {programs : List (List (BitVec 32))} {N : ℕ}
  (hlen : ∀ words ∈ programs, words.length ≤ N) (hN : N ≤ 0x40000)

section Uses
variable {P : BitVec 32 → Name → Prop} (huses : Uses programs P)
  (hP : ∀ w n, P w n → n.isStore = false ∧ Forward w n)
include hlen hN huses hP

/-- The step lemma of the runs. -/
theorem intact_of_step {u : Machine → Indeterminate} {a b : Machine}
    (ha : WellFormed a ∧ a.memory = (initializeMachine slack programs).memory)
    (hc : step u a = .ok b) :
    (WellFormed b ∧ b.memory = (initializeMachine slack programs).memory) ∧
      ahead N b < ahead N a := by
  have hlen' : ∀ words ∈ programs, words.length ≤ 0x40000 := fun words h => (hlen words h).trans hN
  obtain ⟨k, n, hk, hpc, hn, hPn⟩ := executes_loaded hlen' huses ha.1 ha.2 hc
  obtain ⟨hstore, hf⟩ := hP _ _ hPn
  exact ⟨⟨ha.1.cycle hc, (hn.memory_eq hstore hc).trans ha.2⟩,
    hn.ahead_lt ha.1 hf hc hN (lastWord_lt hlen hk) hpc⟩

/-- If the words of the program files store nothing and branch forward only, then a `go` from
anywhere in a session ends within `N + 1` rounds of its loop, where no file has more than `N` words,
and so does a longer `run`, on a halted machine or with a fault. Without HLT it is a fault. -/
theorem forward_terminates {m : Machine} (hs : Session (initializeMachine slack programs) m)
    (u : Machine → Indeterminate) :
    (∀ fuel, N < fuel → go u fuel m ≠ .ok none) ∧
    ∀ K : BitVec 32, (N : ℤ) < K.toInt →
      go u K.toInt.toNat m = (run u K m).map some ∧
      (∀ m', run u K m = .ok m' → m'.runBit = 0) ∧
      ((∀ w n, P w n → n ≠ .hlt) → ∀ m', run u K m ≠ .ok m') := by
  have hlen' : ∀ words ∈ programs, words.length ≤ 0x40000 := fun words h => (hlen words h).trans hN
  have hstore (w : BitVec 32) (n : Name) (h : P w n) : n.isStore = false := (hP w n h).1
  have hm : WellFormed m ∧ m.memory = (initializeMachine slack programs).memory :=
    ⟨Session.wellFormed (.initial slack programs) hs, memory_static hlen' huses hstore hs⟩
  have hstep (a b : Machine)
      (ha : WellFormed a ∧ a.memory = (initializeMachine slack programs).memory)
      (_ : halted a = false) (hc : step u a = .ok b) := intact_of_step hlen hN huses hP ha hc
  have hrank : ahead N m ≤ N := Nat.sub_le _ _
  have hhalts (K : BitVec 32) (hK : (N : ℤ) < K.toInt) (m' : Machine) (h : run u K m = .ok m') :
      m'.runBit = 0 := by
    rw [run_eq_counted] at h
    exact beq_iff_eq.mp ((loops_of_rank hstep hm (by omega)).2 m' h)
  refine ⟨fun fuel hfuel => ?_, fun K hK => ⟨?_, hhalts K hK, fun hhlt m' h => ?_⟩⟩
  · rw [go_eq_unbounded]
    exact unbounded_ne_none_of_rank hstep hm (by omega)
  · rw [go_eq_unbounded, run_eq_counted]
    exact (loops_of_rank hstep hm (by omega)).1
  · have hone := runBit_static hlen' huses hstore (.command u (.run K) hs h) hhlt
    rw [hhalts K hK m' h] at hone
    exact absurd hone (by decide)

end Uses

section Closed
variable (hclosed : Closed programs) (hforward : ∀ i w n, lastWord programs i = some w →
  DecodesTo w n → ∀ o ∈ successors w n, 0 < o.toInt)
include hlen hN hclosed hforward

theorem InProgram.ahead_lt {u : Indeterminate} {a b : Machine} (ha : InProgram slack programs a)
    (hrun : a.runBit ≠ 0) (hc : Shell.cycle u a = .ok b) : ahead N b < ahead N a := by
  have hlen' : ∀ words ∈ programs, words.length ≤ 0x40000 := fun words h => (hlen words h).trans hN
  obtain ⟨k, n, hk, hpc, hn⟩ := ha.executes hlen' hclosed hrun
  obtain ⟨-, hbr, hcbnz, -⟩ := hclosed.plain k _ n hk hn
  exact hn.ahead_lt ha.wellFormed ⟨hbr, hcbnz, hforward k _ n hk hn⟩ hc hN
    (lastWord_lt hlen hk) hpc

theorem halts_of_inProgram {m : Machine} (hm : InProgram slack programs m)
    (u : Machine → Indeterminate) : ∃ m', m'.runBit = 0 ∧
      (∀ fuel, N < fuel → go u fuel m = .ok (some m')) ∧
      ∀ K : BitVec 32, (N : ℤ) < K.toInt → run u K m = .ok m' := by
  have hlen' : ∀ words ∈ programs, words.length ≤ 0x40000 := fun words h => (hlen words h).trans hN
  have hprogress (a : Machine) (ha : InProgram slack programs a) (hrun : halted a = false) :
      ∃ b, step u a = .ok b ∧ InProgram slack programs b := ha.step hlen' hclosed u a hrun
  have hstep (a b : Machine) (ha : InProgram slack programs a) (hrun : halted a = false)
      (hc : step u a = .ok b) : InProgram slack programs b ∧ ahead N b < ahead N a := by
    obtain ⟨b', hb, hin⟩ := hprogress a ha hrun
    obtain rfl := Except.ok.inj (hb.symm.trans hc)
    exact ⟨hin, ha.ahead_lt hlen hN hclosed hforward (runBit_ne_zero hrun) hc⟩
  have hrank : ahead N m < N + 1 := Nat.lt_succ_of_le (Nat.sub_le _ _)
  obtain ⟨m', hcounted, -⟩ := counted_progress hprogress (N + 1) hm
  have hends := loops_of_rank hstep hm hrank
  rw [hcounted] at hends
  have hgo (fuel : ℕ) (hfuel : N < fuel) : go u fuel m = .ok (some m') := by
    rw [go_eq_unbounded, unbounded_mono (unbounded_ne_none_of_rank hstep hm hrank) hfuel]
    exact hends.1
  refine ⟨m', beq_iff_eq.mp (hends.2 m' rfl), hgo, fun K hK => ?_⟩
  have hsame := (loops_of_rank hstep hm (by omega : ahead N m < K.toInt.toNat)).1
  rw [← go_eq_unbounded, hgo _ (by omega), ← run_eq_counted] at hsame
  obtain ⟨m'', hrun, heq⟩ := map_ok_iff.mp hsame.symm
  rw [hrun, Option.some.inj heq]

/-- In a closed program whose instructions go on ahead only, `go` and every `run` of more than `N`
cycles end on one halted machine, whatever the user did before and whatever C leaves open. -/
theorem closed_forward_halts {u : Machine → Indeterminate} {cs : List Command} {m : Machine}
    (h : CompleteAll u (initializeMachine slack programs) cs m) :
    ∃ m', m'.runBit = 0 ∧ ∀ u' : Machine → Indeterminate,
      (∀ fuel, N < fuel → go u' fuel m = .ok (some m')) ∧
        ∀ K : BitVec 32, (N : ℤ) < K.toInt → run u' K m = .ok m' := by
  have hlen' : ∀ words ∈ programs, words.length ≤ 0x40000 := fun words h => (hlen words h).trans hN
  have hboot : InProgram slack programs (initializeMachine slack programs) :=
    .initial hlen' hclosed
  have hm := hboot.completeAll hlen' hclosed h
  have hsettled := hm.settledRun hlen' hclosed
  obtain ⟨m', hrunBit, hgo, hrun⟩ := halts_of_inProgram hlen hN hclosed hforward hm u
  refine ⟨m', hrunBit, fun u' => ⟨fun fuel hfuel => ?_, fun K hK => ?_⟩⟩
  · rw [go_eq_of_settled hm.wellFormed hsettled fuel]
    exact hgo fuel hfuel
  · rw [run_eq_of_settled hm.wellFormed (hsettled _)]
    exact hrun K hK

end Closed

end Program

/-- CBZ X0, #8 and MOVZ X0, #1, without a HLT. -/
theorem forward_terminates_cbz : ¬ ∃ m', run (fun _ => .zeroed) 3
    (initializeMachine (fun _ _ => 0) [[0xB4000040, 0xD2800020]]) = .ok m' := by
  have hcbz : DecodesTo 0xB4000040 .cbz := by decide +kernel
  have hmovz : DecodesTo 0xD2800020 .movz := by decide +kernel
  have huses : Uses [[0xB4000040, 0xD2800020]] fun w n =>
      n.isStore = false ∧ Forward w n ∧ n ≠ .hlt := by
    apply uses_of_decodes
    simp only [List.mem_cons, List.not_mem_nil, or_false, forall_eq, forall_eq_or_imp]
    exact ⟨⟨_, hcbz, by simp [Name.isStore, Forward, successors]; decide⟩,
      ⟨_, hmovz, by simp [Name.isStore, Forward, successors]⟩⟩
  have hs : Session (initializeMachine (fun _ _ => 0) [[0xB4000040, 0xD2800020]]) _ := .start
  have hends := forward_terminates (N := 2) (by decide) (by decide) huses
    (fun _ _ h => ⟨h.1, h.2.1⟩) hs fun _ => .zeroed
  exact fun ⟨m', h⟩ => (hends.2 3 (by decide)).2.2 (fun _ _ h => h.2.2) m' h

/-- MOVZ X0, #1 and HLT, for two records left over. -/
theorem closed_forward_halts_movz : ∃ m', m'.runBit = 0 ∧ go (fun _ => .zeroed) 3
      (initializeMachine (fun _ _ => 0) [[0xD2800020, 0xD4400000]]) = .ok (some m') ∧
    run (fun _ => .strict emptySlot) 3
      (initializeMachine (fun _ _ => 0) [[0xD2800020, 0xD4400000]]) = .ok m' := by
  have hmovz : DecodesTo 0xD2800020 .movz := by decide +kernel
  have hhlt : DecodesTo 0xD4400000 .hlt := by decide +kernel
  have hword {i : ℕ} {w : BitVec 32} {n : Name}
      (h : lastWord [[0xD2800020, 0xD4400000]] i = some w) (hd : DecodesTo w n) :
      i = 0 ∧ w = 0xD2800020 ∧ n = .movz ∨ i = 1 ∧ w = 0xD4400000 ∧ n = .hlt := by
    match i with
    | 0 =>
      obtain rfl : 0xD2800020 = w := Option.some.inj h
      exact .inl ⟨rfl, rfl, hd.unique hmovz⟩
    | 1 =>
      obtain rfl : 0xD4400000 = w := Option.some.inj h
      exact .inr ⟨rfl, rfl, hd.unique hhlt⟩
    | i + 2 => simp [lastWord] at h
  have hdecodes (i : ℕ) (w : BitVec 32) (h : lastWord [[0xD2800020, 0xD4400000]] i = some w) :
      ∃ n, DecodesTo w n := by
    match i with
    | 0 => exact ⟨_, (Option.some.inj h : 0xD2800020 = w) ▸ hmovz⟩
    | 1 => exact ⟨_, (Option.some.inj h : 0xD4400000 = w) ▸ hhlt⟩
    | i + 2 => simp [lastWord] at h
  have hclosed : Closed [[0xD2800020, 0xD4400000]] := by
    refine ⟨by simp [lastWord], hdecodes, fun i w n h hd => ?_, fun i w n h hd hne o ho => ?_⟩
    · rcases hword h hd with ⟨rfl, rfl, rfl⟩ | ⟨rfl, rfl, rfl⟩
      all_goals exact ⟨rfl, by decide, by decide, by decide⟩
    · rcases hword h hd with ⟨rfl, rfl, rfl⟩ | ⟨rfl, rfl, rfl⟩
      · obtain rfl := List.mem_singleton.mp ho
        exact ⟨1, by simp [lastWord], by decide⟩
      · exact absurd rfl hne
  have hforward (i : ℕ) (w : BitVec 32) (n : Name)
      (h : lastWord [[0xD2800020, 0xD4400000]] i = some w) (hd : DecodesTo w n) (o : BitVec 64)
      (ho : o ∈ successors w n) : 0 < o.toInt := by
    rcases hword h hd with ⟨rfl, rfl, rfl⟩ | ⟨rfl, rfl, rfl⟩
    all_goals
      obtain rfl := List.mem_singleton.mp ho
      decide
  have h : CompleteAll (fun _ => .zeroed)
      (initializeMachine (fun _ _ => 0) [[0xD2800020, 0xD4400000]]) [] _ := rfl
  obtain ⟨m', hrunBit, hends⟩ :=
    closed_forward_halts (N := 2) (by decide) (by decide) hclosed hforward h
  exact ⟨m', hrunBit, (hends _).1 3 (by omega), (hends _).2 3 (by decide)⟩

end ArmSim.Verify
