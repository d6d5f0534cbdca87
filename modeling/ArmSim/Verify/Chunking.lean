import ArmSim.Verify.Session

/-! The counted and the unbounded command loop over one and the same cycle function. Cutting a
run, stopping at HLT and staying stopped are facts about the loops, once it is known that only
HLT clears `RUN_BIT`. -/
namespace ArmSim.Verify
open Shell Sim Spec Loop

variable {u : Machine → Indeterminate} {m m' : Machine}

theorem run_eq_counted (n : BitVec 32) (m : Machine) :
    run u n m = counted (step u) halted n.toInt.toNat m := by
  unfold run
  cases hm : halted m with
  | true => exact (counted_of_halted hm _).symm
  | false => rfl

theorem run_one (hrun : halted m = false) (hc : step u m = .ok m') : run u 1 m = .ok m' := by
  have hone : (1 : BitVec 32).toInt.toNat = 1 := by decide
  rw [run_eq_counted, hone]
  unfold counted
  rw [hrun]
  exact bind_ok_iff.mpr ⟨m', hc, rfl⟩

theorem go_eq_unbounded (fuel : ℕ) (m : Machine) :
    go u fuel m = unbounded (step u) halted fuel m := by
  unfold go
  cases hm : halted m with
  | true => exact (unbounded_of_halted hm _).symm
  | false => rfl

/-- The sum of two counts that fits an `int`. -/
theorem toNat_toInt_add {n k : BitVec 32} (hn : 0 ≤ n.toInt) (hk : 0 ≤ k.toInt)
    (hsum : n.toInt + k.toInt < 2 ^ 31) :
    (n + k).toInt.toNat = n.toInt.toNat + k.toInt.toNat := by
  simp only [BitVec.toInt_eq_toNat_cond, BitVec.toNat_add] at *
  split at hn <;> split at hk <;> split <;> omega

theorem run_add {n k : BitVec 32} (hn : 0 ≤ n.toInt) (hk : 0 ≤ k.toInt)
    (hsum : n.toInt + k.toInt < 2 ^ 31) (m : Machine) :
    (run u n m >>= run u k) = run u (n + k) m := by
  simp only [run_eq_counted, toNat_toInt_add hn hk hsum, counted_add]
  exact bind_congr fun m₁ => run_eq_counted k m₁

/-- The cycle that starts here dispatches to `implement_HLT`. -/
def ExecutesHlt (u : Machine → Indeterminate) (m : Machine) : Prop :=
  (decodeInstruction (u m).instrDef (fetch m)).name = .name .hlt

/-- HLT is executed on cycle `k`, counted from 1, and on none before it. -/
def HltFirstOn (u : Machine → Indeterminate) (k : ℕ) (m : Machine) : Prop :=
  0 < k ∧ (∃ s, iterate (step u) (k - 1) m = .ok s ∧ ExecutesHlt u s) ∧
    ∀ j < k - 1, ∃ s, iterate (step u) j m = .ok s ∧ ¬ ExecutesHlt u s

/-- `RUN_BIT` changes at HLT only. -/
theorem runBit_of_step (h : step u m = .ok m') :
    (ExecutesHlt u m → m'.runBit = 0) ∧ (¬ ExecutesHlt u m → m'.runBit = m.runBit) := by
  obtain ⟨e, he, rfl⟩ := cycle_ok_iff.mp h
  rw [finish_runBit]
  have hhalt : e.halt = true ↔ ExecutesHlt u m := by
    unfold instructionEffect at he
    unfold ExecutesHlt
    dsimp only at he
    split at he
    · simp at he
    · simp at he
    · rename_i hn
      rw [← Except.ok.inj he, hn]
      simp
    · rename_i n hn
      rw [(effect_confined he).halt, hn]
      simp
  constructor
  · exact fun hx => by rw [if_pos (hhalt.mpr hx)]
  · exact fun hx => by rw [if_neg fun h => hx (hhalt.mp h)]

theorem instructionCount_of_iterate {k : ℕ} (h : iterate (step u) k m = .ok m') :
    m'.instructionCount = m.instructionCount + BitVec.ofNat 32 k := by
  induction k generalizing m' with
  | zero => rw [← Except.ok.inj h]; simp
  | succ k ih =>
    rw [iterate_succ_right] at h
    obtain ⟨s, hs, h⟩ := bind_ok_iff.mp h
    obtain ⟨e, -, rfl⟩ := cycle_ok_iff.mp h
    rw [finish_instructionCount, ih hs, add_assoc, BitVec.ofNat_add]
    rfl

/-- HLT cannot fail, so its cycle ends in the first halted state. -/
theorem HltFirstOn.firstHalt {k : ℕ} (h : HltFirstOn u k m) (hrun : m.runBit = 1) :
    ∃ m', FirstHalt (step u) halted k m m' := by
  obtain ⟨hk, ⟨s, hs, hx⟩, hbefore⟩ := h
  have hrunning : ∀ j ≤ k - 1, ∀ t, iterate (step u) j m = .ok t → t.runBit = 1 := by
    intro j hj t ht
    refine iterate_keeps (P := fun t => t.runBit = 1) (Q := fun t => ¬ ExecutesHlt u t)
      (fun a b ha hq hab => ((runBit_of_step hab).2 hq).trans ha) hrun ?_ ht
    intro i hi v hv
    obtain ⟨v', hv', hq⟩ := hbefore i (by omega)
    exact Except.ok.inj (hv'.symm.trans hv) ▸ hq
  have hlast : ∃ m', step u s = .ok m' := by
    have he : instructionEffect (u s) s = .ok { halt := true } := by
      simp only [instructionEffect, show (decodeInstruction (u s).instrDef (fetch s)).name =
        .name .hlt from hx]
      rfl
    exact ⟨_, cycle_ok_iff.mpr ⟨_, he, rfl⟩⟩
  obtain ⟨m', hm'⟩ := hlast
  refine ⟨m', ?_, ?_, ?_⟩
  · obtain ⟨k, rfl⟩ : ∃ i, k = i + 1 := ⟨k - 1, by omega⟩
    rw [iterate_succ_right]
    exact bind_ok_iff.mpr ⟨s, hs, hm'⟩
  · rw [halted, (runBit_of_step hm').1 hx]
    rfl
  · intro j hj
    have hj' : ∃ t, iterate (step u) j m = .ok t := by
      rcases Nat.lt_or_ge j (k - 1) with hlt | hge
      · obtain ⟨t, ht, -⟩ := hbefore j hlt
        exact ⟨t, ht⟩
      · exact ⟨s, by rw [show j = k - 1 by omega]; exact hs⟩
    obtain ⟨t, ht⟩ := hj'
    refine ⟨t, ht, ?_⟩
    rw [halted, hrunning j (by omega) t ht]
    rfl

/-- A halted machine passes through every go and run command. -/
theorem completeAll_of_halted (hm : m.runBit = 0) {cs : List Command}
    (hcs : ∀ c ∈ cs, c = .go ∨ ∃ n, c = .run n) : CompleteAll u m cs m' ↔ m' = m := by
  have hh : halted m = true := by rw [halted, hm]; rfl
  have hone : ∀ c ∈ cs, ∀ m₁, c.Completes u m m₁ ↔ m₁ = m := by
    intro c hc m₁
    rcases hcs c hc with rfl | ⟨n, rfl⟩
    · simp only [Command.Completes, go_eq_unbounded, unbounded_of_halted hh, exists_const,
        Except.ok.injEq, Option.some.injEq]
      exact eq_comm
    · simp only [Command.Completes, run_eq_counted, counted_of_halted hh, Except.ok.injEq]
      exact eq_comm
  clear hcs
  induction cs with
  | nil => rfl
  | cons c cs ih =>
    simp only [CompleteAll, hone c List.mem_cons_self, exists_eq_left]
    exact ih fun d hd => hone d (List.mem_cons_of_mem c hd)

/-- Splitting a run changes nothing; the run and the go that reach the first HLT, on cycle
`k`, end alike after exactly `k` cycles; and a halted machine stays as it is. -/
theorem run_chunking (u : Machine → Indeterminate) (m : Machine) :
    (∀ n k : BitVec 32, 0 ≤ n.toInt → 0 ≤ k.toInt → n.toInt + k.toInt < 2 ^ 31 →
      (run u n m >>= run u k) = run u (n + k) m) ∧
    (∀ k, m.runBit = 1 → HltFirstOn u k m → ∃ m',
      (∀ fuel, k ≤ fuel → go u fuel m = .ok (some m')) ∧
      (∀ K : BitVec 32, (k : ℤ) ≤ K.toInt → run u K m = .ok m') ∧
      m'.instructionCount = m.instructionCount + BitVec.ofNat 32 k) ∧
    (m.runBit = 0 → ∀ cs : List Command, (∀ c ∈ cs, c = .go ∨ ∃ n, c = .run n) →
      ∀ m', CompleteAll u m cs m' ↔ m' = m) := by
  refine ⟨fun n k hn hk hsum => run_add hn hk hsum m, ?_, ?_⟩
  · intro k hrun hfirst
    obtain ⟨m', hm'⟩ := hfirst.firstHalt hrun
    refine ⟨m', ?_, ?_, instructionCount_of_iterate hm'.1⟩
    · exact fun fuel hfuel => (go_eq_unbounded fuel m).trans (hm'.loops_eq hfuel).2
    · intro K hK
      rw [run_eq_counted]
      exact (hm'.loops_eq (by omega)).1
  · exact fun hm cs hcs m' => completeAll_of_halted hm hcs

/-- A program that halts at once. -/
theorem run_chunking_hlt :
    (run (fun _ => .zeroed) 1 (oneWord 0xD4400000) >>= run (fun _ => .zeroed) 2) =
        run (fun _ => .zeroed) 3 (oneWord 0xD4400000) ∧
      (∃ m', (∀ fuel, 1 ≤ fuel → go (fun _ => .zeroed) fuel (oneWord 0xD4400000) =
          .ok (some m')) ∧
        (∀ K : BitVec 32, ((1 : ℕ) : ℤ) ≤ K.toInt →
          run (fun _ => .zeroed) K (oneWord 0xD4400000) = .ok m') ∧
        m'.instructionCount = (oneWord 0xD4400000).instructionCount + BitVec.ofNat 32 1) ∧
      CompleteAll (fun _ => .zeroed) { oneWord 0xD4400000 with runBit := 0 } [.run 5, .go]
        { oneWord 0xD4400000 with runBit := 0 } := by
  have hfirst : HltFirstOn (fun _ => .zeroed) 1 (oneWord 0xD4400000) :=
    ⟨by decide, ⟨_, rfl, by unfold ExecutesHlt; decide +kernel⟩, fun j hj => absurd hj (by omega)⟩
  obtain ⟨hsplit, hhalt, -⟩ := run_chunking (fun _ => .zeroed) (oneWord 0xD4400000)
  obtain ⟨-, -, hstay⟩ :=
    run_chunking (fun _ => .zeroed) { oneWord 0xD4400000 with runBit := 0 }
  exact ⟨hsplit 1 2 (by decide) (by decide) (by decide), hhalt 1 rfl hfirst,
    (hstay rfl [.run 5, .go] (by simp) _).mpr rfl⟩

end ArmSim.Verify
