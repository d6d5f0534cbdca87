import ArmSim.Core.Loop

/-! Loops that do not fail, because an invariant lets every step go on, and loops that end, because
every step lowers a rank. -/
namespace ArmSim.Loop

universe u v

variable {σ : Type u} {ε : Type v} {step : σ → Except ε σ} {halted : σ → Bool} {P : σ → Prop}

section Progress
variable (hstep : ∀ s, P s → halted s = false → ∃ t, step s = .ok t ∧ P t)
include hstep

theorem counted_progress (n : ℕ) {s : σ} (hs : P s) :
    ∃ t, counted step halted n s = .ok t ∧ P t := by
  induction n generalizing s with
  | zero => exact ⟨s, rfl, hs⟩
  | succ n ih =>
    cases hh : halted s with
    | true => exact ⟨s, counted_of_halted hh _, hs⟩
    | false =>
      obtain ⟨t, hc, hP⟩ := hstep s hs hh
      obtain ⟨t', ht', hP'⟩ := ih hP
      simp only [counted, hh, Bool.false_eq_true, if_false]
      exact ⟨t', bind_ok_iff.mpr ⟨t, hc, ht'⟩, hP'⟩

theorem unbounded_progress (n : ℕ) {s : σ} (hs : P s) :
    ∃ r, unbounded step halted n s = .ok r ∧ ∀ t, r = some t → P t := by
  induction n generalizing s with
  | zero =>
    refine ⟨_, rfl, fun t ht => ?_⟩
    split_ifs at ht
    obtain rfl := Option.some.inj ht
    exact hs
  | succ n ih =>
    cases hh : halted s with
    | true =>
      refine ⟨_, unbounded_of_halted hh _, fun t ht => ?_⟩
      obtain rfl := Option.some.inj ht
      exact hs
    | false =>
      obtain ⟨t, hc, hP⟩ := hstep s hs hh
      obtain ⟨r, hr, hP'⟩ := ih hP
      simp only [unbounded, hh, Bool.false_eq_true, if_false]
      exact ⟨r, bind_ok_iff.mpr ⟨t, hc, hr⟩, hP'⟩

end Progress

section Rank
variable {rank : σ → ℕ} {n : ℕ} {s : σ}
  (hstep : ∀ s t, P s → halted s = false → step s = .ok t → P t ∧ rank t < rank s)
include hstep

/-- Beyond the rank of the first state the two loops do the same, and a loop that does not fail
ends on a halted state. -/
theorem loops_of_rank (hs : P s) (hn : rank s < n) :
    unbounded step halted n s = (counted step halted n s).map some ∧
      ∀ t, counted step halted n s = .ok t → halted t = true := by
  induction n generalizing s with
  | zero => omega
  | succ n ih =>
    cases hh : halted s with
    | true =>
      rw [unbounded_of_halted hh, counted_of_halted hh]
      exact ⟨rfl, fun t ht => Except.ok.inj ht ▸ hh⟩
    | false =>
      simp only [unbounded, counted, hh, Bool.false_eq_true, if_false]
      cases hc : step s with
      | error e => exact ⟨rfl, fun t ht => absurd ht (by simp [bind, Except.bind])⟩
      | ok t =>
        obtain ⟨hP, hlt⟩ := hstep s t hs hh hc
        exact ih hP (by omega)

theorem unbounded_ne_none_of_rank (hs : P s) (hn : rank s < n) :
    unbounded step halted n s ≠ .ok none := by
  rw [(loops_of_rank hstep hs hn).1]
  intro h
  obtain ⟨t, -, ht⟩ := map_ok_iff.mp h
  exact absurd ht (Option.some_ne_none t)

end Rank

end ArmSim.Loop
