import ArmSim.Core.Loop
import Mathlib.Logic.Function.Iterate

/-! Forward simulation. Every step of an abstract system is matched by one step of a partial
function, so its finite runs, its halts and its endless runs are those of the loops that drive
the function. Two partial functions in lockstep have the same loops. -/
namespace ArmSim.Simulation
open Loop

universe u v w

section Runs
variable {α : Type w} (Next : α → α → Prop) (stopped : α → Prop)

/-- A run of exactly `n` steps. -/
inductive Run : ℕ → α → α → Prop
  | done (a : α) : Run 0 a a
  | step {n : ℕ} {a b c : α} : Next a b → Run n b c → Run (n + 1) a c

def Endless (a : α) : Prop := ∃ f : ℕ → α, f 0 = a ∧ ∀ n, Next (f n) (f (n + 1))

/-- Neither stopped nor able to go on. -/
def Stuck (a : α) : Prop := ¬ stopped a ∧ ∀ b, ¬ Next a b

variable {Next} {stopped}

theorem Run.append {m n : ℕ} {a b c : α} (h : Run Next m a b) (h' : Run Next n b c) :
    Run Next (m + n) a c := by
  induction h with
  | done a =>
    rw [Nat.zero_add]
    exact h'
  | step hab _ ih =>
    rw [Nat.add_right_comm]
    exact .step hab (ih h')

/-- The states on the way can all go on. -/
theorem Run.before {n j : ℕ} {a b : α} (h : Run Next n a b) (hj : j < n) :
    ∃ c d, Run Next j a c ∧ Next c d := by
  induction h generalizing j with
  | done a => omega
  | @step n a b c hab _ ih =>
    cases j with
    | zero => exact ⟨a, b, .done a, hab⟩
    | succ j =>
      obtain ⟨c, d, hc, hd⟩ := ih (by omega : j < n)
      exact ⟨c, d, .step hab hc, hd⟩

/-- A system stops, goes on forever or gets stuck. -/
theorem run_cases (a : α) : (∃ n b, Run Next n a b ∧ stopped b) ∨ Endless Next a ∨
    ∃ n b, Run Next n a b ∧ Stuck Next stopped b := by
  by_cases hstop : ∃ n b, Run Next n a b ∧ stopped b
  · exact .inl hstop
  by_cases hstuck : ∃ n b, Run Next n a b ∧ Stuck Next stopped b
  · exact .inr (.inr hstuck)
  -- every state that is reached has a successor, which is reached as well
  have hnext (b : {b // ∃ n, Run Next n a b}) : ∃ c : {c // ∃ n, Run Next n a c},
      Next b.1 c.1 := by
    obtain ⟨b, n, hb⟩ := b
    by_contra hno
    refine hstuck ⟨n, b, hb, fun h => hstop ⟨n, b, hb, h⟩, fun c hc => hno ?_⟩
    exact ⟨⟨c, n + 1, hb.append (.step hc (.done c))⟩, hc⟩
  choose next hnext using hnext
  let f : ℕ → {b // ∃ n, Run Next n a b} := fun n => next^[n] ⟨a, 0, .done a⟩
  refine .inr (.inl ⟨fun n => (f n).1, rfl, fun n => ?_⟩)
  have hf : f (n + 1) = next (f n) := Function.iterate_succ_apply' next n _
  dsimp only
  rw [hf]
  exact hnext (f n)

end Runs

section Simulates
variable {α : Type w} {σ : Type u} {ε : Type v}

/-- The states that `R` relates go on together and halt together. -/
structure Simulates (Next : α → α → Prop) (stopped : α → Prop) (step : σ → Except ε σ)
    (halted : σ → Bool) (R : α → σ → Prop) : Prop where
  step : ∀ {a b s}, R a s → Next a b → ∃ t, step s = .ok t ∧ R b t
  running : ∀ {a b}, Next a b → ¬ stopped a
  halted_iff : ∀ {a s}, R a s → (halted s = true ↔ stopped a)

variable {Next : α → α → Prop} {stopped : α → Prop} {step : σ → Except ε σ}
  {halted : σ → Bool} {R : α → σ → Prop} (h : Simulates Next stopped step halted R)
  {a b : α} {s : σ} {n : ℕ}
include h

theorem Simulates.iterate (hab : Run Next n a b) (hs : R a s) :
    ∃ t, iterate step n s = .ok t ∧ R b t := by
  induction hab generalizing s with
  | done a => exact ⟨s, rfl, hs⟩
  | step hnext _ ih =>
    obtain ⟨t, ht, hR⟩ := h.step hs hnext
    obtain ⟨t', ht', hR'⟩ := ih hR
    exact ⟨t', bind_ok_iff.mpr ⟨t, ht, ht'⟩, hR'⟩

theorem Simulates.not_halted (hnext : Next a b) (hs : R a s) : halted s = false := by
  rw [← Bool.not_eq_true, h.halted_iff hs]
  exact h.running hnext

/-- A run that stops is the run up to the first halt. -/
theorem Simulates.firstHalt (hab : Run Next n a b) (hb : stopped b) (hs : R a s) :
    ∃ t, FirstHalt step halted n s t ∧ R b t := by
  obtain ⟨t, ht, hR⟩ := h.iterate hab hs
  refine ⟨t, ⟨ht, (h.halted_iff hR).mpr hb, fun j hj => ?_⟩, hR⟩
  obtain ⟨c, d, hc, hd⟩ := hab.before hj
  obtain ⟨t', ht', hR'⟩ := h.iterate hc hs
  exact ⟨t', ht', h.not_halted hd hR'⟩

/-- The counted loop does not end early. -/
theorem Simulates.counted_eq (hab : Run Next n a b) (hs : R a s) :
    counted step halted n s = Loop.iterate step n s := by
  induction hab generalizing s with
  | done a => rfl
  | step hnext _ ih =>
    obtain ⟨t, ht, hR⟩ := h.step hs hnext
    simp only [counted, h.not_halted hnext hs, Bool.false_eq_true, if_false, Loop.iterate, ht]
    exact ih hR

theorem Simulates.unbounded_of_endless (ha : Endless Next a) (hs : R a s) (fuel : ℕ) :
    unbounded step halted fuel s = .ok none := by
  obtain ⟨f, rfl, hf⟩ := ha
  have hgo : ∀ k t, R (f k) t → unbounded step halted fuel t = .ok none := by
    induction fuel with
    | zero =>
      intro k t ht
      simp [unbounded, h.not_halted (hf k) ht]
    | succ fuel ih =>
      intro k t ht
      obtain ⟨t', ht', hR⟩ := h.step ht (hf k)
      simp only [unbounded, h.not_halted (hf k) ht, Bool.false_eq_true, if_false]
      exact bind_ok_iff.mpr ⟨t', ht', ih (k + 1) t' hR⟩
  exact hgo 0 s hs

end Simulates

section Lockstep
variable {σ : Type u} {τ : Type w} {ε : Type v} {step : σ → Except ε σ} {step' : τ → Except ε τ}
  {halted : σ → Bool} {halted' : τ → Bool} {R : σ → τ → Prop}
  (hstep : ∀ s s' t, R s t → step s = .ok s' → ∃ t', step' t = .ok t' ∧ R s' t')
  (hhalted : ∀ s t, R s t → halted s = halted' t) {n : ℕ} {s s' : σ} {t : τ}
include hstep hhalted

/-- Two partial functions whose steps correspond do so in the counted loop. -/
theorem counted_lockstep (hst : R s t) (h : counted step halted n s = .ok s') :
    ∃ t', counted step' halted' n t = .ok t' ∧ R s' t' := by
  induction n generalizing s t with
  | zero =>
    obtain rfl := Except.ok.inj h
    exact ⟨t, rfl, hst⟩
  | succ n ih =>
    simp only [counted, ← hhalted s t hst] at h ⊢
    split_ifs at h ⊢
    · obtain rfl := Except.ok.inj h
      exact ⟨t, rfl, hst⟩
    · obtain ⟨s₁, hs₁, h⟩ := bind_ok_iff.mp h
      obtain ⟨t₁, ht₁, hst₁⟩ := hstep s s₁ t hst hs₁
      obtain ⟨t', ht', hst'⟩ := ih hst₁ h
      exact ⟨t', bind_ok_iff.mpr ⟨t₁, ht₁, ht'⟩, hst'⟩

theorem unbounded_lockstep (hst : R s t) (h : unbounded step halted n s = .ok (some s')) :
    ∃ t', unbounded step' halted' n t = .ok (some t') ∧ R s' t' := by
  induction n generalizing s t with
  | zero =>
    simp only [unbounded, ← hhalted s t hst] at h ⊢
    split_ifs at h ⊢
    · obtain rfl := Option.some.inj (Except.ok.inj h)
      exact ⟨t, rfl, hst⟩
    · simp at h
  | succ n ih =>
    simp only [unbounded, ← hhalted s t hst] at h ⊢
    split_ifs at h ⊢
    · obtain rfl := Option.some.inj (Except.ok.inj h)
      exact ⟨t, rfl, hst⟩
    · obtain ⟨s₁, hs₁, h⟩ := bind_ok_iff.mp h
      obtain ⟨t₁, ht₁, hst₁⟩ := hstep s s₁ t hst hs₁
      obtain ⟨t', ht', hst'⟩ := ih hst₁ h
      exact ⟨t', bind_ok_iff.mpr ⟨t₁, ht₁, ht'⟩, hst'⟩

end Lockstep

end ArmSim.Simulation
