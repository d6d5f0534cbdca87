import ArmSim.Core.Loop

/-! Partial step functions that leave something to be chosen in every state. The choices make no
difference to a run exactly when they make none in any state that it goes on from. -/
namespace ArmSim.Choice
open Loop

universe u v w

variable {σ : Type u} {ε : Type v} {κ : Type w} (act : κ → σ → Except ε σ) (halted : σ → Bool)

/-- One step, with the choice `c s` in the state `s`. -/
def resolve (c : σ → κ) (s : σ) : Except ε σ := act (c s) s

/-- All choices give the same step. -/
def Fixed (s : σ) : Prop := ∀ k k', act k s = act k' s

/-- Whatever is chosen, `P` holds of the states from which the next `n` steps go on. -/
def Along (P : σ → Prop) : ℕ → σ → Prop
  | 0, _ => True
  | n + 1, s => halted s = false → P s ∧ ∀ k t, act k s = .ok t → Along P n t

section Along
variable {act} {halted} {P Q : σ → Prop}

theorem Along.mono {m n : ℕ} {s : σ} (h : Along act halted P n s) (hmn : m ≤ n) :
    Along act halted P m s := by
  induction m generalizing n s with
  | zero => trivial
  | succ m ih =>
    obtain ⟨n, rfl⟩ : ∃ k, n = k + 1 := ⟨n - 1, by omega⟩
    intro hs
    obtain ⟨hP, hnext⟩ := h hs
    exact ⟨hP, fun k t ht => ih (hnext k t ht) (by omega)⟩

/-- Two properties that say the same of the states with an invariant. -/
theorem Along.congr {I : σ → Prop} (hI : ∀ k s t, I s → act k s = .ok t → I t)
    (hPQ : ∀ s, I s → (P s ↔ Q s)) {n : ℕ} {s : σ} (hs : I s) :
    Along act halted P n s ↔ Along act halted Q n s := by
  induction n generalizing s with
  | zero => exact Iff.rfl
  | succ n ih =>
    unfold Along
    refine imp_congr_right fun _ => and_congr (hPQ s hs) ?_
    exact forall₂_congr fun k t => imp_congr_right fun ht => ih (hI k s t hs ht)

/-- An invariant of the steps that are taken holds wherever they go on. -/
theorem Along.of_invariant {I : σ → Prop}
    (hI : ∀ k s t, I s → halted s = false → act k s = .ok t → I t)
    (hP : ∀ s, I s → halted s = false → P s) {n : ℕ} {s : σ} (hs : I s) :
    Along act halted P n s := by
  induction n generalizing s with
  | zero => trivial
  | succ n ih => exact fun hrun => ⟨hP s hs hrun, fun k t ht => ih (hI k s t hs hrun ht)⟩

end Along

section Loops
variable {act} {halted} {n : ℕ} {s : σ} (c c' : σ → κ)

theorem counted_eq_of_fixed (h : Along act halted (Fixed act) n s) :
    counted (resolve act c) halted n s = counted (resolve act c') halted n s := by
  induction n generalizing s with
  | zero => rfl
  | succ n ih =>
    cases hs : halted s with
    | true => rw [counted_of_halted hs, counted_of_halted hs]
    | false =>
      obtain ⟨hfix, hnext⟩ := h hs
      have hstep : resolve act c s = resolve act c' s := hfix (c s) (c' s)
      simp only [counted, hs, Bool.false_eq_true, if_false, hstep]
      cases ht : resolve act c' s with
      | error e => rfl
      | ok t => exact ih (hnext (c' s) t ht)

theorem unbounded_eq_of_fixed (h : Along act halted (Fixed act) n s) :
    unbounded (resolve act c) halted n s = unbounded (resolve act c') halted n s := by
  induction n generalizing s with
  | zero => rfl
  | succ n ih =>
    cases hs : halted s with
    | true => rw [unbounded_of_halted hs, unbounded_of_halted hs]
    | false =>
      obtain ⟨hfix, hnext⟩ := h hs
      have hstep : resolve act c s = resolve act c' s := hfix (c s) (c' s)
      simp only [unbounded, hs, Bool.false_eq_true, if_false, hstep]
      cases ht : resolve act c' s with
      | error e => rfl
      | ok t => exact ih (hnext (c' s) t ht)

/-- The runs of up to `n` steps are the same for all choices if and only if each of their steps
is. -/
theorem along_fixed_iff : Along act halted (Fixed act) n s ↔ ∀ (c c' : σ → κ) (j : ℕ), j ≤ n →
    counted (resolve act c) halted j s = counted (resolve act c') halted j s := by
  constructor
  · exact fun h c c' j hj => counted_eq_of_fixed c c' (h.mono hj)
  · intro h
    induction n generalizing s with
    | zero => trivial
    | succ n ih =>
      intro hs
      have hone (c : σ → κ) (j : ℕ) : counted (resolve act c) halted (j + 1) s =
          act (c s) s >>= counted (resolve act c) halted j := by
        simp only [counted, hs, Bool.false_eq_true, if_false]
        rfl
      have hfix : Fixed act s := by
        intro k k'
        have heq := h (fun _ => k) (fun _ => k') 1 (by omega)
        rw [hone, hone] at heq
        exact (bind_pure (act k s)).symm.trans (heq.trans (bind_pure (act k' s)))
      refine ⟨hfix, fun k t ht => ih fun c c' j hj => ?_⟩
      have heq := h c c' (j + 1) (by omega)
      rw [hone, hone, hfix (c s) k, hfix (c' s) k, ht] at heq
      exact heq

end Loops

end ArmSim.Choice
